import Mathlib.Algebra.Order.Ring.Int
import Mathlib.Data.List.Range
import Mathlib.Data.List.Sort
import Mathlib.Data.List.TakeWhile

/-! Comparison functions that return an integer, as `qsort` takes them: negative, zero or positive.
Such a function sorts if it compares as a transitive `Ordering` does. -/

namespace Comparators

open List

variable {α β : Type*}

/-- The integer function `cmp` compares as some transitive order does. -/
def Consistent (cmp : α → α → ℤ) : Prop := ∃ ord : α → α → Ordering, Std.TransCmp ord ∧ ∀ a b, compare (cmp a b) 0 = ord a b

/-- The first comparison decides; only a tie is left to the second one. -/
def thenBy (cmp cmp' : α → α → ℤ) (a b : α) : ℤ :=
  let res := cmp a b
  if res ≠ 0 then res else cmp' a b

/-- Element by element; where one list ends, it comes before the longer one. -/
def lexicographic (cmp : α → α → ℤ) : List α → List α → ℤ
  | [], [] => 0
  | [], _ :: _ => -1
  | _ :: _, [] => 1
  | a :: s, b :: t => if cmp a b = 0 then lexicographic cmp s t else cmp a b

/-- `(b > a) - (b < a)`: the larger number comes first. -/
def descending (a b : ℤ) : ℤ := (if b > a then 1 else 0) - (if b < a then 1 else 0)

/-- The comparison of two terminated strings up to the first difference. -/
def strcmp : List ℤ → List ℤ → ℤ
  | c₁ :: s₁, c₂ :: s₂ => if c₁ = c₂ then (if c₁ = 0 then 0 else strcmp s₁ s₂) else c₁ - c₂
  | _, _ => 0

/-- A string as it is stored, with the terminator 0. -/
def terminated (s : List ℤ) : List ℤ := s.takeWhile (· ≠ 0) ++ [0]

variable {cmp : α → α → ℤ}

theorem Consistent.comap (h : Consistent cmp) (f : β → α) : Consistent fun x y => cmp (f x) (f y) := by
  obtain ⟨ord, htrans, heq⟩ := h
  refine ⟨fun x y => ord (f x) (f y), ?_, fun x y => heq (f x) (f y)⟩
  have horiented : Std.OrientedCmp fun x y => ord (f x) (f y) := ⟨Std.OrientedCmp.eq_swap⟩
  exact ⟨Std.TransCmp.isLE_trans⟩

theorem then_of_ne_eq {o : Ordering} (h : o ≠ .eq) (o' : Ordering) : o.then o' = o := by
  cases o with
  | lt | gt => rfl
  | eq => exact absurd rfl h

theorem Consistent.thenBy {cmp' : α → α → ℤ} (h : Consistent cmp) (h' : Consistent cmp') :
    Consistent (thenBy cmp cmp') := by
  obtain ⟨ord, htrans, heq⟩ := h
  obtain ⟨ord', htrans', heq'⟩ := h'
  refine ⟨compareLex ord ord', inferInstance, fun a b => ?_⟩
  rw [compareLex, ← heq, ← heq', Comparators.thenBy]
  by_cases h0 : cmp a b = 0
  · simp [h0]
  · have hne : compare (cmp a b) 0 ≠ .eq := fun h => h0 (compare_eq_iff_eq.mp h)
    rw [if_pos h0, then_of_ne_eq hne]

theorem Consistent.self (h : Consistent cmp) (a : α) : cmp a a = 0 := by
  obtain ⟨ord, htrans, heq⟩ := h
  exact compare_eq_iff_eq.mp ((heq a a).trans Std.ReflCmp.compare_self)

/-- The order the other way. -/
theorem Consistent.neg (h : Consistent cmp) : Consistent fun a b => -cmp a b := by
  obtain ⟨ord, htrans, heq⟩ := h
  have hflip : Std.OrientedCmp fun a b => ord b a := ⟨Std.OrientedCmp.eq_swap⟩
  refine ⟨fun a b => ord b a, ⟨fun hab hbc => Std.TransCmp.isLE_trans hbc hab⟩, fun a b => ?_⟩
  have hswap : ord b a = (ord a b).swap := Std.OrientedCmp.eq_swap
  show compare (-cmp a b) 0 = ord b a
  rw [hswap, ← heq a b]
  rcases lt_trichotomy (cmp a b) 0 with hlt | h0 | hgt
  · rw [compare_lt_iff_lt.mpr hlt, compare_gt_iff_gt.mpr (by omega)]
    rfl
  · rw [h0]
    rfl
  · rw [compare_gt_iff_gt.mpr hgt, compare_lt_iff_lt.mpr (by omega)]
    rfl

theorem Consistent.lexicographic (h : Consistent cmp) : Consistent (lexicographic cmp) := by
  obtain ⟨ord, htrans, heq⟩ := h
  refine ⟨List.compareLex ord, inferInstance, fun s t => ?_⟩
  induction s generalizing t with
  | nil =>
    cases t with
    | nil => rfl
    | cons b t => rfl
  | cons a s ih =>
    cases t with
    | nil => rfl
    | cons b t =>
      rw [Comparators.lexicographic, List.compareLex_cons_cons, ← heq a b]
      by_cases h0 : cmp a b = 0
      · rw [if_pos h0, h0, ih]
        rfl
      · have hne : compare (cmp a b) 0 ≠ .eq := fun h => h0 (compare_eq_iff_eq.mp h)
        rw [if_neg h0, then_of_ne_eq hne]

/-- Equal in the lexicographic order: of the same length and equal element by element. -/
theorem lexicographic_eq_zero_iff {s t : List α} :
    lexicographic cmp s t = 0 ↔ Forall₂ (fun a b => cmp a b = 0) s t := by
  induction s generalizing t with
  | nil =>
    cases t with
    | nil => simp [lexicographic]
    | cons b t => exact ⟨fun h => by simp [lexicographic] at h, fun h => nomatch h⟩
  | cons a s ih =>
    cases t with
    | nil => exact ⟨fun h => by simp [lexicographic] at h, fun h => nomatch h⟩
    | cons b t =>
      rw [lexicographic, forall₂_cons]
      by_cases h0 : cmp a b = 0
      · rw [if_pos h0, ih]
        exact ⟨fun h => ⟨h0, h⟩, fun h => h.2⟩
      · rw [if_neg h0]
        exact ⟨fun h => absurd h h0, fun h => h.1⟩

/-- Lists that begin with parts of the same length: the beginnings decide first. -/
theorem lexicographic_append {s t : List α} (hlen : s.length = t.length) (s' t' : List α) :
    lexicographic cmp (s ++ s') (t ++ t') =
      if lexicographic cmp s t = 0 then lexicographic cmp s' t' else lexicographic cmp s t := by
  induction s generalizing t with
  | nil =>
    obtain rfl := length_eq_zero_iff.mp hlen.symm
    rfl
  | cons a s ih =>
    cases t with
    | nil => cases hlen
    | cons b t =>
      rw [cons_append, cons_append, lexicographic, lexicographic, ih (Nat.succ.inj hlen)]
      by_cases h : cmp a b = 0
      · rw [if_pos h, if_pos h]
      · rw [if_neg h, if_neg h, if_neg h]

theorem lexicographic_swap (h : ∀ a b, cmp b a = -cmp a b) (s t : List α) :
    lexicographic cmp t s = -lexicographic cmp s t := by
  induction s generalizing t with
  | nil => cases t with
    | nil => rfl
    | cons b t => rfl
  | cons a s ih => cases t with
    | nil => rfl
    | cons b t =>
      rw [lexicographic, lexicographic, h a b, ih]
      by_cases h0 : cmp a b = 0
      · rw [if_pos h0, if_pos (by omega)]
      · rw [if_neg h0, if_neg (by omega)]

/-- The difference of two numbers is the sign of their comparison. -/
theorem compare_sub (c d : ℤ) : compare (c - d) 0 = compare c d := by
  rcases Int.lt_trichotomy c d with hlt | rfl | hgt
  · rw [compare_lt_iff_lt.mpr hlt, compare_lt_iff_lt.mpr (by omega)]
  · simp
  · rw [compare_gt_iff_gt.mpr hgt, compare_gt_iff_gt.mpr (by omega)]

theorem descending_consistent : Consistent descending := by
  refine ⟨fun a b => compare b a, inferInstance, fun a b => ?_⟩
  refine Eq.trans ?_ (compare_sub b a)
  rw [descending]
  split_ifs with hgt hlt hlt
  · omega
  · rw [compare_gt_iff_gt.mpr (show b - a > 0 by omega)]
    rfl
  · rw [compare_lt_iff_lt.mpr (show b - a < 0 by omega)]
    rfl
  · rw [show b - a = 0 by omega]
    rfl

theorem descending_neg_iff {a b : ℤ} : descending a b < 0 ↔ b < a := by
  unfold descending
  split_ifs <;> omega

theorem descending_pos_iff {a b : ℤ} : 0 < descending a b ↔ a < b := by
  unfold descending
  split_ifs <;> omega

/-- Where both strings end at their terminator, the comparison is that of the lists. -/
theorem compare_strcmp {s t : List ℤ} (hs : 0 ∉ s) (ht : 0 ∉ t) :
    compare (strcmp (s ++ [0]) (t ++ [0])) 0 = compare (s ++ [0]) (t ++ [0]) := by
  have hdiff : ∀ c d : ℤ, c ≠ d → ∀ o, compare (c - d) 0 = (compare c d).then o := fun c d hne o => by
    rw [compare_sub, then_of_ne_eq fun h => hne (compare_eq_iff_eq.mp h)]
  induction s generalizing t with
  | nil =>
    cases t with
    | nil => rfl
    | cons d t =>
      have hd : 0 ≠ d := fun h => ht (by simp [← h])
      simp only [nil_append, cons_append, strcmp, List.compare_cons_cons, if_neg hd]
      exact hdiff 0 d hd _
  | cons c s ih =>
    have hc : c ≠ 0 := fun h => hs (by simp [h])
    cases t with
    | nil =>
      simp only [nil_append, cons_append, strcmp, List.compare_cons_cons, if_neg hc]
      exact hdiff c 0 hc _
    | cons d t =>
      simp only [cons_append, strcmp, List.compare_cons_cons]
      by_cases heq : c = d
      · rw [if_pos heq, if_neg hc, ih (fun h => hs (by simp [h])) (fun h => ht (by simp [h])), heq]
        simp
      · rw [if_neg heq]
        exact hdiff c d heq _

theorem strcmp_consistent : Consistent fun s t => strcmp (terminated s) (terminated t) := by
  have hend : ∀ s : List ℤ, 0 ∉ s.takeWhile (· ≠ 0) := fun s h => by simpa using mem_takeWhile_imp h
  refine ⟨fun s t => compare (terminated s) (terminated t), ?_, fun s t => compare_strcmp (hend s) (hend t)⟩
  have horiented : Std.OrientedCmp fun s t => compare (terminated s) (terminated t) := ⟨Std.OrientedCmp.eq_swap⟩
  exact ⟨Std.TransCmp.isLE_trans⟩

/-- Sorting with such a function as the callback puts the list in its order. -/
theorem Consistent.pairwise_mergeSort (h : Consistent cmp) (l : List α) :
    (l.mergeSort fun a b => cmp a b ≤ 0).Pairwise fun a b => cmp a b ≤ 0 := by
  obtain ⟨ord, htrans, heq⟩ := h
  have hle : ∀ a b, cmp a b ≤ 0 ↔ (ord a b).isLE := fun a b => by
    rw [← heq, Ordering.isLE_iff_ne_gt, compare_gt_iff_gt, not_lt]
  have hsorted := @List.pairwise_mergeSort _ (fun a b => decide (cmp a b ≤ 0)) ?_ ?_ l
  · exact hsorted.imp fun hab => of_decide_eq_true hab
  · simp only [hle, decide_eq_true_eq]
    exact fun a b c => Std.TransCmp.isLE_trans
  · intro a b
    simp only [Bool.or_eq_true, decide_eq_true_eq, hle]
    have hswap : (ord b a).isLE = (ord a b).isGE := Std.OrientedCmp.isGE_eq_isLE.symm
    rw [hswap]
    cases ord a b with
    | lt | eq => exact .inl rfl
    | gt => exact .inr rfl

/-- The comparison agrees with the order but for ties. -/
def Decides (cmp : α → α → ℤ) (call : (p q : ℕ) → α → α → ℤ) (l : List α) : Prop :=
  ∀ p q, ∀ a ∈ l, ∀ b ∈ l, (cmp a b < 0 → call p q a b < 0) ∧ (0 < cmp a b → 0 < call p q a b)

/-- A sort that tells the comparison also at which places the two elements are. The list is put in an order even if
ties are decided by the places. -/
structure Sorts (qsort : ((p q : ℕ) → α → α → ℤ) → List α → List α) : Prop where
  perm : ∀ call l, (qsort call l).Perm l
  sorted : ∀ call (cmp : α → α → ℤ) l, Consistent cmp → Decides cmp call l → (qsort call l).Pairwise fun a b => cmp a b ≤ 0

theorem Consistent.le_trans (h : Consistent cmp) {a b c : α} (hab : cmp a b ≤ 0) (hbc : cmp b c ≤ 0) :
    cmp a c ≤ 0 := by
  obtain ⟨ord, htrans, heq⟩ := h
  have hle : ∀ x y, cmp x y ≤ 0 ↔ (ord x y).isLE := fun x y => by
    rw [← heq, Ordering.isLE_iff_ne_gt, compare_gt_iff_gt, not_lt]
  rw [hle] at hab hbc ⊢
  exact Std.TransCmp.isLE_trans hab hbc

theorem Consistent.nonneg_iff (h : Consistent cmp) {a b : α} : 0 ≤ cmp a b ↔ cmp b a ≤ 0 := by
  obtain ⟨ord, htrans, heq⟩ := h
  have hswap : ord b a = (ord a b).swap := Std.OrientedCmp.eq_swap
  have hab := heq a b
  have hba := heq b a
  rw [hswap, ← hab] at hba
  rcases lt_trichotomy (cmp a b) 0 with hlt | h0 | hgt
  · rw [compare_lt_iff_lt.mpr hlt] at hba
    have := compare_gt_iff_gt.mp hba
    omega
  · rw [h0] at hba
    have := compare_eq_iff_eq.mp hba
    omega
  · rw [compare_gt_iff_gt.mpr hgt] at hba
    have := compare_lt_iff_lt.mp hba
    omega

theorem Decides.subset {call : (p q : ℕ) → α → α → ℤ} {l l' : List α} (h : Decides cmp call l)
    (hsub : ∀ a ∈ l', a ∈ l) : Decides cmp call l' := fun p q a ha b hb => h p q a (hsub a ha) b (hsub b hb)

theorem pairwise_merge (h : Consistent cmp) {call : (p q : ℕ) → α → α → ℤ} {l r : List α}
    (hcall : Decides cmp call (l ++ r)) (hl : l.Pairwise fun a b => cmp a b ≤ 0) (hr : r.Pairwise fun a b => cmp a b ≤ 0) :
    (l.merge r fun a b => call 0 1 a b ≤ 0).Pairwise fun a b => cmp a b ≤ 0 := by
  induction l generalizing r with
  | nil => simpa using hr
  | cons a l ihl =>
    induction r with
    | nil => simpa using hl
    | cons b r ihr =>
      obtain ⟨ha, hl'⟩ := pairwise_cons.mp hl
      obtain ⟨hb, hr'⟩ := pairwise_cons.mp hr
      have hab := hcall 0 1 a (by simp) b (by simp)
      rw [cons_merge_cons]
      by_cases hle : call 0 1 a b ≤ 0
      · have hle' : cmp a b ≤ 0 := not_lt.mp fun hlt => absurd (hab.2 hlt) (not_lt.mpr hle)
        rw [if_pos (by simpa using hle)]
        refine pairwise_cons.mpr ⟨fun c hc => ?_, ihl (hcall.subset fun x hx => by simp_all) hl' hr⟩
        obtain hc | hc := (mem_merge).mp hc
        · exact ha c hc
        · obtain rfl | hc := mem_cons.mp hc
          · exact hle'
          · exact h.le_trans hle' (hb c hc)
      · have hba : cmp b a ≤ 0 := h.nonneg_iff.mp (not_lt.mp fun hlt => hle (hab.1 hlt).le)
        rw [if_neg (by simpa using hle)]
        refine pairwise_cons.mpr ⟨fun c hc => ?_, ihr (hcall.subset fun x hx => by simp at hx ⊢; tauto) hr'⟩
        obtain hc | hc := (mem_merge).mp hc
        · obtain rfl | hc := mem_cons.mp hc
          · exact hba
          · exact h.le_trans hba (ha c hc)
        · exact hb c hc

/-- Merging two halves, of which the left one is stored before the right one. -/
theorem mergeSort_sorts : Sorts fun (call : (p q : ℕ) → α → α → ℤ) l => l.mergeSort fun a b => call 0 1 a b ≤ 0 := by
  refine ⟨fun call l => mergeSort_perm l _, fun call cmp l h hcall => ?_⟩
  have hsorted : ∀ n, ∀ l : List α, l.length = n → Decides cmp call l →
      (l.mergeSort fun a b => call 0 1 a b ≤ 0).Pairwise fun a b => cmp a b ≤ 0 := by
    intro n
    induction n using Nat.strong_induction_on with
    | _ n ih =>
      intro l hl hcall
      match l with
      | [] => simp
      | [a] => simp
      | a :: b :: l =>
        let k := ((a :: b :: l).length + 1) / 2
        have hk : k < (a :: b :: l).length := by simp only [k, length_cons]; omega
        have hsplit : ((a :: b :: l).mergeSort fun a b => call 0 1 a b ≤ 0) =
            (((a :: b :: l).take k).mergeSort fun a b => call 0 1 a b ≤ 0).merge
              (((a :: b :: l).drop k).mergeSort fun a b => call 0 1 a b ≤ 0) fun a b => call 0 1 a b ≤ 0 := by
          rw [mergeSort]
          simp only [List.MergeSort.Internal.splitInTwo_fst, List.MergeSort.Internal.splitInTwo_snd, k]
        have hleft := ih _ (by rw [← hl, length_take]; omega) ((a :: b :: l).take k) rfl
          (hcall.subset fun x hx => mem_of_mem_take hx)
        have hright := ih _ (by rw [← hl, length_drop]; simp only [k, length_cons]; omega) ((a :: b :: l).drop k) rfl
          (hcall.subset fun x hx => mem_of_mem_drop hx)
        rw [hsplit]
        refine pairwise_merge h (hcall.subset fun x hx => ?_) hleft hright
        rw [mem_append, mem_mergeSort, mem_mergeSort, ← mem_append, take_append_drop] at hx
        exact hx
  exact hsorted l.length l rfl hcall

end Comparators

/-! The groups of equal elements of a sorted list, by places: each element is compared with the first one of the
current group. -/

namespace Grouping

open Comparators

/-- The groups from the place `first` on, each with its first place and its size; `left` places from `i` on have not been
looked at. -/
def collect (differs : ℕ → ℕ → Prop) [DecidableRel differs] : (left i first : ℕ) → List (ℕ × ℕ)
  | 0, i, first => [(first, i - first)]
  | left + 1, i, first =>
    if differs first i then (first, i - first) :: collect differs left (i + 1) i
    else collect differs left (i + 1) first

/-- A place of a group. -/
def Covers (g : ℕ × ℕ) (i : ℕ) : Prop := g.1 ≤ i ∧ i < g.1 + g.2

/-- The groups are one behind the other, none is empty, and just the places of one group are equal. -/
structure Groups (cmp : ℕ → ℕ → ℤ) (first n : ℕ) (gs : List (ℕ × ℕ)) : Prop where
  consecutive : gs.flatMap (fun g => List.range' g.1 g.2) = List.range' first (n - first)
  nonempty : ∀ g ∈ gs, 0 < g.2
  equal : ∀ g ∈ gs, ∀ i, Covers g i → cmp g.1 i = 0
  apart : gs.Pairwise fun g g' => cmp g.1 g'.1 < 0

variable {cmp : ℕ → ℕ → ℤ} {first n : ℕ} {gs : List (ℕ × ℕ)}

theorem Groups.exists_covers (h : Groups cmp first n gs) {i : ℕ} : (∃ g ∈ gs, Covers g i) ↔ first ≤ i ∧ i < n := by
  have hmem : i ∈ gs.flatMap (fun g => List.range' g.1 g.2) ↔ ∃ g ∈ gs, Covers g i := by
    simp [List.mem_flatMap, List.mem_range'_1, Covers]
  rw [← hmem, h.consecutive, List.mem_range'_1]
  omega

theorem Groups.covers_first (h : Groups cmp first n gs) {g : ℕ × ℕ} (hg : g ∈ gs) : Covers g g.1 :=
  ⟨le_rfl, Nat.lt_add_of_pos_right (h.nonempty g hg)⟩

theorem Groups.sum_sizes (h : Groups cmp first n gs) : (gs.map Prod.snd).sum = n - first := by
  have hlen := congrArg List.length h.consecutive
  rw [List.length_flatMap, List.length_range'] at hlen
  rw [← hlen]
  congr 1
  exact List.map_congr_left fun g _ => List.length_range'.symm

theorem lt_of_lt_of_le (hcmp : Consistent cmp) {a b c : ℕ} (hab : cmp a b < 0) (hbc : cmp b c ≤ 0) : cmp a c < 0 := by
  by_contra hac
  have hca : cmp c a ≤ 0 := hcmp.nonneg_iff.mp (not_lt.mp hac)
  exact absurd hab (not_lt.mpr (hcmp.nonneg_iff.mpr (hcmp.le_trans hbc hca)))

theorem eq_of_eq_left (hcmp : Consistent cmp) {a b c : ℕ} (hab : cmp a b = 0) (hac : cmp a c = 0) : cmp b c = 0 := by
  have hba : cmp b a ≤ 0 := hcmp.nonneg_iff.mp hab.ge
  have hca : cmp c a ≤ 0 := hcmp.nonneg_iff.mp hac.ge
  exact le_antisymm (hcmp.le_trans hba hac.le) (hcmp.nonneg_iff.mpr (hcmp.le_trans hca hab.le))

/-- On a sorted list the loop finds the groups. -/
theorem collect_groups (hcmp : Consistent cmp) (differs : ℕ → ℕ → Prop) [DecidableRel differs]
    (hdiffers : ∀ i j, differs i j ↔ cmp i j ≠ 0) (hsorted : ∀ i j, i < j → j < n → cmp i j ≤ 0) (left i : ℕ)
    (hi : i + left = n) (hfirst : first < i) (hequal : ∀ k, first ≤ k → k < i → cmp first k = 0) :
    Groups cmp first n (collect differs left i first) := by
  induction left generalizing i first with
  | zero =>
    obtain rfl : i = n := hi
    refine ⟨by simp [collect], ?_, ?_, by simp [collect]⟩
    · simp only [collect, List.mem_singleton, forall_eq]
      omega
    · simp only [collect, List.mem_singleton, forall_eq, Covers]
      exact fun k hk => hequal k hk.1 (by omega)
  | succ left ih =>
    rw [collect]
    by_cases hd : differs first i
    · rw [if_pos hd]
      have hrest : Groups cmp i n (collect differs left (i + 1) i) :=
        ih (i + 1) (by omega) (Nat.lt_succ_self i) fun k hk hlt => by
          obtain rfl : k = i := by omega
          exact hcmp.self k
      have hlt : cmp first i < 0 := lt_of_le_of_ne (hsorted first i hfirst (by omega)) ((hdiffers first i).mp hd)
      refine ⟨?_, ?_, ?_, List.pairwise_cons.mpr ⟨fun g hg => ?_, hrest.apart⟩⟩
      · rw [List.flatMap_cons, hrest.consecutive]
        have happend := List.range'_append_1 (s := first) (m := i - first) (n := n - i)
        rw [show first + (i - first) = i by omega] at happend
        rw [happend]
        congr 1
        omega
      · intro g hg
        obtain rfl | hg := List.mem_cons.mp hg
        · exact Nat.sub_pos_of_lt hfirst
        · exact hrest.nonempty g hg
      · intro g hg k hk
        obtain rfl | hg := List.mem_cons.mp hg
        · obtain ⟨h1, h2⟩ := hk
          exact hequal k h1 (by simp only at h2; omega)
        · exact hrest.equal g hg k hk
      · obtain ⟨hge, hltn⟩ := hrest.exists_covers.mp ⟨g, hg, hrest.covers_first hg⟩
        obtain heq | hgt := hge.eq_or_lt
        · rwa [← heq]
        · exact lt_of_lt_of_le hcmp hlt (hsorted i g.1 hgt hltn)
    · rw [if_neg hd]
      refine ih (i + 1) (by omega) (hfirst.trans (Nat.lt_succ_self i)) fun k hk hlt => ?_
      obtain hlt | rfl := Nat.lt_succ_iff_lt_or_eq.mp hlt
      · exact hequal k hk hlt
      · exact not_not.mp ((hdiffers first k).not.mp hd)

/-- Two places are in one group if and only if they are equal. -/
theorem Groups.same_iff (h : Groups cmp first n gs) (hcmp : Consistent cmp) {i j : ℕ} (hi : first ≤ i ∧ i < n)
    (hj : first ≤ j ∧ j < n) : (∃ g ∈ gs, Covers g i ∧ Covers g j) ↔ cmp i j = 0 := by
  refine ⟨?_, fun h0 => ?_⟩
  · rintro ⟨g, hg, hgi, hgj⟩
    exact eq_of_eq_left hcmp (h.equal g hg i hgi) (h.equal g hg j hgj)
  · obtain ⟨g, hg, hgi⟩ := h.exists_covers.mpr hi
    obtain ⟨g', hg', hgj⟩ := h.exists_covers.mpr hj
    have hi0 := h.equal g hg i hgi
    have hj0 := h.equal g' hg' j hgj
    have hgj0 : cmp g.1 j = 0 := by
      have hig : cmp i g.1 = 0 := eq_of_eq_left hcmp hi0 (hcmp.self g.1)
      exact eq_of_eq_left hcmp hig h0
    have hjg : cmp j g'.1 = 0 := eq_of_eq_left hcmp hj0 (hcmp.self g'.1)
    have hgg : cmp g.1 g'.1 = 0 := by
      have hjg1 : cmp j g.1 = 0 := eq_of_eq_left hcmp hgj0 (hcmp.self g.1)
      exact eq_of_eq_left hcmp hjg1 hjg
    have hgg' : cmp g'.1 g.1 = 0 := eq_of_eq_left hcmp hgg (hcmp.self g.1)
    have hsame : g = g' := by
      have hpair : gs.Pairwise fun x y => cmp x.1 y.1 ≠ 0 ∨ cmp y.1 x.1 ≠ 0 := h.apart.imp fun hlt => .inl hlt.ne
      have hsymm : Std.Symm fun x y : ℕ × ℕ => cmp x.1 y.1 ≠ 0 ∨ cmp y.1 x.1 ≠ 0 := ⟨fun _ _ => Or.symm⟩
      by_contra hne
      exact (hpair.forall hg hg' hne).elim (fun h => h hgg) fun h => h hgg'
    exact ⟨g, hg, hgi, hsame ▸ hgj⟩

end Grouping
