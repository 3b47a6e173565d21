import Mathlib.Data.List.Lattice
import Mathlib.Data.List.Sort
import Mathlib.Data.List.TakeWhile

/-! The common elements of two sorted lists, with multiplicities, found in one pass; and what the pass finds if
one element is mistaken for the one in front of it. -/

namespace BagMerge

open Nat List

variable {α : Type*} [LinearOrder α] {a b u z x : α} {as bs : List α} {k c : ℕ}

def inter : List α → List α → List α
  | a :: as, b :: bs => if a = b then a :: inter as bs else if a < b then inter as (b :: bs) else inter (a :: as) bs
  | [], _ => []
  | _, [] => []
termination_by as bs => as.length + bs.length

theorem inter_nil_left (bs : List α) : inter [] bs = [] := by
  rw [inter]

theorem inter_nil_right (as : List α) : inter as [] = [] := by
  cases as with
  | nil => rw [inter]
  | cons a as =>
    rw [inter]
    exact cons_ne_nil a as

theorem inter_cons : inter (a :: as) (b :: bs) =
    if a = b then a :: inter as bs else if a < b then inter as (b :: bs) else inter (a :: as) bs := by
  rw [inter]

theorem inter_cons_self (a : α) (as bs : List α) : inter (a :: as) (a :: bs) = a :: inter as bs := by
  rw [inter_cons, if_pos rfl]

theorem inter_of_lt (h : a < b) (as bs : List α) : inter (a :: as) (b :: bs) = inter as (b :: bs) := by
  rw [inter_cons, if_neg h.ne, if_pos h]

theorem inter_of_gt (h : b < a) (as bs : List α) : inter (a :: as) (b :: bs) = inter (a :: as) bs := by
  rw [inter_cons, if_neg h.ne', if_neg h.le.not_gt]

/-- Element by element: the heads are equal, or the smaller one is skipped. -/
theorem inter_induction {motive : List α → List α → Prop} (nil_left : ∀ bs, motive [] bs) (nil_right : ∀ as, motive as [])
    (self : ∀ a as bs, motive as bs → motive (a :: as) (a :: bs))
    (lt : ∀ a as b bs, a < b → motive as (b :: bs) → motive (a :: as) (b :: bs))
    (gt : ∀ a as b bs, b < a → motive (a :: as) bs → motive (a :: as) (b :: bs)) (as bs : List α) : motive as bs := by
  induction as generalizing bs with
  | nil => exact nil_left bs
  | cons a as ih =>
    induction bs with
    | nil => exact nil_right _
    | cons b bs ih' =>
      obtain hlt | rfl | hgt := lt_trichotomy a b
      · exact lt a as b bs hlt (ih (b :: bs))
      · exact self a as bs (ih bs)
      · exact gt a as b bs hgt ih'

theorem inter_sublist (as bs : List α) : (inter as bs).Sublist as ∧ (inter as bs).Sublist bs := by
  induction as, bs using inter_induction with
  | nil_left bs =>
    rw [inter_nil_left]
    exact ⟨nil_sublist _, nil_sublist _⟩
  | nil_right as =>
    rw [inter_nil_right]
    exact ⟨nil_sublist _, nil_sublist _⟩
  | self a as bs ih =>
    rw [inter_cons_self]
    exact ⟨ih.1.cons_cons a, ih.2.cons_cons a⟩
  | lt a as b bs h ih =>
    rw [inter_of_lt h]
    exact ⟨ih.1.cons a, ih.2⟩
  | gt a as b bs h ih =>
    rw [inter_of_gt h]
    exact ⟨ih.1, ih.2.cons b⟩

theorem count_eq_zero_of_lt (h : (b :: bs).Pairwise (· ≤ ·)) (hlt : a < b) : (b :: bs).count a = 0 := by
  rw [count_eq_zero]
  intro hmem
  obtain rfl | hmem := mem_cons.mp hmem
  · exact lt_irrefl _ hlt
  · exact (rel_of_pairwise_cons h hmem).not_gt hlt

/-- Each element is found as often as both lists have it. -/
theorem count_inter (has : as.Pairwise (· ≤ ·)) (hbs : bs.Pairwise (· ≤ ·)) (x : α) :
    (inter as bs).count x = min (as.count x) (bs.count x) := by
  induction as, bs using inter_induction with
  | nil_left bs => rw [inter_nil_left, count_nil, Nat.zero_min]
  | nil_right as => rw [inter_nil_right, count_nil, Nat.min_zero]
  | self a as bs ih =>
    rw [inter_cons_self, count_cons, count_cons, count_cons, ih has.tail hbs.tail, Nat.add_min_add_right]
  | lt a as b bs h ih =>
    rw [inter_of_lt h, ih has.tail hbs]
    by_cases hx : a = x
    · rw [← hx, count_eq_zero_of_lt hbs h, Nat.min_zero, Nat.min_zero]
    · rw [count_cons_of_ne hx]
  | gt a as b bs h ih =>
    rw [inter_of_gt h, ih has hbs.tail]
    by_cases hx : b = x
    · rw [← hx, count_eq_zero_of_lt has h, Nat.zero_min, Nat.zero_min]
    · rw [count_cons_of_ne hx]

/-- Sorted lists are equal if they have the same elements. -/
theorem eq_iff_count (has : as.Pairwise (· ≤ ·)) (hbs : bs.Pairwise (· ≤ ·)) : as = bs ↔ ∀ x, as.count x = bs.count x := by
  refine ⟨fun h x => by rw [h], fun h => ?_⟩
  exact (perm_iff_count.mpr h).eq_of_pairwise (fun a b _ _ => le_antisymm) has hbs

theorem inter_eq_bagInter (has : as.Pairwise (· ≤ ·)) (hbs : bs.Pairwise (· ≤ ·)) : inter as bs = as.bagInter bs := by
  rw [eq_iff_count (has.sublist (inter_sublist as bs).1) (has.sublist bagInter_sublist_left)]
  intro x
  rw [count_inter has hbs, count_bagInter]

theorem bagInter_comm (has : as.Pairwise (· ≤ ·)) (hbs : bs.Pairwise (· ≤ ·)) : as.bagInter bs = bs.bagInter as := by
  rw [eq_iff_count (has.sublist bagInter_sublist_left) (hbs.sublist bagInter_sublist_left)]
  intro x
  rw [count_bagInter, count_bagInter, Nat.min_comm]

theorem bagInter_self (has : as.Pairwise (· ≤ ·)) : as.bagInter as = as := by
  rw [eq_iff_count (has.sublist bagInter_sublist_left) has]
  intro x
  rw [count_bagInter, Nat.min_self]

theorem inter_comm (as bs : List α) : inter as bs = inter bs as := by
  induction as, bs using inter_induction with
  | nil_left bs => rw [inter_nil_left, inter_nil_right]
  | nil_right as => rw [inter_nil_left, inter_nil_right]
  | self a as bs ih => rw [inter_cons_self, inter_cons_self, ih]
  | lt a as b bs h ih => rw [inter_of_lt h, inter_of_gt h, ih]
  | gt a as b bs h ih => rw [inter_of_gt h, inter_of_lt h, ih]

/-! ## Repeated elements -/

/-- The smaller elements of the other list are skipped. -/
theorem inter_skip (h : ∀ b ∈ bs, b < a) (as cs : List α) : inter (a :: as) (bs ++ cs) = inter (a :: as) cs := by
  induction bs with
  | nil => rfl
  | cons b bs ih =>
    obtain ⟨hb, hbs⟩ := forall_mem_cons.mp h
    rw [cons_append, inter_of_gt hb, ih hbs]

theorem inter_replicate_skip (h : ∀ b ∈ bs, u < b) (k : ℕ) (as : List α) :
    inter (replicate k u ++ as) bs = inter as bs := by
  induction k with
  | zero => rfl
  | succ k ih =>
    rw [replicate_succ, cons_append, ← ih]
    cases bs with
    | nil => rw [inter_nil_right, inter_nil_right]
    | cons b bs => exact inter_of_lt (h b mem_cons_self) _ _

theorem inter_replicate_replicate (u : α) (k c : ℕ) (as bs : List α) :
    inter (replicate k u ++ as) (replicate c u ++ bs) =
      replicate (min k c) u ++ inter (replicate (k - c) u ++ as) (replicate (c - k) u ++ bs) := by
  induction k generalizing c with
  | zero => rw [Nat.zero_min, Nat.zero_sub, Nat.sub_zero, replicate_zero, nil_append, nil_append]
  | succ k ih =>
    cases c with
    | zero => rw [Nat.min_zero, Nat.zero_sub, Nat.sub_zero, replicate_zero, nil_append, nil_append]
    | succ c =>
      rw [replicate_succ, replicate_succ, cons_append, cons_append, inter_cons_self, ih,
        succ_min_succ, succ_sub_succ, succ_sub_succ, replicate_succ, cons_append]

/-- The parts of a sorted list in front of and behind an element. -/
def below (z : α) (as : List α) : List α := as.filter (· < z)

def above (z : α) (as : List α) : List α := as.filter (z < ·)

theorem mem_below : x ∈ below z as ↔ x ∈ as ∧ x < z := by
  rw [below, mem_filter, decide_eq_true_iff]

theorem mem_above : x ∈ above z as ↔ x ∈ as ∧ z < x := by
  rw [above, mem_filter, decide_eq_true_iff]

theorem count_below (x z : α) (as : List α) : (below z as).count x = if x < z then as.count x else 0 := by
  split_ifs with hlt
  · exact count_filter (by simpa using hlt)
  · exact count_eq_zero_of_not_mem fun h => hlt (mem_below.mp h).2

theorem count_above (x z : α) (as : List α) : (above z as).count x = if z < x then as.count x else 0 := by
  split_ifs with hlt
  · exact count_filter (by simpa using hlt)
  · exact count_eq_zero_of_not_mem fun h => hlt (mem_above.mp h).2

theorem count_replicate_ite (x u : α) (k : ℕ) : (replicate k u).count x = if x = u then k else 0 := by
  rw [count_replicate]
  exact if_congr (by rw [beq_iff_eq, eq_comm]) rfl rfl

theorem split_sorted (z : α) (has : as.Pairwise (· ≤ ·)) :
    as = below z as ++ (replicate (as.count z) z ++ above z as) := by
  have hbelow := has.sublist (filter_sublist (p := fun a => decide (a < z)))
  have habove := has.sublist (filter_sublist (p := fun a => decide (z < a)))
  have hrest : (replicate (as.count z) z ++ above z as).Pairwise (· ≤ ·) := by
    refine pairwise_append.mpr ⟨pairwise_replicate.mpr (.inr le_rfl), habove, fun a ha b hb => ?_⟩
    rw [eq_of_mem_replicate ha]
    exact (mem_above.mp hb).2.le
  rw [eq_iff_count has]
  · intro x
    rw [count_append, count_append, count_replicate_ite, count_below, count_above]
    obtain hlt | rfl | hgt := lt_trichotomy x z
    · rw [if_pos hlt, if_neg hlt.ne, if_neg hlt.not_gt]
      rfl
    · rw [if_neg (lt_irrefl _), if_pos rfl, Nat.zero_add, Nat.add_zero]
    · rw [if_neg hgt.not_gt, if_neg hgt.ne', if_pos hgt, Nat.zero_add, Nat.zero_add]
  · refine pairwise_append.mpr ⟨hbelow, hrest, fun a ha b hb => ?_⟩
    have hle : z ≤ b := by
      obtain hb | hb := mem_append.mp hb
      · exact (eq_of_mem_replicate hb).ge
      · exact (mem_above.mp hb).2.le
    exact (mem_below.mp ha).2.le.trans hle

/-- What is found for an element that is repeated in front of any list. -/
theorem inter_replicate (hk : k ≠ 0) (hbs : bs.Pairwise (· ≤ ·)) (u : α) (as : List α) :
    inter (replicate k u ++ as) bs =
      replicate (min k (bs.count u)) u ++ inter as (replicate (bs.count u - k) u ++ above u bs) := by
  obtain ⟨j, rfl⟩ := exists_eq_add_one_of_ne_zero hk
  have hskip : inter (replicate (j + 1) u ++ as) bs =
      inter (replicate (j + 1) u ++ as) (replicate (bs.count u) u ++ above u bs) := by
    conv_lhs => rw [split_sorted u hbs]
    rw [replicate_succ, cons_append]
    exact inter_skip (fun b hb => (mem_below.mp hb).2) _ _
  rw [hskip, inter_replicate_replicate]
  obtain hle | hlt := le_or_gt (j + 1) (bs.count u)
  · rw [Nat.sub_eq_zero_of_le hle, replicate_zero, nil_append]
  · rw [Nat.sub_eq_zero_of_le hlt.le, replicate_zero, nil_append,
      inter_replicate_skip fun b hb => (mem_above.mp hb).2]

/-! ## An element taken for the one in front of it -/

/-- Every `z` replaced by the element in front of it, or by `u` at the start. -/
def carry (z : α) : α → List α → List α
  | _, [] => []
  | u, a :: as => if a = z then u :: carry z u as else a :: carry z a as

theorem carry_cons_self (z u : α) (as : List α) : carry z u (z :: as) = u :: carry z u as := if_pos rfl

theorem carry_cons_of_ne (h : a ≠ z) (u : α) (as : List α) : carry z u (a :: as) = a :: carry z a as := if_neg h

theorem carry_append (h : z ∉ bs) (u : α) (as : List α) : carry z u (bs ++ as) = bs ++ carry z (bs.getLast?.getD u) as := by
  induction bs generalizing u with
  | nil => rfl
  | cons b bs ih =>
    obtain ⟨hb, hbs⟩ := not_or.mp (mt mem_cons.mpr h)
    rw [cons_append, carry_cons_of_ne (Ne.symm hb), ih hbs, cons_append]
    cases bs with
    | nil => rfl
    | cons c cs => rw [getLast?_cons_cons, getLast?_cons, Option.getD_some, Option.getD_some]

theorem carry_of_notMem (h : z ∉ as) (u : α) : carry z u as = as := by
  have hcarry := carry_append h u []
  rwa [append_nil, carry, append_nil] at hcarry

theorem carry_replicate (z u : α) (k : ℕ) (as : List α) :
    carry z u (replicate k z ++ as) = replicate k u ++ carry z u as := by
  induction k with
  | zero => rfl
  | succ k ih => rw [replicate_succ, cons_append, carry_cons_self, ih, replicate_succ, cons_append]

/-- What the `z` of a sorted list are taken for: the element in front of them. -/
def standIn (z u : α) (as : List α) : α := (below z as).getLast?.getD u

theorem carry_sorted (z u : α) (has : as.Pairwise (· ≤ ·)) :
    carry z u as = below z as ++ (replicate (as.count z) (standIn z u as) ++ above z as) := by
  conv_lhs => rw [split_sorted z has]
  rw [carry_append fun h => lt_irrefl _ (mem_below.mp h).2, carry_replicate,
    carry_of_notMem fun h => lt_irrefl _ (mem_above.mp h).2]
  rfl

theorem carry_eq_self (has : as.Pairwise (· ≤ ·)) (h : standIn z u as = z) : carry z u as = as := by
  rw [carry_sorted z u has, h, ← split_sorted z has]

/-- Either the smaller elements end in it, or there are none. -/
theorem standIn_cases (z u : α) (has : as.Pairwise (· ≤ ·)) :
    (standIn z u as < z ∧ ∀ a ∈ below z as, a ≤ standIn z u as) ∨ (below z as = [] ∧ standIn z u as = u) := by
  cases hbelow : below z as with
  | nil => exact .inr ⟨rfl, by rw [standIn, hbelow]; rfl⟩
  | cons b bs =>
    have hne : below z as ≠ [] := by rw [hbelow]; exact cons_ne_nil b bs
    have hlast : standIn z u as = (below z as).getLast hne := by
      rw [standIn, getLast?_eq_getLast_of_ne_nil hne, Option.getD_some]
    refine .inl ⟨?_, fun a ha => ?_⟩
    · rw [hlast]
      exact (mem_below.mp (getLast_mem hne)).2
    · have hsplit := dropLast_append_getLast hne
      have hsorted : (below z as).Pairwise (· ≤ ·) := has.sublist filter_sublist
      rw [← hbelow, ← hsplit] at ha
      rw [← hsplit] at hsorted
      rw [hlast]
      obtain ha | ha := mem_append.mp ha
      · exact (pairwise_append.mp hsorted).2.2 a ha _ (mem_singleton_self _)
      · exact (mem_singleton.mp ha).le

/-- The elements with `z` taken for another one do no harm to the common elements. -/
def Harmless (z e : α) (as bs : List α) : Prop := (∀ x ∈ as, x ∈ bs → z < x → e ≤ x) ∧ bs.count e ≤ as.count e

instance (z e : α) (as bs : List α) : Decidable (Harmless z e as bs) :=
  inferInstanceAs (Decidable ((∀ x ∈ as, x ∈ bs → z < x → e ≤ x) ∧ bs.count e ≤ as.count e))

theorem count_carry (z u x : α) (has : as.Pairwise (· ≤ ·)) :
    (carry z u as).count x + (if x = z then as.count z else 0) =
      as.count x + (if x = standIn z u as then as.count z else 0) := by
  have hsplit := congrArg (List.count x) (split_sorted z has)
  rw [count_append, count_append, count_replicate_ite] at hsplit
  rw [carry_sorted z u has, count_append, count_append, count_replicate_ite]
  omega

/-- What is found in the other list if `z` is not in it. -/
theorem inter_carry_iff (has : as.Pairwise (· ≤ ·)) (hbs : bs.Pairwise (· ≤ ·)) (hz : z ∈ as) (hz' : z ∉ bs) :
    inter (carry z u as) bs = as.bagInter bs ↔ Harmless z (standIn z u as) as bs := by
  have hk := count_pos_iff.mpr hz
  have hz0 := count_eq_zero_of_not_mem hz'
  have hright : (as.bagInter bs).Pairwise (· ≤ ·) := has.sublist bagInter_sublist_left
  obtain hle | hlt := le_or_gt (standIn z u as) z
  · -- the list stays sorted
    have hsorted : (carry z u as).Pairwise (· ≤ ·) := by
      rw [carry_sorted z u has]
      refine pairwise_append.mpr ⟨has.sublist filter_sublist, pairwise_append.mpr
        ⟨pairwise_replicate.mpr (.inr le_rfl), has.sublist filter_sublist, ?_⟩, ?_⟩
      · intro a ha b hb
        rw [eq_of_mem_replicate ha]
        exact hle.trans (mem_above.mp hb).2.le
      · intro a ha b hb
        obtain hb | hb := mem_append.mp hb
        · rw [eq_of_mem_replicate hb]
          obtain ⟨-, hlast⟩ | ⟨hnil, -⟩ := standIn_cases z u has
          · exact hlast a ha
          · rw [hnil] at ha
            exact absurd ha not_mem_nil
        · exact ((mem_below.mp ha).2.trans (mem_above.mp hb).2).le
    rw [inter_eq_bagInter hsorted hbs, eq_iff_count (hsorted.sublist bagInter_sublist_left) hright]
    simp only [count_bagInter]
    constructor
    · intro h
      refine ⟨fun x _ _ hx => hle.trans hx.le, ?_⟩
      have hcarry := count_carry z u (standIn z u as) has
      have heq := h (standIn z u as)
      rw [if_pos rfl] at hcarry
      by_cases hez : standIn z u as = z
      · rw [hez, hz0]
        exact Nat.zero_le _
      · rw [if_neg hez] at hcarry
        omega
    · rintro ⟨-, hcount⟩ x
      have hcarry := count_carry z u x has
      by_cases hx : x = z
      · rw [hx, hz0, Nat.min_zero, Nat.min_zero]
      · rw [if_neg hx] at hcarry
        by_cases hxe : x = standIn z u as
        · rw [← hxe] at hcount
          rw [if_pos hxe] at hcarry
          omega
        · rw [if_neg hxe] at hcarry
          rw [Nat.add_right_cancel hcarry]
  · -- nothing is smaller than `z`, so that the list begins with the repeated element
    obtain ⟨hlt', -⟩ | ⟨hnil, hu⟩ := standIn_cases z u has
    · exact absurd hlt' hlt.not_gt
    rw [hu] at hlt ⊢
    rw [carry_sorted z u has, hnil, nil_append, hu, inter_replicate hk.ne' hbs]
    have hrest : (replicate (bs.count u - as.count z) u ++ above u bs).Pairwise (· ≤ ·) := by
      refine pairwise_append.mpr ⟨pairwise_replicate.mpr (.inr le_rfl), hbs.sublist filter_sublist, ?_⟩
      intro a ha b hb
      rw [eq_of_mem_replicate ha]
      exact (mem_above.mp hb).2.le
    have habove : (above z as).Pairwise (· ≤ ·) := has.sublist filter_sublist
    have hge : ∀ b ∈ inter (above z as) (replicate (bs.count u - as.count z) u ++ above u bs), u ≤ b := by
      intro b hb
      obtain hb | hb := mem_append.mp ((inter_sublist _ _).2.subset hb)
      · exact (eq_of_mem_replicate hb).ge
      · exact (mem_above.mp hb).2.le
    have hleft : (replicate (min (as.count z) (bs.count u)) u ++
        inter (above z as) (replicate (bs.count u - as.count z) u ++ above u bs)).Pairwise (· ≤ ·) := by
      refine pairwise_append.mpr ⟨pairwise_replicate.mpr (.inr le_rfl), habove.sublist (inter_sublist _ _).1, ?_⟩
      intro a ha b hb
      rw [eq_of_mem_replicate ha]
      exact hge b hb
    rw [eq_iff_count hleft hright]
    simp only [count_bagInter, count_append, count_inter habove hrest, count_replicate_ite, count_above]
    constructor
    · intro h
      refine ⟨fun x hx hx' _ => ?_, ?_⟩
      · by_contra hxu
        have heq := h x
        rw [if_neg (not_le.mp hxu).ne, if_neg (not_le.mp hxu).ne, if_neg (not_le.mp hxu).not_gt] at heq
        have hpos := count_pos_iff.mpr hx
        have hpos' := count_pos_iff.mpr hx'
        omega
      · have heq := h u
        rw [if_pos rfl, if_pos rfl, if_neg (lt_irrefl _), if_pos hlt] at heq
        omega
    · rintro ⟨hcommon, hcount⟩ x
      obtain hxu | rfl | hxu := lt_trichotomy x u
      · rw [if_neg hxu.ne, if_neg hxu.ne, if_neg hxu.not_gt]
        have hnone : min (as.count x) (bs.count x) = 0 := by
          by_contra hne
          have hx : x ∈ as := count_pos_iff.mp (by omega)
          have hx' : x ∈ bs := count_pos_iff.mp (by omega)
          have hzx : z < x := by
            refine lt_of_le_of_ne (not_lt.mp fun hxz => ?_) fun heq => hz' (heq ▸ hx')
            have hmem := mem_below.mpr ⟨hx, hxz⟩
            rw [hnil] at hmem
            exact not_mem_nil hmem
          exact absurd (hcommon x hx hx' hzx) (not_le.mpr hxu)
        omega
      · rw [if_pos rfl, if_pos rfl, if_neg (lt_irrefl _), if_pos hlt]
        omega
      · rw [if_neg hxu.ne', if_neg hxu.ne', if_pos hxu, if_pos (hlt.trans hxu), Nat.zero_add, Nat.zero_add]

theorem standIn_of_mem_carry (has : as.Pairwise (· ≤ ·)) (h : z ∈ carry z u as) : standIn z u as = z := by
  rw [carry_sorted z u has] at h
  obtain h | h := mem_append.mp h
  · exact absurd (mem_below.mp h).2 (lt_irrefl _)
  · obtain h | h := mem_append.mp h
    · exact (eq_of_mem_replicate h).symm
    · exact absurd (mem_above.mp h).2 (lt_irrefl _)

/-- The common elements are found exactly if no `z` matters: where both lists have it, it has to be taken for itself,
and where one has it, what it is taken for must do no harm. -/
theorem inter_carry_carry_iff {v : α} (has : as.Pairwise (· ≤ ·)) (hbs : bs.Pairwise (· ≤ ·)) :
    inter (carry z u as) (carry z v bs) = as.bagInter bs ↔
      (z ∈ as → z ∈ bs → standIn z u as = z ∧ standIn z v bs = z) ∧
        (z ∈ as → z ∉ bs → Harmless z (standIn z u as) as bs) ∧
        (z ∉ as → z ∈ bs → Harmless z (standIn z v bs) bs as) := by
  by_cases hz : z ∈ as
  · by_cases hz' : z ∈ bs
    · simp only [hz, hz', not_true_eq_false, false_implies, true_implies, and_true]
      refine ⟨fun h => ?_, fun ⟨hu, hv⟩ => ?_⟩
      · have hmem : z ∈ inter (carry z u as) (carry z v bs) := by
          rw [h, mem_bagInter]
          exact ⟨hz, hz'⟩
        exact ⟨standIn_of_mem_carry has ((inter_sublist _ _).1.subset hmem),
          standIn_of_mem_carry hbs ((inter_sublist _ _).2.subset hmem)⟩
      · rw [carry_eq_self has hu, carry_eq_self hbs hv, inter_eq_bagInter has hbs]
    · simp only [hz, hz', not_true_eq_false, not_false_eq_true, false_implies, true_implies, implies_true, true_and, and_true]
      rw [carry_of_notMem hz', inter_carry_iff has hbs hz hz']
  · by_cases hz' : z ∈ bs
    · simp only [hz, hz', not_true_eq_false, not_false_eq_true, false_implies, true_implies, true_and]
      rw [carry_of_notMem hz, inter_comm, bagInter_comm has hbs, inter_carry_iff hbs has hz' hz]
    · simp only [hz, hz', false_implies, implies_true, and_true]
      rw [carry_of_notMem hz, carry_of_notMem hz', inter_eq_bagInter has hbs]
      exact iff_of_true rfl trivial

end BagMerge
