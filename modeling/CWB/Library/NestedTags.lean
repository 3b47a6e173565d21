import Mathlib.Data.List.Sort

/-! Start and end tags around the positions of a sequence. The regions that begin at a position are opened
in an order of all regions, and those that end there are closed in the reverse of that order: the tags
nest whenever the regions do. -/

namespace NestedTags

open List

inductive Tag (ρ : Type) where
  | opening (r : ρ)
  | closing (r : ρ)
deriving DecidableEq

variable {ρ : Type}

section Run

variable [DecidableEq ρ]

/-- The regions that are open after the tags, the one opened last in front; `none` if an end tag does not
close that one. -/
def run : List ρ → List (Tag ρ) → Option (List ρ)
  | stack, [] => some stack
  | stack, .opening r :: tags => run (r :: stack) tags
  | [], .closing _ :: _ => none
  | r' :: stack, .closing r :: tags => if r = r' then run stack tags else none

/-- Every end tag closes what was opened last, and nothing stays open. -/
def WellNested (tags : List (Tag ρ)) : Prop := run [] tags = some []

theorem run_append (stack : List ρ) (tags tags' : List (Tag ρ)) :
    run stack (tags ++ tags') = (run stack tags).bind fun stack => run stack tags' := by
  induction tags generalizing stack with
  | nil => rfl
  | cons tag tags ih =>
    cases tag with
    | opening r => exact ih (r :: stack)
    | closing r =>
      cases stack with
      | nil => rfl
      | cons r' stack =>
        rw [cons_append, run, run]
        split_ifs
        · exact ih stack
        · rfl

theorem run_openings (stack rs : List ρ) : run stack (rs.map .opening) = some (rs.reverse ++ stack) := by
  induction rs generalizing stack with
  | nil => rfl
  | cons r rs ih =>
    rw [map_cons, run, ih, reverse_cons, append_assoc]
    rfl

theorem run_closings (stack rs : List ρ) : run (rs ++ stack) (rs.map .closing) = some stack := by
  induction rs with
  | nil => rfl
  | cons r rs ih =>
    rw [cons_append, map_cons, run, if_pos rfl]
    exact ih

end Run

variable (lo hi : ρ → ℤ) (rank : ρ → ℕ)

/-- The order of the start tags: from left to right, large regions before small ones, then by rank. -/
def Before (r r' : ρ) : Prop := lo r < lo r' ∨ lo r = lo r' ∧ (hi r' < hi r ∨ hi r = hi r' ∧ rank r < rank r')

def NestedOrDisjoint (r r' : ρ) : Prop :=
  hi r < lo r' ∨ hi r' < lo r ∨ (lo r ≤ lo r' ∧ hi r' ≤ hi r) ∨ (lo r' ≤ lo r ∧ hi r ≤ hi r')

/-- Regions in the order of their start tags. -/
structure Regions (S : List ρ) : Prop where
  ordered : S.Pairwise (Before lo hi rank)
  nonempty : ∀ r ∈ S, lo r ≤ hi r
  nested : ∀ r ∈ S, ∀ r' ∈ S, NestedOrDisjoint lo hi r r'

/-- The tags around position `w`. -/
def tagsAt (S : List ρ) (w : ℤ) : List (Tag ρ) :=
  (S.filter fun r => lo r = w).map .opening ++ (S.filter fun r => hi r = w).reverse.map .closing

/-- The tags around the positions up to `n`. -/
def tags (S : List ρ) (n : ℕ) : List (Tag ρ) := (range n).flatMap fun k : ℕ => tagsAt lo hi S (k : ℤ)

/-- The regions that are open in front of `w`. -/
def openAt (S : List ρ) (w : ℤ) : List ρ := S.filter fun r => lo r < w ∧ w ≤ hi r

variable {lo hi rank} {S : List ρ}

theorem Before.irrefl {r : ρ} : ¬Before lo hi rank r r := by
  unfold Before
  omega

theorem Before.asymm {r r' : ρ} (h : Before lo hi rank r r') : ¬Before lo hi rank r' r := by
  unfold Before at *
  omega

theorem nodup_of_ordered (h : S.Pairwise (Before lo hi rank)) : S.Nodup := by
  refine List.Pairwise.imp ?_ h
  rintro a b hlt rfl
  exact absurd hlt Before.irrefl

/-- Two parts of a list of which the first stands in front. -/
theorem filter_append_filter {P Q : ρ → Bool} (hQP : S.Pairwise fun a b => ¬(Q a = true ∧ P b = true))
    (hdisjoint : ∀ a ∈ S, ¬(P a = true ∧ Q a = true)) : S.filter P ++ S.filter Q = S.filter fun a => P a || Q a := by
  induction S with
  | nil => rfl
  | cons a S ih =>
    obtain ⟨ha, hS⟩ := pairwise_cons.mp hQP
    have hrest := ih hS fun b hb => hdisjoint b (mem_cons_of_mem a hb)
    by_cases hP : P a = true
    · have hQ : ¬Q a = true := fun hQ => hdisjoint a mem_cons_self ⟨hP, hQ⟩
      rw [filter_cons_of_pos hP, filter_cons_of_neg hQ, filter_cons_of_pos (by simp [hP]), cons_append, hrest]
    · by_cases hQ : Q a = true
      · have hnone : S.filter P = [] := filter_eq_nil_iff.mpr fun b hb hPb => ha b hb ⟨hQ, hPb⟩
        rw [hnone, nil_append] at hrest
        rw [filter_cons_of_neg hP, filter_cons_of_pos hQ, filter_cons_of_pos (by simp [hQ]), hnone, hrest]
        rfl
      · rw [filter_cons_of_neg hP, filter_cons_of_neg hQ, filter_cons_of_neg (by simp [hP, hQ]), hrest]

/-- The start tags at `w` follow those of the regions that are open there. -/
theorem Regions.openAt_append (h : Regions lo hi rank S) (w : ℤ) :
    openAt lo hi S w ++ S.filter (fun r => lo r = w) = S.filter fun r => lo r ≤ w ∧ w ≤ hi r := by
  rw [openAt, filter_append_filter]
  · refine filter_congr fun r hr => ?_
    have := h.nonempty r hr
    rw [Bool.eq_iff_iff]
    simp only [Bool.or_eq_true, decide_eq_true_eq]
    omega
  · refine h.ordered.imp fun hlt => ?_
    simp only [decide_eq_true_eq]
    unfold Before at hlt
    omega
  · intro r _
    simp only [decide_eq_true_eq]
    omega

/-- Of the regions around `w`, those that end there were opened last. -/
theorem Regions.append_closing (h : Regions lo hi rank S) (w : ℤ) :
    openAt lo hi S (w + 1) ++ S.filter (fun r => hi r = w) = S.filter fun r => lo r ≤ w ∧ w ≤ hi r := by
  rw [openAt, filter_append_filter]
  · refine filter_congr fun r hr => ?_
    have := h.nonempty r hr
    rw [Bool.eq_iff_iff]
    simp only [Bool.or_eq_true, decide_eq_true_eq]
    omega
  · have hnested := pairwise_of_forall_mem_list fun r hr r' hr' => h.nested r hr r' hr'
    refine (pairwise_and_iff.mpr ⟨h.ordered, hnested⟩).imp
      fun {r r'} hboth => ?_
    obtain ⟨hlt, hnested⟩ := hboth
    simp only [decide_eq_true_eq]
    unfold Before at hlt
    unfold NestedOrDisjoint at hnested
    omega
  · intro r _
    simp only [decide_eq_true_eq]
    omega

theorem opening_mem_tagsAt {r : ρ} {w : ℤ} : .opening r ∈ tagsAt lo hi S w ↔ r ∈ S ∧ lo r = w := by
  simp [tagsAt]

theorem closing_mem_tagsAt {r : ρ} {w : ℤ} : .closing r ∈ tagsAt lo hi S w ↔ r ∈ S ∧ hi r = w := by
  simp [tagsAt]

theorem Regions.nodup_tags (h : Regions lo hi rank S) (n : ℕ) : (tags lo hi S n).Nodup := by
  refine nodup_flatMap.mpr ⟨fun k _ => ?_, nodup_range.imp fun hne tag hk hk' => ?_⟩
  · refine List.Nodup.append (((nodup_of_ordered h.ordered).filter _).map fun _ _ heq => by cases heq; rfl)
      ((nodup_reverse.mpr ((nodup_of_ordered h.ordered).filter _)).map fun _ _ heq => by cases heq; rfl) ?_
    intro tag hopening hclosing
    obtain ⟨_, _, rfl⟩ := mem_map.mp hopening
    obtain ⟨_, _, heq⟩ := mem_map.mp hclosing
    cases heq
  · cases tag with
    | opening r => exact hne (by exact_mod_cast (opening_mem_tagsAt.mp hk).2.symm.trans (opening_mem_tagsAt.mp hk').2)
    | closing r => exact hne (by exact_mod_cast (closing_mem_tagsAt.mp hk).2.symm.trans (closing_mem_tagsAt.mp hk').2)

section Nested

variable [DecidableEq ρ]

/-- The tags around one position. -/
theorem Regions.run_tagsAt (h : Regions lo hi rank S) (w : ℤ) :
    run (openAt lo hi S w).reverse (tagsAt lo hi S w) = some (openAt lo hi S (w + 1)).reverse := by
  rw [tagsAt, run_append, run_openings, Option.bind_some, ← reverse_append, h.openAt_append, ← h.append_closing,
    reverse_append, run_closings]

theorem Regions.run_tags (h : Regions lo hi rank S) (n : ℕ) :
    run (openAt lo hi S 0).reverse (tags lo hi S n) = some (openAt lo hi S n).reverse := by
  induction n with
  | zero => rfl
  | succ n ih =>
    rw [tags, range_succ, flatMap_append, flatMap_singleton, run_append]
    rw [tags] at ih
    rw [ih, Option.bind_some, h.run_tagsAt]
    rfl

/-- The tags of regions within the positions up to `n`. -/
theorem Regions.wellNested (h : Regions lo hi rank S) {n : ℕ} (h0 : ∀ r ∈ S, 0 ≤ lo r) (hn : ∀ r ∈ S, hi r < n) :
    WellNested (tags lo hi S n) := by
  have hnone : ∀ w : ℤ, (w = 0 ∨ w = n) → openAt lo hi S w = [] := by
    intro w hw
    refine filter_eq_nil_iff.mpr fun r hr => ?_
    have := h0 r hr
    have := hn r hr
    simp only [decide_eq_true_eq]
    omega
  have hrun := h.run_tags n
  rw [hnone 0 (.inl rfl), hnone n (.inr rfl)] at hrun
  exact hrun

/-- Every region is opened and closed once. -/
theorem Regions.count_tags (h : Regions lo hi rank S) {n : ℕ} (h0 : ∀ r ∈ S, 0 ≤ lo r)
    (hn : ∀ r ∈ S, hi r < n) {r : ρ}
    (hr : r ∈ S) : (tags lo hi S n).count (.opening r) = 1 ∧ (tags lo hi S n).count (.closing r) = 1 := by
  have hlo := h0 r hr
  have hhi := hn r hr
  have hne := h.nonempty r hr
  refine ⟨count_eq_one_of_mem (h.nodup_tags n) ?_, count_eq_one_of_mem (h.nodup_tags n) ?_⟩
  · exact mem_flatMap.mpr ⟨(lo r).toNat, mem_range.mpr (by omega), opening_mem_tagsAt.mpr ⟨hr, by omega⟩⟩
  · exact mem_flatMap.mpr ⟨(hi r).toNat, mem_range.mpr (by omega), closing_mem_tagsAt.mpr ⟨hr, by omega⟩⟩

end Nested

/-- A list in the order of the start tags is determined by its elements. -/
theorem eq_filter (hS : S.Pairwise (Before lo hi rank)) {l : List ρ} (hl : l.Pairwise (Before lo hi rank)) {P : ρ → Bool}
    (hmem : ∀ r, r ∈ l ↔ r ∈ S ∧ P r = true) : l = S.filter P := by
  have hfilter := hS.filter P
  refine List.Perm.eq_of_pairwise (fun a b _ _ hab hba => absurd hba hab.asymm) hl hfilter ?_
  refine (perm_ext_iff_of_nodup (nodup_of_ordered hl) (nodup_of_ordered hfilter)).mpr fun r => ?_
  rw [hmem, mem_filter]

/-- Regions without duplicates can be put in the order of their start tags. -/
theorem exists_ordered {l : List ρ} (hnodup : l.Nodup)
    (hinj : ∀ a ∈ l, ∀ b ∈ l, lo a = lo b → hi a = hi b → rank a = rank b → a = b) :
    ∃ S : List ρ, S.Perm l ∧ S.Pairwise (Before lo hi rank) := by
  classical
  let le : ρ → ρ → Prop := fun a b => Before lo hi rank a b ∨ lo a = lo b ∧ hi a = hi b ∧ rank a = rank b
  have htotal : Std.Total le := ⟨fun a b => by
    simp only [le, Before]
    omega⟩
  have htrans : IsTrans ρ le := ⟨fun a b c => by
    simp only [le, Before]
    omega⟩
  have hperm := perm_insertionSort le l
  refine ⟨l.insertionSort le, hperm, ?_⟩
  have hsorted := pairwise_insertionSort le l
  refine (pairwise_and_iff.mpr ⟨hsorted, hperm.nodup_iff.mpr hnodup⟩).imp_of_mem fun {a b} ha hb hab => ?_
  obtain ⟨hle | hsame, hne⟩ := hab
  · exact hle
  · exact absurd (hinj a (hperm.mem_iff.mp ha) b (hperm.mem_iff.mp hb) hsame.1 hsame.2.1 hsame.2.2) hne

end NestedTags
