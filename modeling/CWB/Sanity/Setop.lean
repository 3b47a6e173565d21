import CWB.Sanity.Matchlist
import CWB.Spec.InitialMatchlist

/-! The items of a match list, which are what its vectors hold at one index, and what copying an item
and cutting the vectors do to them. -/

namespace CWB

open Option List

/-- The items that are not marked by a start of -1. -/
def unmarked (items : List Match) : List Match := items.filter fun m => m.start ≠ -1

namespace MatchVectors

/-- Item `i`; an initial list has items of one token, and an anchor without a vector is -1. -/
def item (l : MatchVectors) (i : ℕ) : Match where
  start := l.startAt i
  stop := if l.stop.isSome then l.stopAt i else l.startAt i
  target := if l.targetPositions.isSome then valueAt l.targetPositions i else -1
  keyword := if l.keywordPositions.isSome then valueAt l.keywordPositions i else -1

def firstItems (l : MatchVectors) (n : ℕ) : List Match := (range n).map l.item

def items (l : MatchVectors) : List Match := l.firstItems l.tabsize

/-- The lengths of the vectors, nothing for a vector that is not allocated. -/
def lengths (l : MatchVectors) : List (Option ℕ) :=
  [l.start.map List.length, l.stop.map List.length, l.targetPositions.map List.length,
    l.keywordPositions.map List.length]

/-- All vectors have one value for each item. -/
structure Aligned (l : MatchVectors) : Prop where
  length : ∀ n, some n ∈ l.lengths → n = l.tabsize
  null : l.start = none → l.tabsize = 0

/-- All vectors have at least `n` values. -/
def Room (l : MatchVectors) (n : ℕ) : Prop := ∀ k, some k ∈ l.lengths → n ≤ k

/-- What is left of an item in the vectors of the list. -/
def project (l : MatchVectors) (m : Match) : Match where
  start := m.start
  stop := if l.stop.isSome then m.stop else m.start
  target := if l.targetPositions.isSome then m.target else -1
  keyword := if l.keywordPositions.isSome then m.keyword else -1

/-- All vectors of the list are also there in `src`. -/
structure Receives (l src : MatchVectors) : Prop where
  start : l.start.isSome = true
  stop : l.stop.isSome = true → src.stop.isSome = true
  target : l.targetPositions.isSome = true → src.targetPositions.isSome = true
  keyword : l.keywordPositions.isSome = true → src.keywordPositions.isSome = true

section Lengths

variable {l l' src : MatchVectors} {n k i : ℕ}

theorem isSome_of_lengths (h : l'.lengths = l.lengths) :
    l'.start.isSome = l.start.isSome ∧ l'.stop.isSome = l.stop.isSome ∧
      l'.targetPositions.isSome = l.targetPositions.isSome ∧
      l'.keywordPositions.isSome = l.keywordPositions.isSome := by
  simp only [lengths, List.cons.injEq, and_true] at h
  obtain ⟨h1, h2, h3, h4⟩ := h
  have hmap : ∀ {a b : Option (List ℤ)}, a.map List.length = b.map List.length → a.isSome = b.isSome := by
    intro a b hab
    rw [← isSome_map (f := List.length), hab, isSome_map]
  exact ⟨hmap h1, hmap h2, hmap h3, hmap h4⟩

theorem project_of_lengths (h : l'.lengths = l.lengths) : l'.project = l.project := by
  obtain ⟨-, h2, h3, h4⟩ := isSome_of_lengths h
  funext m
  unfold project
  rw [h2, h3, h4]

theorem Receives.of_lengths (h : l'.lengths = l.lengths) (hr : l.Receives src) : l'.Receives src := by
  obtain ⟨h1, h2, h3, h4⟩ := isSome_of_lengths h
  exact ⟨h1.trans hr.start, fun h => hr.stop (h2 ▸ h), fun h => hr.target (h3 ▸ h), fun h => hr.keyword (h4 ▸ h)⟩

theorem Room.of_lengths (h : l'.lengths = l.lengths) (hr : l.Room n) : l'.Room n := by
  unfold Room
  rw [h]
  exact hr

theorem Room.mono (h : l.Room n) (hk : k ≤ n) : l.Room k := fun m hm => hk.trans (h m hm)

theorem Aligned.of_lengths (h : l.Aligned) (hl : l'.lengths = l.lengths) (ht : l'.tabsize = l.tabsize) : l'.Aligned := by
  refine ⟨fun n hn => ?_, fun hnull => ?_⟩
  · rw [ht]
    exact h.length n (hl ▸ hn)
  · have hs := (isSome_of_lengths hl).1
    rw [hnull, isSome_none] at hs
    rw [ht]
    exact h.null (not_isSome_iff_eq_none.mp (by simp [← hs]))

theorem Aligned.room (h : l.Aligned) : l.Room l.tabsize := fun k hk => (h.length k hk).ge

theorem Aligned.receives (hs : l.start ≠ none) : l.Receives l :=
  ⟨isSome_iff_ne_none.mpr hs, id, id, id⟩

theorem hasRoom_iff : l.hasRoom k = true ↔ l.Room (k + 1) := by
  have hall : ∀ vec : Option (List ℤ), vec.all (k < ·.length) = true ↔
      ∀ m, vec.map List.length = some m → k + 1 ≤ m := by
    intro vec
    cases vec with
    | none => simp
    | some l =>
      simp only [all_some, decide_eq_true_eq, map_some, some.injEq, forall_eq']
      exact Nat.lt_iff_add_one_le
  unfold hasRoom Room
  simp only [Bool.and_eq_true, hall, lengths, mem_cons, not_mem_nil, or_false]
  refine ⟨fun h m hm => ?_, fun h => ⟨⟨⟨?_, ?_⟩, ?_⟩, ?_⟩⟩
  · obtain ⟨⟨⟨h1, h2⟩, h3⟩, h4⟩ := h
    rcases hm with hm | hm | hm | hm
    · exact h1 m hm.symm
    · exact h2 m hm.symm
    · exact h3 m hm.symm
    · exact h4 m hm.symm
  · exact fun m hm => h m (.inl hm.symm)
  · exact fun m hm => h m (.inr (.inl hm.symm))
  · exact fun m hm => h m (.inr (.inr (.inl hm.symm)))
  · exact fun m hm => h m (.inr (.inr (.inr hm.symm)))

end Lengths

/-! Copying an item. -/

section Copy

variable {l src : MatchVectors} {n k i : ℕ}

theorem valueAt_set (vec : Option (List ℤ)) (x : ℤ) (p : ℕ) (h : ∀ m, vec.map List.length = some m → k < m) :
    valueAt (vec.map (·.set k x)) p = if p = k ∧ vec.isSome then x else valueAt vec p := by
  cases vec with
  | none => simp [valueAt]
  | some v =>
    have hk : k < v.length := h v.length rfl
    simp only [valueAt, map_some, getD_some, isSome_some, and_true,
      getD_eq_getElem?_getD, getElem?_set]
    by_cases hp : k = p
    · rw [if_pos hp, if_pos hk, if_pos hp.symm, getD_some]
    · rw [if_neg hp, if_neg fun h => hp h.symm]

/-- The list after the copy. -/
theorem copyItem_spec (hroom : l.Room n) (hk : k < n) (hr : l.Receives src) (i : ℕ) :
    ∃ l', l.copyItem src k i = some l' ∧ l'.lengths = l.lengths ∧
      (l'.tabsize = l.tabsize ∧ l'.isInverted = l.isInverted) ∧
      ∀ p, l'.item p = if p = k then l.project (src.item i) else l.item p := by
  have hlen : ∀ m, some m ∈ l.lengths → k < m := fun m hm => hk.trans_le (hroom m hm)
  simp only [lengths, mem_cons, not_mem_nil, or_false] at hlen
  have hstart := fun x p => valueAt_set l.start x p fun m hm => hlen m (.inl hm.symm)
  have hstop := fun x p => valueAt_set l.stop x p fun m hm => hlen m (.inr (.inl hm.symm))
  have htarget := fun x p => valueAt_set l.targetPositions x p fun m hm => hlen m (.inr (.inr (.inl hm.symm)))
  have hkeyword := fun x p => valueAt_set l.keywordPositions x p fun m hm => hlen m (.inr (.inr (.inr hm.symm)))
  have hcopied : ∀ {b c : Bool} {x y z : ℤ}, (b = true → c = true) →
      (if b = true then (if b = true then x else z) else y) = if b = true then (if c = true then x else y) else y := by
    intro b c x y z h
    by_cases hb : b = true
    · rw [if_pos hb, if_pos hb, if_pos hb, if_pos (h hb)]
    · rw [if_neg hb, if_neg hb]
  refine ⟨_, if_pos (hasRoom_iff.mpr (hroom.mono hk)), ?_, ⟨rfl, rfl⟩, fun p => ?_⟩
  · simp only [lengths, Option.map_map, Function.comp_def, length_set]
  · unfold item project startAt stopAt
    simp only [isSome_map, hstart, hstop, htarget, hkeyword, hr.start, and_true]
    by_cases hp : p = k
    · simp only [hp, true_and, if_true]
      congr 1
      · exact hcopied hr.stop
      · exact hcopied hr.target
      · exact hcopied hr.keyword
    · simp only [hp, false_and, if_false]

theorem project_item (l : MatchVectors) (i : ℕ) : l.project (l.item i) = l.item i := by
  unfold project item
  congr 1 <;> split_ifs <;> rfl

theorem firstItems_congr {l l' : MatchVectors} (h : ∀ p < n, l'.item p = l.item p) : l'.firstItems n = l.firstItems n :=
  map_congr_left fun p hp => h p (mem_range.mp hp)

theorem firstItems_succ (l : MatchVectors) (n : ℕ) : l.firstItems (n + 1) = l.firstItems n ++ [l.item n] := by
  rw [firstItems, range_succ, map_append]
  rfl

theorem length_firstItems (l : MatchVectors) (n : ℕ) : (l.firstItems n).length = n := by
  rw [firstItems, length_map, length_range]

theorem drop_items {i : ℕ} (hi : i < l.tabsize) : l.items.drop i = l.item i :: l.items.drop (i + 1) := by
  have hlen : i < l.items.length := by rwa [items, length_firstItems]
  rw [drop_eq_getElem_cons hlen]
  simp [items, firstItems]

theorem drop_items_nil {i : ℕ} (hi : l.tabsize ≤ i) : l.items.drop i = [] :=
  drop_eq_nil_of_le (by rwa [items, length_firstItems])

end Copy

/-! Cutting the vectors. -/

section Realloc

variable {l : MatchVectors} {n k : ℕ}

theorem valueAt_take (vec : Option (List ℤ)) {p : ℕ} (h : p < k) : valueAt (reallocVector k vec) p = valueAt vec p := by
  rw [reallocVector, if_neg (by omega)]
  cases vec with
  | none => rfl
  | some v => simp [valueAt, h]

theorem isSome_reallocVector (vec : Option (List ℤ)) (h : k ≠ 0) : (reallocVector k vec).isSome = vec.isSome := by
  rw [reallocVector, if_neg h, isSome_map]

theorem length_reallocVector {vec : Option (List ℤ)} (h : ∀ m, some m = vec.map List.length → k ≤ m) {m : ℕ}
    (hm : some m = (reallocVector k vec).map List.length) : m = k := by
  unfold reallocVector at hm
  split_ifs at hm
  · exact absurd hm (by simp)
  · cases vec with
    | none => exact absurd hm (by simp)
    | some v =>
      have := h v.length rfl
      simp only [map_some, some.injEq, length_take] at hm
      omega

theorem realloc_item {p : ℕ} (h : p < k) : (l.realloc k).item p = l.item p := by
  unfold realloc
  split_ifs
  · have hk : k ≠ 0 := by omega
    simp only [item, startAt, stopAt, isSome_reallocVector _ hk, valueAt_take _ h]
  · rfl

/-- The first `k` items of vectors that had been allocated for `l.tabsize` ones. -/
theorem realloc_spec (h : l.Aligned) (hk : k ≤ l.tabsize) :
    (l.realloc k).Aligned ∧ (l.realloc k).items = l.firstItems k := by
  have htabsize : (l.realloc k).tabsize = k := by
    unfold realloc
    split_ifs
    · rfl
    · omega
  refine ⟨⟨fun m hm => ?_, fun hnull => ?_⟩, ?_⟩
  · rw [htabsize]
    unfold realloc at hm
    split_ifs at hm
    · have hroom : ∀ m, some m ∈ l.lengths → k ≤ m := fun m hm => hk.trans (h.length m hm).ge
      simp only [lengths, mem_cons, not_mem_nil, or_false] at hm hroom
      rcases hm with hm | hm | hm | hm
      · exact length_reallocVector (fun m hm => hroom m (.inl hm)) hm
      · exact length_reallocVector (fun m hm => hroom m (.inr (.inl hm))) hm
      · exact length_reallocVector (fun m hm => hroom m (.inr (.inr (.inl hm)))) hm
      · exact length_reallocVector (fun m hm => hroom m (.inr (.inr (.inr hm)))) hm
    · have := h.length m hm
      omega
  · rw [htabsize]
    unfold realloc at hnull
    split_ifs at hnull
    · by_contra hk0
      have hstart : l.start = none := by simpa [reallocVector, hk0] using hnull
      have := h.null hstart
      omega
    · have := h.null hnull
      omega
  · rw [items, htabsize]
    exact firstItems_congr fun p hp => realloc_item hp

theorem realloc_isInverted (h : l.isInverted = false) : (l.realloc k).isInverted = false := by
  unfold realloc
  split_ifs
  · rfl
  · exact h

theorem realloc_isSome (hk : k ≠ 0) :
    (l.realloc k).start.isSome = l.start.isSome ∧ (l.realloc k).stop.isSome = l.stop.isSome ∧
      (l.realloc k).targetPositions.isSome = l.targetPositions.isSome ∧
      (l.realloc k).keywordPositions.isSome = l.keywordPositions.isSome := by
  unfold realloc
  split_ifs
  · exact ⟨isSome_reallocVector _ hk, isSome_reallocVector _ hk, isSome_reallocVector _ hk, isSome_reallocVector _ hk⟩
  · exact ⟨rfl, rfl, rfl, rfl⟩

end Realloc

/-! Allocating the vectors of a union. -/

/-- What is left of an item in the vectors that both lists have. -/
def shared (l1 l2 : MatchVectors) (m : Match) : Match where
  start := m.start
  stop := if l1.stop.isSome && l2.stop.isSome then m.stop else m.start
  target := if l1.targetPositions.isSome && l2.targetPositions.isSome then m.target else -1
  keyword := if l1.keywordPositions.isSome && l2.keywordPositions.isSome then m.keyword else -1

section Allocate

variable (l1 l2 : MatchVectors) (n : ℕ)

theorem isSome_vector (b : Bool) : (if b = true then some (replicate n (0 : ℤ)) else none).isSome = b := by
  cases b <;> rfl

theorem allocate_aligned : (allocate l1 l2 n).Aligned := by
  have hvector : ∀ {b : Bool} {m : ℕ}, some m = (if b = true then some (replicate n (0 : ℤ)) else none).map List.length →
      m = n := by
    intro b m h
    cases b
    · exact absurd h (by simp)
    · simpa using h
  refine ⟨fun m hm => ?_, fun h => absurd h (by simp [allocate])⟩
  simp only [lengths, allocate, mem_cons, not_mem_nil, or_false] at hm
  rcases hm with hm | hm | hm | hm
  · exact hvector (b := true) hm
  · exact hvector hm
  · exact hvector hm
  · exact hvector hm

theorem allocate_isSome : (allocate l1 l2 n).start.isSome = true ∧
    (allocate l1 l2 n).stop.isSome = (l1.stop.isSome && l2.stop.isSome) ∧
    (allocate l1 l2 n).targetPositions.isSome = (l1.targetPositions.isSome && l2.targetPositions.isSome) ∧
    (allocate l1 l2 n).keywordPositions.isSome = (l1.keywordPositions.isSome && l2.keywordPositions.isSome) :=
  ⟨rfl, isSome_vector n _, isSome_vector n _, isSome_vector n _⟩

theorem allocate_receives : (allocate l1 l2 n).Receives l1 ∧ (allocate l1 l2 n).Receives l2 := by
  obtain ⟨h1, h2, h3, h4⟩ := allocate_isSome l1 l2 n
  refine ⟨⟨h1, fun h => ?_, fun h => ?_, fun h => ?_⟩, ⟨h1, fun h => ?_, fun h => ?_, fun h => ?_⟩⟩
  · exact (Bool.and_eq_true_iff.mp (h2 ▸ h)).1
  · exact (Bool.and_eq_true_iff.mp (h3 ▸ h)).1
  · exact (Bool.and_eq_true_iff.mp (h4 ▸ h)).1
  · exact (Bool.and_eq_true_iff.mp (h2 ▸ h)).2
  · exact (Bool.and_eq_true_iff.mp (h3 ▸ h)).2
  · exact (Bool.and_eq_true_iff.mp (h4 ▸ h)).2

theorem allocate_project : (allocate l1 l2 n).project = shared l1 l2 := by
  obtain ⟨-, h2, h3, h4⟩ := allocate_isSome l1 l2 n
  funext m
  unfold project shared
  rw [h2, h3, h4]

end Allocate

end MatchVectors

end CWB
