import CWB.Spec.QueryResult
import CWB.Library.IndexVector

/-! The vectors of a query result line by line: when they fit together, and what sorting
does to the lines. -/

namespace CWB

open Option List

namespace QueryResult

/-- The vectors fit together. -/
structure Sound (c : QueryResult) : Prop where
  targets : ∀ v, c.targets = some v → v.length = c.size
  keywords : ∀ v, c.keywords = some v → v.length = c.size
  sortidx : ∀ idx, c.sortidx = some idx → idx.Perm (List.range c.size)

@[simp] theorem lines_length (c : QueryResult) : c.lines.length = c.size := by simp [lines]

theorem map_rangeAt (c : QueryResult) : (List.range c.size).map c.rangeAt = c.range :=
  IndexVector.read_range _ _

theorem lines_pair (c : QueryResult) : c.lines.map Match.pair = c.range := by
  rw [lines, List.map_map]
  exact c.map_rangeAt

theorem Sound.targets_eq {c : QueryResult} (h : c.Sound) :
    c.targets = c.targets.map fun _ => c.lines.map Match.target := by
  cases hv : c.targets with
  | none => rfl
  | some v =>
    rw [map_some, some_inj, lines, List.map_map, ← h.targets v hv]
    refine Eq.trans (IndexVector.read_range 0 v).symm (map_congr_left fun j _ => ?_)
    simp [line, targetAt, hv]

theorem Sound.keywords_eq {c : QueryResult} (h : c.Sound) :
    c.keywords = c.keywords.map fun _ => c.lines.map Match.keyword := by
  cases hv : c.keywords with
  | none => rfl
  | some v =>
    rw [map_some, some_inj, lines, List.map_map, ← h.keywords v hv]
    refine Eq.trans (IndexVector.read_range 0 v).symm (map_congr_left fun j _ => ?_)
    simp [line, keywordAt, hv]

/-- What is read line by line through a sort index is read through its entries. -/
theorem map_realLine {α : Type} {c : QueryResult} {idx : List ℕ} (h : c.sortidx = some idx)
    (hlen : idx.length = c.size) (f : ℕ → α) : (List.range c.size).map (fun i => f (c.realLine i)) = idx.map f := by
  simp only [realLine, h, map_some, getD_some, ← hlen]
  rw [← Function.comp_def f, ← List.map_map, IndexVector.read_range]

theorem mem_lines {c : QueryResult} {m : Match} : m ∈ c.lines ↔ ∃ k < c.size, c.line k = m := by
  simp [lines]

/-- Vectors filled line by line. -/
theorem lines_of_vectors {c : QueryResult} {ls : List Match} (hr : c.range = ls.map Match.pair)
    (ht : c.targets = some (ls.map Match.target) ∨ c.targets = none ∧ ∀ m ∈ ls, m.target = -1)
    (hk : c.keywords = some (ls.map Match.keyword) ∨ c.keywords = none ∧ ∀ m ∈ ls, m.keyword = -1) :
    c.lines = ls := by
  have hsize : c.size = ls.length := by simp [size, hr]
  refine ext_getElem (by simp [hsize]) fun k h1 h2 => ?_
  have hread : ∀ {α : Type} (f : Match → α) (d : α), (ls.map f).getD k d = f ls[k] := by
    intro α f d
    rw [getD_eq_getElem _ _ (by simpa using h2), getElem_map]
  have h3 : c.rangeAt k = ls[k].pair := by rw [rangeAt, hr, hread]
  have h4 : c.targetAt k = ls[k].target := by
    obtain h | ⟨h, hnone⟩ := ht
    · rw [targetAt, h, map_some, getD_some, hread]
    · rw [targetAt, h, hnone _ (getElem_mem h2)]
      rfl
  have h5 : c.keywordAt k = ls[k].keyword := by
    obtain h | ⟨h, hnone⟩ := hk
    · rw [keywordAt, h, map_some, getD_some, hread]
    · rw [keywordAt, h, hnone _ (getElem_mem h2)]
      rfl
  simp only [lines, getElem_map, getElem_range, line, h3, h4, h5, Match.pair]

theorem qsortIndex_perm (n : ℕ) (compare : ℕ → ℕ → ℤ) : (qsortIndex n compare).Perm (List.range n) :=
  mergeSort_perm _ _

/-- The result whose vectors follow one index vector. -/
def reindex (c : QueryResult) (index : List ℕ) : QueryResult :=
  { c with
    range := index.map c.rangeAt
    targets := c.targets.map fun v => index.map (v.getD · 0)
    keywords := c.keywords.map fun v => index.map (v.getD · 0)
    sortidx := none }

@[simp] theorem size_reindex (c : QueryResult) (index : List ℕ) : (c.reindex index).size = index.length := by
  simp [size, reindex]

theorem line_reindex (c : QueryResult) {index : List ℕ} {k : ℕ} (hk : k < index.length) :
    (c.reindex index).line k = c.line (index.getD k 0) := by
  have hread : ∀ {α : Type} (f : ℕ → α) (d : α), (index.map f).getD k d = f (index.getD k 0) := by
    intro α f d
    rw [getD_eq_getElem _ _ (by simpa using hk), getElem_map, getD_eq_getElem _ _ hk]
  unfold line
  congr 1
  · rw [rangeAt, reindex]; exact congrArg Prod.fst (hread _ _)
  · rw [rangeAt, reindex]; exact congrArg Prod.snd (hread _ _)
  · cases hv : c.targets with
    | none => simp [targetAt, reindex, hv]
    | some v => simpa [targetAt, reindex, hv] using hread (fun j => v.getD j 0) 0
  · cases hv : c.keywords with
    | none => simp [keywordAt, reindex, hv]
    | some v => simpa [keywordAt, reindex, hv] using hread (fun j => v.getD j 0) 0

theorem lines_reindex (c : QueryResult) (index : List ℕ) : (c.reindex index).lines = index.map c.line := by
  refine ext_getElem (by simp) fun k h1 h2 => ?_
  have hk : k < index.length := by simpa using h2
  simp only [lines, getElem_map, getElem_range]
  rw [line_reindex c hk, getD_eq_getElem _ _ hk]

theorem sound_reindex (c : QueryResult) (index : List ℕ) : (c.reindex index).Sound := by
  refine ⟨fun v hv => ?_, fun v hv => ?_, fun idx hidx => by simp [reindex] at hidx⟩
  · obtain ⟨w, -, rfl⟩ := map_eq_some_iff.mp hv
    simp
  · obtain ⟨w, -, rfl⟩ := map_eq_some_iff.mp hv
    simp

/-- The vectors that follow an index vector, with the sort index that undoes it. -/
def unsorted (c : QueryResult) (index : List ℕ) : QueryResult :=
  { c.reindex index with sortidx := some ((List.range c.size).map index.idxOf) }

section Unsorted

variable {c : QueryResult} {index : List ℕ} (h : index.Perm (List.range c.size))

include h

theorem size_unsorted : (c.unsorted index).size = c.size :=
  (c.size_reindex index).trans (IndexVector.length_eq h)

theorem sound_unsorted : (c.unsorted index).Sound := by
  obtain ⟨ht, hk, -⟩ := c.sound_reindex index
  refine ⟨ht, hk, fun idx hidx => ?_⟩
  cases hidx
  rw [size_unsorted h]
  exact IndexVector.perm_inverse h

theorem lines_unsorted_perm : (c.unsorted index).lines.Perm c.lines := by
  have hl : (c.unsorted index).lines = index.map c.line := c.lines_reindex index
  rw [hl]
  exact h.map _

/-- Shown line by line, the vectors are as they were. -/
theorem unsorted_shown :
    ((List.range c.size).map index.idxOf).map (c.unsorted index).line = c.lines := by
  rw [List.map_map, lines]
  refine map_congr_left fun k hk => ?_
  have hmem : k ∈ index := h.mem_iff.mpr hk
  have hlt : index.idxOf k < index.length := idxOf_lt_length_of_mem hmem
  refine (c.line_reindex hlt).trans ?_
  rw [getD_eq_getElem _ _ hlt, getElem_idxOf hlt]

end Unsorted

theorem rangeSort_false (c : QueryResult) (h : c.type ≠ .system) :
    c.rangeSort false = c.reindex (qsortIndex c.size c.rsCompareRanges) := by
  cases hc : c.type with
  | system => exact absurd hc h
  | sub | temp => simp only [rangeSort, hc, reindex]; rfl

theorem rangeSort_true (c : QueryResult) (h : c.type ≠ .system) :
    c.rangeSort true = c.unsorted (qsortIndex c.size c.rsCompareRanges) := by
  cases hc : c.type with
  | system => exact absurd hc h
  | sub | temp => simp only [rangeSort, hc, unsorted, reindex]; rfl

end QueryResult

end CWB
