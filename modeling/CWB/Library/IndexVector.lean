import Mathlib.Data.List.Sort
import Mathlib.Data.List.GetD
import Mathlib.Tactic

/-! Index vectors: a vector of positions `0, .., n - 1` in some order, through which another
vector is read. -/

namespace IndexVector

open List

variable {α β : Type} (d : α)

theorem read_range (l : List α) : (range l.length).map (l.getD · d) = l := by
  refine ext_getElem (by simp) fun i h1 h2 => ?_
  simp [getD_eq_getElem?_getD, getElem?_eq_getElem h2]

/-- Read through an index vector, a vector keeps its entries. -/
theorem perm_read {idx : List ℕ} {l : List α} (h : idx.Perm (range l.length)) :
    (idx.map (l.getD · d)).Perm l := by
  have := h.map (l.getD · d)
  rwa [read_range] at this

variable {idx : List ℕ} {n : ℕ}

theorem lt_of_mem (h : idx.Perm (range n)) {i : ℕ} (hi : i ∈ idx) : i < n :=
  mem_range.mp (h.mem_iff.mp hi)

theorem nodup (h : idx.Perm (range n)) : idx.Nodup := h.nodup_iff.mpr nodup_range

theorem length_eq (h : idx.Perm (range n)) : idx.length = n := by
  rw [h.length_eq, length_range]

/-- The entries of the inverse of an index vector. -/
theorem idxOf_lt (h : idx.Perm (range n)) {k : ℕ} (hk : k < n) : idx.idxOf k < n := by
  rw [← length_eq h]
  exact idxOf_lt_length_of_mem (h.mem_iff.mpr (mem_range.mpr hk))

theorem perm_inverse (h : idx.Perm (range n)) : ((range n).map idx.idxOf).Perm (range n) := by
  refine (perm_ext_iff_of_nodup ?_ nodup_range).mpr fun i => ?_
  · refine List.Nodup.map_on (fun a ha b hb hab => ?_) nodup_range
    exact (idxOf_inj (h.mem_iff.mpr ha)).mp hab
  · rw [mem_map, mem_range]
    refine ⟨?_, fun hi => ?_⟩
    · rintro ⟨k, hk, rfl⟩
      exact idxOf_lt h (mem_range.mp hk)
    · have hi' : i < idx.length := by rw [length_eq h]; exact hi
      refine ⟨idx[i], mem_range.mpr (lt_of_mem h (getElem_mem hi')), ?_⟩
      exact (nodup h).idxOf_getElem i hi'

end IndexVector
