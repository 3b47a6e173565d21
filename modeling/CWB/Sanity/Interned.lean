import CWB.Library.Block
import CWB.Proofs.Lexhash

/-! A lexhash that strings are only added to, as a table of strings: the ID of a string is its
place in the order of first occurrence. -/

namespace CWB

open List

/-- The strings of the hash, in the order of their IDs. -/
def Interned (hash : Lexhash) (ls : List (List UInt8)) : Prop :=
  ls.Nodup ∧ ∃ ops, LexhashInv ops hash ∧ inserted ops = ls ∧ ∀ s, addsSinceDel ops s = 0 ↔ s ∉ ls

variable {hash : Lexhash} {ls : List (List UInt8)} {s : List UInt8}

theorem interned_new (buckets : ℤ) : Interned (clNewLexhash buckets) [] := by
  refine ⟨nodup_nil, [], inv_new buckets, rfl, fun s => ?_⟩
  simp [addsSinceDel]

theorem interned_add_new (fill : FillRate) (h : Interned hash ls) (hs : s ∉ ls) :
    ∃ hash', clLexhashAdd fill hash s = some hash' ∧ Interned hash' (ls ++ [s]) := by
  obtain ⟨hnodup, ops, hinv, hins, hzero⟩ := h
  obtain ⟨hash', hadd, hinv'⟩ := inv_add fill hinv s
  have hins' : inserted (ops ++ [.add s]) = ls ++ [s] := by
    rw [inserted_snoc, hins]
    simp [(hzero s).mpr hs]
  refine ⟨hash', hadd, ?_, _, hinv', hins', fun t => ?_⟩
  · rw [nodup_append]
    refine ⟨hnodup, nodup_singleton s, ?_⟩
    intro x hx y hy hxy
    rw [mem_singleton] at hy
    exact hs (by rw [← hy, ← hxy]; exact hx)
  · rw [addsSinceDel_add, mem_append, mem_singleton, not_or, ← hzero t]
    by_cases hst : s = t
    · simp [hst]
    · simp [hst, Ne.symm hst]

theorem lastIdx_of_nodup (hn : ls.Nodup) (hs : s ∈ ls) : lastIdx s ls = ls.idxOf s := by
  induction ls using reverseRecOn with
  | nil => cases hs
  | append_singleton ls t ih =>
    obtain ⟨hn', -, hdisj⟩ := nodup_append.mp hn
    by_cases hst : s ∈ ls
    · have hne : t ≠ s := fun h => hdisj s hst t (by simp) h.symm
      rw [lastIdx_of_ne hne, ih hn' hst, idxOf_append_of_mem hst]
    · obtain h | h := mem_append.mp hs
      · exact absurd h hst
      · rw [mem_singleton] at h
        subst h
        rw [lastIdx_self, idxOf_append_of_notMem hst]
        simp

theorem interned_find (h : Interned hash ls) (s : List UInt8) :
    (s ∉ ls → clLexhashFind hash s = none) ∧
      (s ∈ ls → ∃ freq, clLexhashFind hash s = some ⟨s, freq, ls.idxOf s⟩) := by
  obtain ⟨hnodup, ops, hinv, hins, hzero⟩ := h
  have hfind := hinv.find_eq s
  constructor
  · intro hs
    rw [hfind, if_pos ((hzero s).mpr hs)]
  · intro hs
    refine ⟨addsSinceDel ops s, ?_⟩
    rw [hfind, if_neg fun h => (hzero s).mp h hs, hins, lastIdx_of_nodup hnodup hs]

theorem interned_id_of_mem (h : Interned hash ls) (hs : s ∈ ls) : clLexhashId hash s = ls.idxOf s := by
  obtain ⟨freq, hfind⟩ := (interned_find h s).2 hs
  rw [clLexhashId, hfind]

theorem interned_id_of_notMem (h : Interned hash ls) (hs : s ∉ ls) : clLexhashId hash s = -1 := by
  rw [clLexhashId, (interned_find h s).1 hs]

end CWB
