import Mathlib

/-! Stacks of amounts from which one unit is taken at a time. What is taken from a level ends the levels above it, and
anything can be pushed. Under a bound on the depth this comes to an end: level by level from the bottom, a level that is
not there counts as more than any amount. -/

namespace StackDescent

/-- The amounts from the bottom to the top. -/
abbrev Amounts := List ℕ

inductive Step : Amounts → Amounts → Prop
  | take (below : Amounts) (r : ℕ) (above : Amounts) : Step (below ++ (r + 1) :: above) (below ++ [r])
  | push (s : Amounts) (amount : ℕ) : Step s (s ++ [amount])

def levels (depth : ℕ) (s : Amounts) : Lex (Fin depth → WithTop ℕ) :=
  toLex fun i => if h : i < s.length then (s[i] : WithTop ℕ) else ⊤

variable {depth : ℕ} {s s' : Amounts}

theorem levels_of_lt {i : Fin depth} (h : (i : ℕ) < s.length) : levels depth s i = (s[(i : ℕ)] : ℕ) := dif_pos h

theorem levels_of_le {i : Fin depth} (h : s.length ≤ i) : levels depth s i = ⊤ := dif_neg h.not_gt

theorem levels_lt (h : Step s s') (hs' : s'.length ≤ depth) : levels depth s' < levels depth s := by
  cases h with
  | take below r above =>
    have hlen : below.length < depth := by simpa [Nat.succ_le_iff] using hs'
    refine ⟨⟨below.length, hlen⟩, fun j hj => ?_, ?_⟩
    · have hj : (j : ℕ) < below.length := hj
      rw [levels_of_lt (by simp; omega), levels_of_lt (by simp; omega), List.getElem_append_left hj, List.getElem_append_left hj]
    · rw [levels_of_lt (by simp), levels_of_lt (by simp)]
      refine WithTop.coe_lt_coe.mpr ?_
      simp
  | push s amount =>
    have hlen : s.length < depth := by simpa [Nat.succ_le_iff] using hs'
    refine ⟨⟨s.length, hlen⟩, fun j hj => ?_, ?_⟩
    · have hj : (j : ℕ) < s.length := hj
      rw [levels_of_lt (by simp; omega), levels_of_lt hj, List.getElem_append_left hj]
    · rw [levels_of_lt (by simp), levels_of_le le_rfl]
      exact WithTop.coe_lt_top _

/-- There is no infinite sequence of steps on stacks of a bounded depth. -/
theorem not_forever (run : ℕ → Amounts) (hdepth : ∀ n, (run n).length ≤ depth) : ∃ n, ¬Step (run n) (run (n + 1)) := by
  obtain ⟨n, hn⟩ := WellFounded.not_rel_apply_succ (r := (· < ·)) fun n => levels depth (run n)
  exact ⟨n, fun hstep => hn (levels_lt hstep (hdepth (n + 1)))⟩

end StackDescent
