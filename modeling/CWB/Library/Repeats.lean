import Mathlib

/-! Lists of which an element equal to the one before it is taken out. -/

namespace Repeats

open List

section Members

variable {α : Type*} [DecidableEq α]

theorem mem_destutter' {a x : α} {l : List α} : x ∈ l.destutter' (· ≠ ·) a ↔ x ∈ a :: l := by
  induction l generalizing a with
  | nil => simp
  | cons b l ih =>
    by_cases h : a = b
    · subst h
      rw [destutter'_cons_neg l (not_not.mpr rfl), ih]
      simp
    · rw [destutter'_cons_pos l h, mem_cons, ih, mem_cons (b := a)]

theorem mem_destutter {x : α} {l : List α} : x ∈ l.destutter (· ≠ ·) ↔ x ∈ l := by
  cases l with
  | nil => simp
  | cons a l => rw [destutter_cons', mem_destutter']

end Members

section Order

variable {α : Type*} [LinearOrder α]

theorem exists_destutter'_eq_cons (a : α) (l : List α) : ∃ t, l.destutter' (· ≠ ·) a = a :: t := by
  induction l generalizing a with
  | nil => exact ⟨[], rfl⟩
  | cons b l ih =>
    by_cases h : a ≠ b
    · exact ⟨_, destutter'_cons_pos l h⟩
    · rw [destutter'_cons_neg l h]
      exact ih a

theorem isChain_lt_destutter'_iff (a : α) (l : List α) :
    (l.destutter' (· ≠ ·) a).IsChain (· < ·) ↔ (a :: l).IsChain (· ≤ ·) := by
  induction l generalizing a with
  | nil => simp
  | cons b l ih =>
    rw [isChain_cons_cons]
    by_cases h : a = b
    · subst h
      rw [destutter'_cons_neg l (not_not.mpr rfl), ih]
      exact ⟨fun hl => ⟨le_rfl, hl⟩, fun hl => hl.2⟩
    · obtain ⟨t, ht⟩ := exists_destutter'_eq_cons b l
      have hb := ih b
      rw [ht] at hb
      rw [destutter'_cons_pos l h, ht, isChain_cons_cons, hb]
      exact and_congr_left fun _ => ⟨le_of_lt, fun hle => lt_of_le_of_ne hle h⟩

/-- What is left is strictly ascending if the list was ascending. -/
theorem pairwise_lt_destutter_iff (l : List α) : (l.destutter (· ≠ ·)).Pairwise (· < ·) ↔ l.Pairwise (· ≤ ·) := by
  cases l with
  | nil => simp
  | cons a l => rw [destutter_cons', ← isChain_iff_pairwise, ← isChain_iff_pairwise, isChain_lt_destutter'_iff]

end Order

end Repeats
