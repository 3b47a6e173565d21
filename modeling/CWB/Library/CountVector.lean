import Mathlib.Algebra.BigOperators.Group.Finset.Basic
import Mathlib.Tactic.Ring

/-! Vectors of counts: one list is counted, another one is matched against the counts, and the entries that were
touched are cleared again. -/

namespace CountVector

open Function List

/-- A loop whose body may fail does not fail where every element passes the test. -/
theorem foldlM_guard {σ β : Type*} (p : β → Prop) [DecidablePred p] (step : σ → β → σ) (l : List β) (hl : ∀ f ∈ l, p f) (s : σ) :
    l.foldlM (fun s f => if p f then some (step s f) else none) s = some (l.foldl step s) := by
  induction l generalizing s with
  | nil => rfl
  | cons f l ih =>
    obtain ⟨hf, hl⟩ := forall_mem_cons.mp hl
    rw [foldlM_cons, if_pos hf]
    exact ih hl _

variable {ι : Type*} [DecidableEq ι]

def bump (v : ι → ℤ) (f : ι) : ι → ℤ := update v f (v f + 1)

/-- A match uses up one of the counts, and is worth the weight of its index. -/
def takeOne (weight : ι → ℤ) (st : (ι → ℤ) × ℤ) (f : ι) : (ι → ℤ) × ℤ :=
  if 0 < st.1 f then (update st.1 f (st.1 f - 1), st.2 + weight f) else st

def clear (v : ι → ℤ) (f : ι) : ι → ℤ := update v f 0

theorem foldl_bump (l : List ι) (v : ι → ℤ) (f : ι) : l.foldl bump v f = v f + l.count f := by
  induction l generalizing v with
  | nil => exact (add_zero _).symm
  | cons g l ih =>
    rw [foldl_cons, ih, bump, count_cons]
    by_cases hfg : g = f
    · subst hfg
      simp only [update_self, BEq.rfl, if_true]
      push_cast
      ring
    · rw [update_of_ne (Ne.symm hfg), if_neg (by simpa using hfg), add_zero]

theorem foldl_clear (l : List ι) (v : ι → ℤ) (f : ι) : l.foldl clear v f = if f ∈ l then 0 else v f := by
  induction l generalizing v with
  | nil => rfl
  | cons g l ih =>
    rw [foldl_cons, ih, clear]
    by_cases hfg : f = g
    · subst hfg
      rw [update_self, if_pos mem_cons_self]
      exact ite_self 0
    · rw [update_of_ne hfg]
      simp [hfg]

/-- Entries without a count stay as they are. -/
theorem takeOne_zero (weight : ι → ℤ) (st : (ι → ℤ) × ℤ) (f g : ι) (h : st.1 g = 0) : (takeOne weight st f).1 g = 0 := by
  unfold takeOne
  split_ifs with hpos
  · by_cases hgf : g = f
    · subst hgf
      omega
    · exact (update_of_ne hgf ..).trans h
  · exact h

theorem foldl_takeOne_zero (weight : ι → ℤ) (l : List ι) (st : (ι → ℤ) × ℤ) (g : ι) (h : st.1 g = 0) :
    (l.foldl (takeOne weight) st).1 g = 0 := by
  induction l generalizing st with
  | nil => exact h
  | cons f l ih => exact ih _ (takeOne_zero weight st f g h)

/-- All matches together: each index counts as often as in both lists. -/
theorem foldl_takeOne (weight : ι → ℤ) (s : Finset ι) (l : List ι) (hl : ∀ f ∈ l, f ∈ s) (v : ι → ℤ) (hv : ∀ f, 0 ≤ v f)
    (m : ℤ) : (l.foldl (takeOne weight) (v, m)).2 = m + ∑ f ∈ s, weight f * min (v f) (l.count f) := by
  induction l generalizing v m with
  | nil =>
    have hzero : ∀ f ∈ s, weight f * min (v f) (([] : List ι).count f : ℤ) = 0 := by
      intro f _
      rw [count_nil, Nat.cast_zero, min_eq_right (hv f), mul_zero]
    rw [Finset.sum_eq_zero hzero, add_zero, foldl_nil]
  | cons g l ih =>
    obtain ⟨hg, hl⟩ := forall_mem_cons.mp hl
    rw [foldl_cons, takeOne]
    split_ifs with hpos
    · have hnonneg : ∀ f, 0 ≤ update v g (v g - 1) f := by
        intro f
        by_cases hfg : f = g
        · subst hfg
          rw [update_self]
          exact Int.sub_nonneg_of_le hpos
        · rw [update_of_ne hfg]
          exact hv f
      rw [ih hl _ hnonneg, ← Finset.add_sum_erase s _ hg, ← Finset.add_sum_erase s _ hg, update_self]
      have hrest : ∀ f ∈ s.erase g, weight f * min (update v g (v g - 1) f) (l.count f) =
          weight f * min (v f) ((g :: l).count f) := by
        intro f hf
        have hfg := Finset.ne_of_mem_erase hf
        rw [update_of_ne hfg, count_cons_of_ne hfg.symm]
      rw [Finset.sum_congr rfl hrest, count_cons_self]
      have hmin : min (v g) ((l.count g + 1 : ℕ) : ℤ) = min (v g - 1) (l.count g) + 1 := by
        push_cast
        omega
      rw [hmin]
      simp only
      ring
    · rw [ih hl v hv]
      congr 1
      apply Finset.sum_congr rfl
      intro f _
      by_cases hfg : f = g
      · subst hfg
        have hzero : v f = 0 := le_antisymm (not_lt.mp hpos) (hv f)
        rw [hzero, min_eq_left (Int.natCast_nonneg _), min_eq_left (Int.natCast_nonneg _)]
      · rw [count_cons_of_ne (Ne.symm hfg)]

end CountVector
