import Mathlib.Tactic.Ring

/-! Binary search for the region that contains a point, among regions that are numbered in
ascending order and do not overlap; there may be gaps between them. -/

namespace RegionSearch

variable {α : Type*} [LinearOrder α] (lo hi : ℤ → α) (x : α)

/-- The search in the window from `low` to `high`: `some none` if no region is found, `none` if
there are more rounds than `fuel`. -/
def search : ℕ → ℤ → ℤ → Option (Option ℤ)
  | 0, low, high => if low ≤ high then none else some none
  | fuel + 1, low, high =>
    if low ≤ high then
      let mid := (low + high) / 2
      if lo mid ≤ x then
        if x ≤ hi mid then some (some mid) else search fuel (mid + 1) high
      else search fuel low (mid - 1)
    else some none

/-- The regions of a window. -/
structure Ascending (low high : ℤ) : Prop where
  nonempty : ∀ k, low ≤ k → k ≤ high → lo k ≤ hi k
  apart : ∀ i j, low ≤ i → i < j → j ≤ high → hi i < lo j

variable {lo hi x} {low high low' high' k k' : ℤ}

theorem Ascending.mono (h : Ascending lo hi low high) (hlow : low ≤ low') (hhigh : high' ≤ high) :
    Ascending lo hi low' high' where
  nonempty k hl hh := h.nonempty k (hlow.trans hl) (hh.trans hhigh)
  apart i j hl hij hh := h.apart i j (hlow.trans hl) hij (hh.trans hhigh)

theorem Ascending.unique (h : Ascending lo hi low high) (hl : low ≤ k) (hh : k ≤ high) (hl' : low ≤ k') (hh' : k' ≤ high)
    (hk : lo k ≤ x ∧ x ≤ hi k) (hk' : lo k' ≤ x ∧ x ≤ hi k') : k = k' := by
  rcases lt_trichotomy k k' with hlt | heq | hgt
  · exact absurd (hk.2.trans_lt ((h.apart k k' hl hlt hh').trans_le hk'.1)) (lt_irrefl x)
  · exact heq
  · exact absurd (hk'.2.trans_lt ((h.apart k' k hl' hgt hh).trans_le hk.1)) (lt_irrefl x)

/-- The rounds that halve the window are enough, and what is found is right. -/
theorem search_spec (fuel : ℕ) (h : Ascending lo hi low high) (hfuel : high - low + 1 < (2 ^ fuel : ℕ)) :
    ∃ r, search lo hi x fuel low high = some r ∧
      (∀ k ∈ r, low ≤ k ∧ k ≤ high ∧ lo k ≤ x ∧ x ≤ hi k) ∧
      (r = none → ∀ k, low ≤ k → k ≤ high → ¬(lo k ≤ x ∧ x ≤ hi k)) := by
  induction fuel generalizing low high with
  | zero =>
    have hempty : ¬ low ≤ high := by
      rw [pow_zero] at hfuel
      omega
    exact ⟨none, by rw [search, if_neg hempty], by simp, fun _ k hl hh => absurd (hl.trans hh) hempty⟩
  | succ fuel ih =>
    rw [pow_succ] at hfuel
    rw [search]
    by_cases hle : low ≤ high
    · rw [if_pos hle]
      set mid := (low + high) / 2 with hmid
      have hlow : low ≤ mid := by omega
      have hhigh : mid ≤ high := by omega
      by_cases hlo : lo mid ≤ x
      · by_cases hhi : x ≤ hi mid
        · exact ⟨some mid, by simp only [if_pos hlo, if_pos hhi], by simp [hlow, hhigh, hlo, hhi], by simp⟩
        · obtain ⟨r, hr, hfound, hnone⟩ := ih (h.mono (show low ≤ mid + 1 by omega) le_rfl) (by omega)
          refine ⟨r, by simp only [if_pos hlo, if_neg hhi, hr], fun k hk => ?_, fun hrn k hl hh hin => ?_⟩
          · have := hfound k hk
            exact ⟨by omega, this.2⟩
          -- a region up to the middle ends before the middle one does
          · rcases lt_trichotomy k mid with hlt | rfl | hgt
            · have hend : hi k < x := (h.apart k mid hl hlt hhigh).trans_le hlo
              exact absurd hin.2 (not_le.mpr hend)
            · exact hhi hin.2
            · exact hnone hrn k (by omega) hh hin
      · obtain ⟨r, hr, hfound, hnone⟩ := ih (h.mono le_rfl (show mid - 1 ≤ high by omega)) (by omega)
        refine ⟨r, by simp only [if_neg hlo, hr], fun k hk => ?_, fun hrn k hl hh hin => ?_⟩
        · have := hfound k hk
          exact ⟨this.1, by omega, this.2.2⟩
        -- a region from the middle on begins after `x`
        · rcases lt_trichotomy k mid with hlt | rfl | hgt
          · exact hnone hrn k hl (by omega) hin
          · exact hlo hin.1
          · have hstart : x < lo k := (not_le.mp hlo).trans_le
              ((h.nonempty mid hlow hhigh).trans (h.apart mid k hlow hgt hh).le)
            exact absurd hin.1 (not_le.mpr hstart)
    · exact ⟨none, by rw [if_neg hle], by simp, fun _ k hl hh => absurd (hl.trans hh) hle⟩

end RegionSearch
