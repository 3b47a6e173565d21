import CWB.Library.Intervals
import CWB.Proofs.ClAccess

/-! The binary search of `get_previous_mark` in the regions of a structural attribute, and the
functions of `cl/cdaccess.c` that look up positions, regions and boundaries with it. -/

namespace CWB.Cqi

open List

/-! Numbers below `2 ^ 31`, for which the arithmetic of `int` and the unsigned comparisons are exact. -/

section Word

variable {m n : ℤ}

def Fits (n : ℤ) : Prop := 0 ≤ n ∧ n < 2 ^ 31

theorem Fits.toInt (h : Fits n) : (BitVec.ofInt 32 n).toInt = n :=
  BitVec.toInt_ofInt_eq_self (by norm_num) (by have := h.1; omega) h.2

theorem Fits.toNat (h : Fits n) : ((BitVec.ofInt 32 n).toNat : ℤ) = n := by
  obtain ⟨h0, h1⟩ := h
  rw [BitVec.toNat_ofInt]
  omega

theorem Fits.sub_toInt (hm : Fits m) (hn : Fits n) : (BitVec.ofInt 32 m - BitVec.ofInt 32 n).toInt = m - n := by
  rw [BitVec.toInt_sub, hm.toInt, hn.toInt]
  obtain ⟨hm0, hm1⟩ := hm
  obtain ⟨hn0, hn1⟩ := hn
  exact Int.bmod_eq_of_le (by omega) (by omega)

theorem Fits.toNat_le_iff (hm : Fits m) (hn : Fits n) : (BitVec.ofInt 32 m).toNat ≤ (BitVec.ofInt 32 n).toNat ↔ m ≤ n := by
  have h := hm.toNat
  have h' := hn.toNat
  omega

/-- A negative number is above all of them when it is taken as an unsigned one. -/
theorem lt_toNat_of_neg {p : CInt} (hp : p.toInt < 0) (hn : Fits n) : (BitVec.ofInt 32 n).toNat < p.toNat := by
  have h := hn.toNat
  have hn1 := hn.2
  rw [BitVec.toInt_eq_toNat_cond] at hp
  split_ifs at hp with hlt
  · omega
  · omega

end Word

section Regions

/-- The regions of a structural attribute: sorted, and none overlaps another. -/
structure SortedRegions (regions : List (ℤ × ℤ)) : Prop where
  fits : ∀ r ∈ regions, 0 ≤ r.1 ∧ r.1 ≤ r.2 ∧ r.2 < 2 ^ 31
  apart : regions.Pairwise fun r r' => r.2 < r'.1

variable {lo hi : ℤ → ℤ} {low high x : ℤ} {regions : List (ℤ × ℤ)}

/-- On positions of the corpus `get_previous_mark` is the plain search; where the middle is the first
region of the window, it gives up at once. -/
theorem previousMarkLoop_eq_search (hx : Fits x) (h : RegionSearch.Ascending lo hi low high)
    (hfits : ∀ k, low ≤ k → k ≤ high → Fits (lo k) ∧ Fits (hi k)) (nr : ℕ) :
    previousMarkLoop (fun k => BitVec.ofInt 32 (lo k)) (fun k => BitVec.ofInt 32 (hi k)) (BitVec.ofInt 32 x) nr low high =
      (RegionSearch.search lo hi x nr low high).join := by
  induction nr generalizing low high with
  | zero =>
    rw [previousMarkLoop, RegionSearch.search]
    split_ifs
    · rfl
    · rfl
  | succ nr ih =>
    rw [previousMarkLoop, RegionSearch.search]
    by_cases hle : low ≤ high
    · rw [if_pos hle, if_pos hle]
      set mid := (low + high) / 2 with hmid
      have hlow : low ≤ mid := by omega
      have hhigh : mid ≤ high := by omega
      obtain ⟨hlo, hhi⟩ := hfits mid hlow hhigh
      have hne := h.nonempty mid hlow hhigh
      have hright := ih (h.mono (show low ≤ mid + 1 by omega) le_rfl) fun k hl hh => hfits k (by omega) hh
      have hleft := ih (h.mono le_rfl (show mid - 1 ≤ high by omega)) fun k hl hh => hfits k hl (by omega)
      simp only [hx.sub_toInt hlo, hx.toNat_le_iff hhi, hright, hleft]
      rcases lt_trichotomy x (lo mid) with hlt | heq | hgt
      · rw [if_neg (by omega), if_neg (by omega), if_neg (show ¬lo mid ≤ x by omega)]
        by_cases hfirst : mid = low
        · rw [if_pos hfirst]
          cases nr with
          | zero => rw [RegionSearch.search, if_neg (by omega)]; rfl
          | succ nr => rw [RegionSearch.search, if_neg (by omega)]; rfl
        · rw [if_neg hfirst]
      · rw [if_pos (by omega), if_pos (show lo mid ≤ x by omega), if_pos (show x ≤ hi mid by omega)]
        rfl
      · rw [if_neg (by omega), if_pos (by omega), if_pos (show lo mid ≤ x by omega)]
        by_cases hend : x ≤ hi mid
        · rw [if_pos hend, if_pos hend]
          rfl
        · rw [if_neg hend, if_neg hend]
    · rw [if_neg hle, if_neg hle]
      rfl

/-- A negative position is in no region, whatever the difference wraps around to. -/
theorem previousMarkLoop_of_neg {p : CInt} (hp : p.toInt < 0)
    (hfits : ∀ k, low ≤ k → k ≤ high → Fits (lo k) ∧ Fits (hi k)) (nr : ℕ) :
    previousMarkLoop (fun k => BitVec.ofInt 32 (lo k)) (fun k => BitVec.ofInt 32 (hi k)) p nr low high = none := by
  induction nr generalizing low high with
  | zero => rfl
  | succ nr ih =>
    rw [previousMarkLoop]
    by_cases hle : low ≤ high
    · rw [if_pos hle]
      set mid := (low + high) / 2 with hmid
      have hlow : low ≤ mid := by omega
      have hhigh : mid ≤ high := by omega
      obtain ⟨hlo, hhi⟩ := hfits mid hlow hhigh
      have hright := @ih (mid + 1) high fun k hl hh => hfits k (by omega) hh
      have hleft := @ih low (mid - 1) fun k hl hh => hfits k hl (by omega)
      have hend := lt_toNat_of_neg hp hhi
      have hne : (p - BitVec.ofInt 32 (lo mid)).toInt ≠ 0 := by
        intro h0
        have heq : p = BitVec.ofInt 32 (lo mid) := by
          have hsub : p - BitVec.ofInt 32 (lo mid) = 0 := BitVec.toInt_inj.mp h0
          rw [BitVec.sub_eq_iff_eq_add] at hsub
          simpa using hsub
        rw [heq, hlo.toInt] at hp
        exact absurd hlo.1 (by omega)
      simp only [if_neg hne, hright, hleft, if_neg (show ¬p.toNat ≤ (BitVec.ofInt 32 (hi mid)).toNat by omega), ite_self]
    · rw [if_neg hle]

def regionStart (regions : List (ℤ × ℤ)) (k : ℤ) : ℤ := (regions.getD k.toNat (0, 0)).1

def regionEnd (regions : List (ℤ × ℤ)) (k : ℤ) : ℤ := (regions.getD k.toNat (0, 0)).2

/-- A number of a region -/
theorem exists_region {k : ℤ} (h0 : 0 ≤ k) (hk : k ≤ regions.length - 1) :
    ∃ hlt : k.toNat < regions.length,
      regionStart regions k = (regions[k.toNat]).1 ∧ regionEnd regions k = (regions[k.toNat]).2 := by
  have hlt : k.toNat < regions.length := by omega
  refine ⟨hlt, ?_, ?_⟩
  · rw [regionStart, getD_eq_getElem _ _ hlt]
  · rw [regionEnd, getD_eq_getElem _ _ hlt]

theorem SortedRegions.ascending (h : SortedRegions regions) :
    RegionSearch.Ascending (regionStart regions) (regionEnd regions) 0 (regions.length - 1) where
  nonempty k h0 hk := by
    obtain ⟨hlt, hs, he⟩ := exists_region h0 hk
    rw [hs, he]
    exact (h.fits _ (getElem_mem hlt)).2.1
  apart i j h0 hij hj := by
    obtain ⟨hi, -, he⟩ := exists_region h0 (hij.le.trans hj)
    obtain ⟨hj', hs, -⟩ := exists_region (h0.trans hij.le) hj
    rw [he, hs]
    exact pairwise_iff_getElem.mp h.apart _ _ hi hj' (by omega)

theorem SortedRegions.intervals (h : SortedRegions regions) : Intervals.Ascending Prod.fst Prod.snd regions :=
  ⟨h.apart, fun r hr => (h.fits r hr).2.1⟩

theorem SortedRegions.fits_window (h : SortedRegions regions) (k : ℤ) (h0 : 0 ≤ k) (hk : k ≤ regions.length - 1) :
    Fits (regionStart regions k) ∧ Fits (regionEnd regions k) := by
  obtain ⟨hlt, hs, he⟩ := exists_region h0 hk
  have := h.fits _ (getElem_mem hlt)
  rw [hs, he]
  exact ⟨⟨this.1, by omega⟩, ⟨by omega, this.2.2⟩⟩

/-- Every region starts behind as many positions as there are regions before it. -/
theorem SortedRegions.le_start (h : SortedRegions regions) {k : ℕ} (hk : k < regions.length) : (k : ℤ) ≤ (regions[k]).1 := by
  induction k with
  | zero => exact (h.fits _ (getElem_mem hk)).1
  | succ k ih =>
    have hprev := ih (by omega)
    have hlt := pairwise_iff_getElem.mp h.apart k (k + 1) (by omega) hk (by omega)
    have := (h.fits _ (getElem_mem (show k < regions.length by omega))).2.1
    push_cast
    omega

theorem SortedRegions.length_le (h : SortedRegions regions) : regions.length ≤ 2 ^ 31 := by
  rcases Nat.eq_zero_or_pos regions.length with h0 | hpos
  · omega
  · have hlast := h.le_start (show regions.length - 1 < regions.length by omega)
    have := h.fits _ (getElem_mem (show regions.length - 1 < regions.length by omega))
    omega

/-- The rounds of `get_previous_mark` are enough. -/
theorem SortedRegions.search_spec (h : SortedRegions regions) (x : ℤ) {rounds : ℕ} (hrounds : 32 ≤ rounds) :
    ∃ r, RegionSearch.search (regionStart regions) (regionEnd regions) x rounds 0 (regions.length - 1) = some r ∧
      (∀ k ∈ r, 0 ≤ k ∧ k ≤ (regions.length : ℤ) - 1 ∧ regionStart regions k ≤ x ∧ x ≤ regionEnd regions k) ∧
      (r = none → ∀ k, 0 ≤ k → k ≤ (regions.length : ℤ) - 1 → ¬(regionStart regions k ≤ x ∧ x ≤ regionEnd regions k)) := by
  have hpow : 2 ^ 32 ≤ 2 ^ rounds := Nat.pow_le_pow_right (by norm_num) hrounds
  have hlen := h.length_le
  exact RegionSearch.search_spec rounds h.ascending (by omega)

/-- `get_previous_mark` finds the region that contains the position. -/
theorem getPreviousMark_eq_some_iff (h : SortedRegions regions) (position : CInt) (k : ℤ) :
    getPreviousMark regions position.toInt = some k ↔
      0 ≤ k ∧ ∃ r, regions[k.toNat]? = some r ∧ r.1 ≤ position.toInt ∧ position.toInt ≤ r.2 := by
  obtain ⟨r, hr, hfound, hnone⟩ : ∃ r, getPreviousMark regions position.toInt = r ∧
      (∀ k ∈ r, 0 ≤ k ∧ k ≤ regions.length - 1 ∧ regionStart regions k ≤ position.toInt ∧ position.toInt ≤ regionEnd regions k) ∧
      (r = none → ∀ k, 0 ≤ k → k ≤ (regions.length : ℤ) - 1 →
        ¬(regionStart regions k ≤ position.toInt ∧ position.toInt ≤ regionEnd regions k)) := by
    unfold getPreviousMark
    by_cases hneg : position.toInt < 0
    · rw [BitVec.ofInt_toInt]
      refine ⟨none, previousMarkLoop_of_neg hneg h.fits_window _, by simp, fun _ k h0 hk hin => ?_⟩
      have := (h.fits_window k h0 hk).1.1
      omega
    · have hfits : Fits position.toInt := ⟨by omega, BitVec.toInt_lt⟩
      obtain ⟨r, hr, hfound, hnone⟩ := h.search_spec position.toInt (show 32 ≤ 100000 by omega)
      refine ⟨r, ?_, hfound, hnone⟩
      have heq := previousMarkLoop_eq_search hfits h.ascending h.fits_window 100000
      rw [hr] at heq
      exact heq
  rw [hr]
  refine ⟨fun hk => ?_, fun ⟨h0, reg, hget, hin⟩ => ?_⟩
  · obtain ⟨h0, hk, hin⟩ := hfound k hk
    obtain ⟨hlt, hs, he⟩ := exists_region h0 hk
    exact ⟨h0, _, getElem?_eq_getElem hlt, hs ▸ hin.1, he ▸ hin.2⟩
  · obtain ⟨hlt, rfl⟩ := List.getElem?_eq_some_iff.mp hget
    obtain ⟨_, hs, he⟩ := exists_region h0 (show k ≤ regions.length - 1 by omega)
    have hin' : regionStart regions k ≤ position.toInt ∧ position.toInt ≤ regionEnd regions k := by rw [hs, he]; exact hin
    cases hrk : r with
    | none => exact absurd hin' (hnone hrk k h0 (by omega))
    | some k' =>
      obtain ⟨h0', hk', hin''⟩ := hfound k' (by rw [hrk]; rfl)
      rw [h.ascending.unique h0' hk' h0 (by omega) hin'' hin']

variable {a : StrucAttribute}

theorem clStruc2cpos_eq_iff (hdata : a.strucData = true) (k : ℤ) (r : ℤ × ℤ) :
    clStruc2cpos (.struc a) k = (some r, .ok) ↔ 0 ≤ k ∧ a.regions[k.toNat]? = some r := by
  rw [clStruc2cpos, if_neg (by simp [hdata])]
  by_cases hk : k < 0 ∨ k ≥ a.regions.length
  · rw [if_pos hk]
    refine ⟨by simp, fun ⟨h0, hget⟩ => ?_⟩
    have := (List.getElem?_eq_some_iff.mp hget).1
    omega
  · rw [if_neg hk]
    simp only [Prod.mk.injEq, and_true]
    refine ⟨fun hget => ⟨by omega, hget⟩, fun h => h.2⟩

/-- The region number that the position is looked up to, and its bounds. -/
theorem getPreviousMark_eq_some_iff_clStruc2cpos (hdata : a.strucData = true) (h : SortedRegions a.regions) (position : CInt)
    (k : ℤ) : getPreviousMark a.regions position.toInt = some k ↔
      ∃ r, clStruc2cpos (.struc a) k = (some r, .ok) ∧ r.1 ≤ position.toInt ∧ position.toInt ≤ r.2 := by
  rw [getPreviousMark_eq_some_iff h]
  refine ⟨fun ⟨h0, r, hget, hin⟩ => ⟨r, (clStruc2cpos_eq_iff hdata k r).mpr ⟨h0, hget⟩, hin⟩, fun ⟨r, hr, hin⟩ => ?_⟩
  obtain ⟨h0, hget⟩ := (clStruc2cpos_eq_iff hdata k r).mp hr
  exact ⟨h0, r, hget, hin⟩

theorem clCpos2struc_eq_iff (hdata : a.strucData = true) (position k : ℤ) :
    clCpos2struc (.struc a) position = (k, .ok) ↔ getPreviousMark a.regions position = some k := by
  rw [clCpos2struc, if_neg (by simp [hdata])]
  cases getPreviousMark a.regions position with
  | none => simp [Cda.fail]
  | some struc => simp

theorem clCpos2struc2cpos_of_some (hdata : a.strucData = true) {position k : ℤ} {r : ℤ × ℤ}
    (hk : getPreviousMark a.regions position = some k) (hr : clStruc2cpos (.struc a) k = (some r, .ok)) :
    clCpos2struc2cpos (.struc a) position = (some r, .ok) := by
  rw [clCpos2struc2cpos, if_neg (by simp [hdata]), hk]
  simp only [((clStruc2cpos_eq_iff hdata k r).mp hr).2]

theorem clCpos2struc2cpos_of_none (hdata : a.strucData = true) {position : ℤ}
    (hk : getPreviousMark a.regions position = none) : clCpos2struc2cpos (.struc a) position = (none, .estruc) := by
  rw [clCpos2struc2cpos, if_neg (by simp [hdata]), hk]

theorem clCpos2boundary_of_some {att : ClAttribute} {position : ℤ} {r : ℤ × ℤ} {errno : Cda}
    (hr : clCpos2struc2cpos att position = (some r, errno)) :
    ∃ flags : ℕ, clCpos2boundary att position = flags ∧ flags &&& STRUC_INSIDE ≠ 0 ∧
      (flags &&& STRUC_LBOUND ≠ 0 ↔ position = r.1) ∧ (flags &&& STRUC_RBOUND ≠ 0 ↔ position = r.2) := by
  rw [clCpos2boundary, hr]
  refine ⟨_, rfl, ?_⟩
  by_cases hs : position = r.1
  · by_cases he : position = r.2
    · simp only [if_pos hs, if_pos he]
      exact ⟨by decide, ⟨fun _ => hs, fun _ => by decide⟩, fun _ => he, fun _ => by decide⟩
    · simp only [if_pos hs, if_neg he]
      exact ⟨by decide, ⟨fun _ => hs, fun _ => by decide⟩, fun h => absurd rfl h, fun h => absurd h he⟩
  · by_cases he : position = r.2
    · simp only [if_neg hs, if_pos he]
      exact ⟨by decide, ⟨fun h => absurd rfl h, fun h => absurd h hs⟩, fun _ => he, fun _ => by decide⟩
    · simp only [if_neg hs, if_neg he]
      exact ⟨by decide, ⟨fun h => absurd rfl h, fun h => absurd h hs⟩, fun h => absurd rfl h, fun h => absurd h he⟩

/-- The regions that contain a position. -/
def StrucAttribute.Contains (a : StrucAttribute) (k : ℤ) (s e : ℤ) (position : CInt) : Prop :=
  clStruc2cpos (.struc a) k = (some (s, e), .ok) ∧ s ≤ position.toInt ∧ position.toInt ≤ e

/-- The look-up of a position in the regions of a structural attribute. -/
theorem regionLookup_exact (hdata : a.strucData = true) (h : SortedRegions a.regions) (position : CInt) :
    (∀ k, getPreviousMark a.regions position.toInt = some k ↔ ∃ s e, a.Contains k s e position) ∧
    (∀ k, clCpos2struc (.struc a) position.toInt = (k, .ok) ↔ ∃ s e, a.Contains k s e position) ∧
    (∀ k s e, a.Contains k s e position →
      clCpos2struc2cpos (.struc a) position.toInt = (some (s, e), .ok) ∧
      ∃ flags : ℕ, clCpos2boundary (.struc a) position.toInt = flags ∧ flags &&& STRUC_INSIDE ≠ 0 ∧
        (flags &&& STRUC_LBOUND ≠ 0 ↔ position.toInt = s) ∧ (flags &&& STRUC_RBOUND ≠ 0 ↔ position.toInt = e)) ∧
    ((∀ k s e, ¬a.Contains k s e position) →
      getPreviousMark a.regions position.toInt = none ∧ clCpos2struc (.struc a) position.toInt = Cda.estruc.fail ∧
      clCpos2struc2cpos (.struc a) position.toInt = (none, .estruc) ∧ clCpos2boundary (.struc a) position.toInt = 0) := by
  have hmark : ∀ k, getPreviousMark a.regions position.toInt = some k ↔ ∃ s e, a.Contains k s e position := fun k => by
    rw [getPreviousMark_eq_some_iff_clStruc2cpos hdata h]
    exact ⟨fun ⟨r, hr, hin⟩ => ⟨r.1, r.2, hr, hin⟩, fun ⟨s, e, hr, hin⟩ => ⟨(s, e), hr, hin⟩⟩
  refine ⟨hmark, fun k => (clCpos2struc_eq_iff hdata _ k).trans (hmark k), fun k s e hin => ?_, fun hno => ?_⟩
  · have hcpos := clCpos2struc2cpos_of_some hdata ((hmark k).mpr ⟨s, e, hin⟩) hin.1
    exact ⟨hcpos, clCpos2boundary_of_some hcpos⟩
  · have hnone : getPreviousMark a.regions position.toInt = none := by
      rw [Option.eq_none_iff_forall_ne_some]
      intro k hk
      obtain ⟨s, e, hin⟩ := (hmark k).mp hk
      exact hno k s e hin
    have hcpos := clCpos2struc2cpos_of_none hdata hnone
    refine ⟨hnone, ?_, hcpos, ?_⟩
    · rw [clCpos2struc, if_neg (by simp [hdata]), hnone]
    · rw [clCpos2boundary, hcpos]
      rfl

/-- Adjacent regions, one of them of a single token; a position far below the corpus is in none. -/
theorem regionLookup_exact_adjacent :
    let a : StrucAttribute := { regions := [(1, 3), (4, 4), (7, 9)], values := none, strucData := true, strucValues := false }
    clCpos2struc (.struc a) 4 = ((1 : ℤ), .ok) ∧ clCpos2struc (.struc a) (-2147483648) = Cda.estruc.fail := by
  intro a
  have h : SortedRegions a.regions := ⟨by decide, by decide⟩
  refine ⟨((regionLookup_exact (a := a) rfl h 4).2.1 1).mpr ⟨4, 4, rfl, by decide, by decide⟩, ?_⟩
  refine ((regionLookup_exact (a := a) rfl h (BitVec.intMin 32)).2.2.2 fun k s e hin => ?_).2.1
  obtain ⟨h0, hget⟩ := (clStruc2cpos_eq_iff rfl k (s, e)).mp hin.1
  have hs : 0 ≤ s := (h.fits _ (mem_of_getElem? hget)).1
  have hlow : (BitVec.intMin 32).toInt = -2147483648 := by decide
  have hle := hin.2.1
  omega

end Regions

end CWB.Cqi
