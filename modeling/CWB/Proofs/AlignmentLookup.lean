import CWB.Proofs.RegionLookup
import CWB.Spec.AlignedRegion

/-! The binary search of `get_alignment` among the boundaries of an alignment in the old format. -/

namespace CWB.Cqi

open Option List

section Alignment

/-- The boundaries of an alignment: strictly increasing in the source corpus. -/
structure SortedBoundaries (boundaries : List (ℤ × ℤ)) : Prop where
  fits : ∀ b ∈ boundaries, Fits b.1
  ascending : boundaries.Pairwise fun b b' => b.1 < b'.1

/-- A larger memory changes nothing for a search that stays inside the smaller one. -/
theorem getAlignmentLoop_mono {source source' : ℤ → Option CInt} (h : ∀ k v, source k = some v → source' k = some v)
    {position : CInt} {nr : ℕ} {low high r : ℤ} (hr : getAlignmentLoop source position nr low high = some r) :
    getAlignmentLoop source' position nr low high = some r := by
  induction nr generalizing low high with
  | zero => exact hr
  | succ nr ih =>
    rw [getAlignmentLoop] at hr ⊢
    by_cases hle : low ≤ high
    · simp only [if_pos hle, bind_eq_bind, bind_eq_some_iff] at hr ⊢
      obtain ⟨start, hstart, hr⟩ := hr
      refine ⟨start, h _ _ hstart, ?_⟩
      by_cases h0 : (position - start).toInt = 0
      · rw [if_pos h0] at hr ⊢
        exact hr
      · rw [if_neg h0] at hr ⊢
        by_cases hpos : (position - start).toInt > 0
        · simp only [if_pos hpos, bind_eq_some_iff] at hr ⊢
          obtain ⟨next, hnext, hr⟩ := hr
          refine ⟨next, h _ _ hnext, ?_⟩
          by_cases hlt : position.toNat < next.toNat
          · rw [if_pos hlt] at hr ⊢
            exact hr
          · rw [if_neg hlt] at hr ⊢
            exact ih hr
        · rw [if_neg hpos] at hr ⊢
          by_cases hfirst : (low + high) / 2 = low
          · rw [if_pos hfirst] at hr ⊢
            exact hr
          · rw [if_neg hfirst] at hr ⊢
            exact ih hr
    · rw [if_neg hle] at hr ⊢
      exact hr

variable {n : ℤ} {b : ℤ → ℤ} {source : ℤ → Option CInt} {x low high : ℤ}

/-- The memory of a component with `n` boundaries `b`. -/
structure Boundaries (n : ℤ) (b : ℤ → ℤ) (source : ℤ → Option CInt) : Prop where
  source_eq : ∀ k, 0 ≤ k → k < n → source k = some (BitVec.ofInt 32 (b k))
  behind : source n = none
  fits : ∀ k, 0 ≤ k → k < n → Fits (b k)
  lt : ∀ i j, 0 ≤ i → i < j → j < n → b i < b j

theorem Boundaries.le (h : Boundaries n b source) {i j : ℤ} (h0 : 0 ≤ i) (hij : i ≤ j) (hj : j < n) : b i ≤ b j := by
  rcases hij.lt_or_eq with hlt | rfl
  · exact (h.lt i j h0 hlt hj).le
  · exact le_rfl

/-- One round, inside the component -/
theorem Boundaries.round (h : Boundaries n b source) (hx : Fits x) (hlow : 0 ≤ low) (hle : low ≤ high) (hhigh : high < n)
    (nr : ℕ) {mid : ℤ} (hmid : mid = (low + high) / 2) :
    getAlignmentLoop source (BitVec.ofInt 32 x) (nr + 1) low high =
      if x = b mid then some mid
      else if b mid < x then
        (source (mid + 1)).bind fun next =>
          if (BitVec.ofInt 32 x).toNat < next.toNat then some mid
          else getAlignmentLoop source (BitVec.ofInt 32 x) nr (mid + 1) high
      else if mid = low then some (-1)
      else getAlignmentLoop source (BitVec.ofInt 32 x) nr low (mid - 1) := by
  have h0 : 0 ≤ mid := by omega
  have hn : mid < n := by omega
  rw [getAlignmentLoop, if_pos hle]
  simp only [← hmid, h.source_eq mid h0 hn, bind_eq_bind, bind_some, hx.sub_toInt (h.fits mid h0 hn)]
  congr 1
  · exact propext (by omega)
  · congr 1
    exact propext (by omega)

/-- Inside the component a search goes on to the right exactly if the next boundary is not behind `x`. -/
theorem Boundaries.next (h : Boundaries n b source) (hx : Fits x) {k : ℤ} (h0 : 0 ≤ k) (hk : k + 1 < n) {r r' : Option ℤ} :
    ((source (k + 1)).bind fun next => if (BitVec.ofInt 32 x).toNat < next.toNat then r else r') =
      if x < b (k + 1) then r else r' := by
  have hfits := h.fits (k + 1) (by omega) hk
  rw [h.source_eq (k + 1) (by omega) hk, bind_some]
  congr 1
  have := hfits.toNat_le_iff hx
  exact propext (by omega)

/-- The bead that starts at or before `x` and ends behind it is found, and so is the last boundary
if it is `x` itself. -/
theorem Boundaries.found (h : Boundaries n b source) (hx : Fits x) {i : ℤ} (hi : b i ≤ x)
    (hbead : i + 1 < n → x < b (i + 1)) (hlast : i + 1 = n → x = b i) (nr : ℕ) (hlow : 0 ≤ low) (hli : low ≤ i)
    (hih : i ≤ high) (hhigh : high < n) (hrounds : high - low + 1 < (2 ^ nr : ℕ)) :
    getAlignmentLoop source (BitVec.ofInt 32 x) nr low high = some i := by
  induction nr generalizing low high with
  | zero =>
    rw [Nat.pow_zero] at hrounds
    omega
  | succ nr ih =>
    rw [Nat.pow_succ] at hrounds
    have hround := h.round hx hlow (hli.trans hih) hhigh nr rfl
    set mid := (low + high) / 2 with hmid
    have hmlow : low ≤ mid := by omega
    have hmhigh : mid ≤ high := by omega
    rw [hround]
    rcases lt_trichotomy mid i with hlt | heq | hgt
    · -- a boundary to the left of the bead is passed
      have hb := h.lt mid i (by omega) hlt (by omega)
      have hb' := h.le (show 0 ≤ mid + 1 by omega) (show mid + 1 ≤ i by omega) (by omega)
      rw [if_neg (by omega), if_pos (by omega), h.next hx (by omega) (by omega), if_neg (by omega)]
      exact ih (by omega) (by omega) hih hhigh (by omega)
    · rw [heq]
      by_cases heqx : x = b i
      · rw [if_pos heqx]
      · have hin : i + 1 < n := by
          by_contra hge
          exact heqx (hlast (by omega))
        rw [if_neg heqx, if_pos (by omega), h.next hx (by omega) hin, if_pos (hbead hin)]
    · have hb := hbead (by omega)
      have hb' := h.le (show 0 ≤ i + 1 by omega) (show i + 1 ≤ mid by omega) (by omega)
      rw [if_neg (by omega), if_neg (by omega), if_neg (by omega)]
      exact ih hlow hli (by omega) (by omega) (by omega)

/-- In front of the first boundary nothing is found. -/
theorem Boundaries.before (h : Boundaries n b source) (hx : Fits x) (hfirst : 0 < n → x < b 0) (nr : ℕ) (hlow : 0 ≤ low)
    (hhigh : high < n) : getAlignmentLoop source (BitVec.ofInt 32 x) nr low high = some (-1) := by
  induction nr generalizing low high with
  | zero => rfl
  | succ nr ih =>
    by_cases hle : low ≤ high
    · have hround := h.round hx hlow hle hhigh nr rfl
      set mid := (low + high) / 2 with hmid
      have hb := h.le le_rfl (show 0 ≤ mid by omega) (by omega)
      have := hfirst (by omega)
      rw [hround, if_neg (by omega), if_neg (by omega)]
      by_cases hml : mid = low
      · rw [if_pos hml]
      · rw [if_neg hml]
        exact ih hlow (by omega)
    · rw [getAlignmentLoop, if_neg hle]

/-- Behind the last boundary the search reads behind the data. -/
theorem Boundaries.behind_last (h : Boundaries n b source) (hx : Fits x) (hlast : b (n - 1) < x) (nr : ℕ)
    (hlow : 0 ≤ low) (hle : low ≤ n - 1) (hrounds : n - low < (2 ^ nr : ℕ)) :
    getAlignmentLoop source (BitVec.ofInt 32 x) nr low (n - 1) = none := by
  induction nr generalizing low with
  | zero =>
    rw [Nat.pow_zero] at hrounds
    omega
  | succ nr ih =>
    rw [Nat.pow_succ] at hrounds
    have hround := h.round hx hlow hle (by omega) nr rfl
    set mid := (low + (n - 1)) / 2 with hmid
    have hb := h.le (show 0 ≤ mid by omega) (show mid ≤ n - 1 by omega) (by omega)
    rw [hround, if_neg (by omega), if_pos (by omega)]
    by_cases hend : mid + 1 = n
    · rw [hend, h.behind]
      rfl
    · have hb' := h.le (show 0 ≤ mid + 1 by omega) (show mid + 1 ≤ n - 1 by omega) (by omega)
      rw [h.next hx (by omega) (by omega), if_neg (by omega)]
      exact ih (by omega) (by omega) (by omega)

theorem exists_bead (b : ℤ → ℤ) {x : ℤ} (h0 : b 0 ≤ x) {m : ℕ} (hm : x < b m) :
    ∃ i : ℤ, 0 ≤ i ∧ i < m ∧ b i ≤ x ∧ x < b (i + 1) := by
  induction m with
  | zero => exact absurd hm (by push_cast; omega)
  | succ m ih =>
    by_cases hlt : x < b m
    · obtain ⟨i, hi, him, hin⟩ := ih hlt
      exact ⟨i, hi, by push_cast; omega, hin⟩
    · exact ⟨m, by omega, by push_cast; omega, by omega, by exact_mod_cast hm⟩

variable {boundaries : List (ℤ × ℤ)}

def boundary (boundaries : List (ℤ × ℤ)) (k : ℤ) : ℤ := (boundaries.getD k.toNat (0, 0)).1

theorem boundary_natCast {k : ℕ} (hk : k < boundaries.length) : boundary boundaries k = (boundaries[k]).1 := by
  rw [boundary, Int.toNat_natCast, getD_eq_getElem _ _ hk]

theorem SortedBoundaries.inMemory (h : SortedBoundaries boundaries) :
    Boundaries boundaries.length (boundary boundaries)
      fun k => boundaries[k.toNat]?.map fun boundary => BitVec.ofInt 32 boundary.1 where
  source_eq k h0 hk := by
    obtain ⟨k, rfl⟩ := Int.eq_ofNat_of_zero_le h0
    have hlt : k < boundaries.length := by omega
    rw [boundary_natCast hlt, Int.toNat_natCast, getElem?_eq_getElem hlt, map_some]
  behind := by simp
  fits k h0 hk := by
    obtain ⟨k, rfl⟩ := Int.eq_ofNat_of_zero_le h0
    have hlt : k < boundaries.length := by omega
    rw [boundary_natCast hlt]
    exact h.fits _ (getElem_mem hlt)
  lt i j h0 hij hj := by
    obtain ⟨i, rfl⟩ := Int.eq_ofNat_of_zero_le h0
    obtain ⟨j, rfl⟩ := Int.eq_ofNat_of_zero_le (h0.trans hij.le)
    rw [boundary_natCast (show i < boundaries.length by omega), boundary_natCast (show j < boundaries.length by omega)]
    exact pairwise_iff_getElem.mp h.ascending _ _ (by omega) (by omega) (by omega)

theorem SortedBoundaries.length_le (h : SortedBoundaries boundaries) : boundaries.length ≤ 2 ^ 31 := by
  have hle : ∀ k (hk : k < boundaries.length), (k : ℤ) ≤ (boundaries[k]).1 := fun k hk => by
    induction k with
    | zero => exact (h.fits _ (getElem_mem hk)).1
    | succ k ih =>
      have hprev := ih (by omega)
      have hlt := pairwise_iff_getElem.mp h.ascending k (k + 1) (by omega) hk (by omega)
      push_cast
      omega
  rcases Nat.eq_zero_or_pos boundaries.length with h0 | hpos
  · omega
  · have hlast := hle (boundaries.length - 1) (by omega)
    have := (h.fits _ (getElem_mem (show boundaries.length - 1 < boundaries.length by omega))).2
    omega

/-- The rounds of `get_alignment` are enough. -/
theorem SortedBoundaries.rounds (h : SortedBoundaries boundaries) {nr : ℕ} (hnr : 32 ≤ nr) : boundaries.length < 2 ^ nr := by
  have hpow : 2 ^ 32 ≤ 2 ^ nr := Nat.pow_le_pow_right (by omega) hnr
  have := h.length_le
  omega

theorem getAlignmentBefore_of_some {position r : ℤ} (hr : getAlignment boundaries position = some r) (following : ℤ) :
    getAlignmentBefore boundaries following position = r := by
  rw [getAlignmentBefore, getAlignmentLoop_mono (fun k v hv => ?_) hr]
  · rfl
  · obtain ⟨b, hb, rfl⟩ := map_eq_some_iff.mp hv
    obtain ⟨hlt, rfl⟩ := List.getElem?_eq_some_iff.mp hb
    rw [getD_eq_getElem _ _ (by simpa using hlt), getElem_map]

/-- What `get_alignment` finds at a position: a bead, the last boundary, nothing in front of the first
boundary, and behind the last one it leaves the component. -/
theorem getAlignment_spec (h : SortedBoundaries boundaries) {x : ℤ} (hx : Fits x) :
    (∀ i : ℕ, ∀ hi : i < boundaries.length, (boundaries[i]).1 ≤ x →
      (∀ hi' : i + 1 < boundaries.length, x < (boundaries[i + 1]).1) →
      (i + 1 = boundaries.length → x = (boundaries[i]).1) → getAlignment boundaries x = some (i : ℤ)) ∧
    ((∀ h0 : 0 < boundaries.length, x < (boundaries[0]).1) → getAlignment boundaries x = some (-1)) ∧
    ∀ i : ℕ, ∀ hi : i < boundaries.length, i + 1 = boundaries.length → (boundaries[i]).1 < x →
      getAlignment boundaries x = none := by
  have hb := h.inMemory
  have hrounds := h.rounds (show 32 ≤ 100000 by omega)
  refine ⟨fun i hi hle hbead hlast => ?_, fun hfirst => ?_, fun i hi hlast hlt => ?_⟩
  · apply hb.found hx
    · rw [boundary_natCast hi]; exact hle
    · intro hi'
      have := hbead (by omega)
      rw [show (i : ℤ) + 1 = (i + 1 : ℕ) by push_cast; rfl, boundary_natCast (by omega)]
      exact this
    · intro heq
      rw [boundary_natCast hi]
      exact hlast (by omega)
    · omega
    · omega
    · omega
    · omega
    · generalize 2 ^ 100000 = m at *
      omega
  · apply hb.before hx
    · intro h0
      have := hfirst (by omega)
      rw [← boundary_natCast] at this
      exact this
    · omega
    · omega
  · apply hb.behind_last hx
    · rw [show (boundaries.length : ℤ) - 1 = (i : ℕ) by omega, boundary_natCast hi]
      exact hlt
    · omega
    · omega
    · generalize 2 ^ 100000 = m at *
      omega

/-- An attribute with such an alignment; `following` is what lies behind the component in memory. -/
def alignAttribute (boundaries : List (ℤ × ℤ)) (following : ℤ) : ClAttribute :=
  .align { data := .align boundaries following, alignData := true }

/-- The look-up of a position that only returns usable alignments, finds every bead, and reads no
boundary that the component does not have. -/
structure UsableLookup (boundaries : List (ℤ × ℤ)) (following : ℤ) (cpos : ℤ) : Prop where
  usable : ∀ k, (clCpos2alg (alignAttribute boundaries following) cpos).1 = k → 0 ≤ k →
    k < (clMaxAlg (alignAttribute boundaries following)).1 ∧
    ∃ s e s' e', clAlg2cpos (alignAttribute boundaries following) k = (some (s, e, s', e'), .ok) ∧ s ≤ cpos ∧ cpos ≤ e
  found : ∀ (i : ℕ) b b', boundaries[i]? = some b → boundaries[i + 1]? = some b' → b.1 ≤ cpos → cpos < b'.1 →
    clCpos2alg (alignAttribute boundaries following) cpos = ((i : ℤ), .ok)
  reads : getAlignment boundaries cpos ≠ none

theorem clCpos2alg_of_some {cpos r : ℤ} (hr : getAlignment boundaries cpos = some r) (following : ℤ) :
    clCpos2alg (alignAttribute boundaries following) cpos = if r ≥ 0 then (r, .ok) else Cda.eposorng.fail := by
  simp [clCpos2alg, alignAttribute, getAlignmentBefore_of_some hr]

theorem clMaxAlg_alignAttribute (following : ℤ) :
    clMaxAlg (alignAttribute boundaries following) = ((boundaries.length : ℤ) - 1, .ok) := rfl

theorem clAlg2cpos_bead {i : ℕ} (hi : i + 1 < boundaries.length) (following : ℤ) :
    clAlg2cpos (alignAttribute boundaries following) i =
      (some ((boundaries[i]).1, (boundaries[i + 1]).1 - 1, (boundaries[i]).2, (boundaries[i + 1]).2 - 1), .ok) := by
  simp only [clAlg2cpos, alignAttribute, not_true_eq_false, if_false, Int.toNat_natCast]
  rw [if_neg (by omega), getD_eq_getElem _ _ (show i < boundaries.length by omega), getD_eq_getElem _ _ hi]

/-- Beads of strictly increasing boundaries do not overlap. -/
theorem SortedBoundaries.bead_unique (h : SortedBoundaries boundaries) {i j : ℕ} (hi : i + 1 < boundaries.length)
    (hj : j + 1 < boundaries.length) {x : ℤ} (hix : (boundaries[i]).1 ≤ x ∧ x < (boundaries[i + 1]).1)
    (hjx : (boundaries[j]).1 ≤ x ∧ x < (boundaries[j + 1]).1) : i = j := by
  have hle : ∀ k l (hkl : k ≤ l) (hl : l < boundaries.length), (boundaries[k]).1 ≤ (boundaries[l]).1 := fun k l hkl hl => by
    rcases hkl.lt_or_eq with hlt | rfl
    · exact (pairwise_iff_getElem.mp h.ascending k l (by omega) hl hlt).le
    · exact le_rfl
  rcases Nat.lt_trichotomy i j with hlt | heq | hgt
  · have := hle (i + 1) j hlt (by omega)
    omega
  · exact heq
  · have := hle (j + 1) i hgt (by omega)
    omega

theorem usableLookup_of_bead (h : SortedBoundaries boundaries) {cpos : ℤ} (hx : Fits cpos) {i : ℕ}
    (hi : i + 1 < boundaries.length) (hle : (boundaries[i]).1 ≤ cpos) (hlt : cpos < (boundaries[i + 1]).1) (following : ℤ) :
    UsableLookup boundaries following cpos := by
  have hfound := (getAlignment_spec h hx).1 i (by omega) hle (fun _ => hlt) (by omega)
  have hcpos := clCpos2alg_of_some hfound following
  rw [if_pos (by omega)] at hcpos
  refine ⟨fun k hk _ => ?_, fun j b b' hb hb' hbx hbx' => ?_, by rw [hfound]; simp⟩
  · rw [hcpos] at hk
    obtain rfl : k = i := hk.symm
    refine ⟨by rw [clMaxAlg_alignAttribute]; simp only; omega, _, _, _, _, clAlg2cpos_bead hi following, hle, by omega⟩
  · obtain ⟨hj, rfl⟩ := List.getElem?_eq_some_iff.mp hb
    obtain ⟨hj', rfl⟩ := List.getElem?_eq_some_iff.mp hb'
    rw [hcpos, h.bead_unique hj' hi ⟨hbx, hbx'⟩ ⟨hle, hlt⟩]

theorem usableLookup_of_before (h : SortedBoundaries boundaries) {cpos : ℤ} (hx : Fits cpos)
    (hfirst : ∀ h0 : 0 < boundaries.length, cpos < (boundaries[0]).1) (following : ℤ) :
    UsableLookup boundaries following cpos := by
  have hfound := (getAlignment_spec h hx).2.1 hfirst
  have hcpos := clCpos2alg_of_some hfound following
  rw [if_neg (by omega)] at hcpos
  refine ⟨fun k hk h0 => ?_, fun j b b' hb hb' hbx _ => ?_, by rw [hfound]; simp⟩
  · rw [hcpos] at hk
    have : Cda.eposorng.toInt = -4 := rfl
    simp only [Cda.fail] at hk
    omega
  · obtain ⟨hj, rfl⟩ := List.getElem?_eq_some_iff.mp hb
    have h0 := hfirst (by omega)
    rcases Nat.eq_zero_or_pos j with rfl | hpos
    · omega
    · have := pairwise_iff_getElem.mp h.ascending 0 j (by omega) hj hpos
      omega

/-- `get_alignment` meets this at the positions in front of the last boundary, and nowhere else. -/
theorem usableLookup_iff (h : SortedBoundaries boundaries) {cpos : ℤ} (hx : Fits cpos) (following : ℤ) :
    UsableLookup boundaries following cpos ↔ ∀ last ∈ boundaries.getLast?, cpos < last.1 := by
  rcases Nat.eq_zero_or_pos boundaries.length with h0 | hpos
  · rw [length_eq_zero_iff.mp h0]
    exact ⟨by simp, fun _ => usableLookup_of_before ⟨by simp, by simp⟩ hx (by simp) following⟩
  have hlast : boundaries.getLast? = some (boundaries[boundaries.length - 1]) := by
    rw [getLast?_eq_getElem?, getElem?_eq_getElem]
  rw [hlast]
  simp only [mem_def, some.injEq, forall_eq']
  refine ⟨fun husable => ?_, fun hlt => ?_⟩
  · by_contra hge
    rcases (not_lt.mp hge).lt_or_eq with hbehind | heq
    · exact husable.reads ((getAlignment_spec h hx).2.2 (boundaries.length - 1) (by omega) (by omega) hbehind)
    · -- the last boundary itself, which opens no bead
      have hfound := (getAlignment_spec h hx).1 (boundaries.length - 1) (by omega) heq.le (by omega) fun _ => heq.symm
      have hcpos := clCpos2alg_of_some hfound following
      rw [if_pos (by omega)] at hcpos
      have := (husable.usable _ (by rw [hcpos]) (by omega)).1
      rw [clMaxAlg_alignAttribute] at this
      simp only at this
      omega
  · by_cases hfirst : cpos < (boundaries[0]).1
    · exact usableLookup_of_before h hx (fun _ => hfirst) following
    · obtain ⟨i, hi0, hi, hle, hlt'⟩ := exists_bead (boundary boundaries) (x := cpos) (m := boundaries.length - 1)
        (by rw [show (0 : ℤ) = (0 : ℕ) by rfl, boundary_natCast hpos]; omega) (by rw [boundary_natCast (by omega)]; exact hlt)
      obtain ⟨i, rfl⟩ := Int.eq_ofNat_of_zero_le hi0
      rw [boundary_natCast (by omega)] at hle
      rw [show (i : ℤ) + 1 = (i + 1 : ℕ) by push_cast; rfl, boundary_natCast (by omega)] at hlt'
      exact usableLookup_of_bead h hx (by omega) hle hlt' following

/-- Two beads; a position in the second one. -/
theorem usableLookup_iff_two : UsableLookup [(0, 0), (5, 7), (12, 9)] 0 11 :=
  (usableLookup_iff ⟨by unfold Fits; decide, by decide⟩ ⟨by decide, by decide⟩ 0).mpr (by decide)

/-- At the last boundary the alignment that is returned does not exist; behind it the search leaves the component. -/
theorem not_usableLookup :
    ¬∀ boundaries, SortedBoundaries boundaries → ∀ cpos, Fits cpos → ∀ following, UsableLookup boundaries following cpos := by
  intro hall
  have h := hall [(0, 0), (10, 10)] ⟨by unfold Fits; decide, by decide⟩ 10 ⟨by decide, by decide⟩ 0
  have hbad := (h.usable 1 (by decide) (by norm_num)).1
  revert hbad
  decide

end Alignment

/-! The beads that `cl_cpos2alg` and `cl_alg2cpos` find, for the alignments of both formats. A position without a bead gets
no number, or behind the last boundary of the old format one that no bead has. -/

/-- Behind the last boundary, or on it, the number is that of the last boundary or none, whatever follows in memory. -/
theorem getAlignmentLoop_behind {n : ℤ} {b : ℤ → ℤ} {source : ℤ → CInt} {x : ℤ} (hx : Fits x)
    (hsource : ∀ k, 0 ≤ k → k < n → source k = BitVec.ofInt 32 (b k) ∧ Fits (b k)) (hle : ∀ k, 0 ≤ k → k < n → b k ≤ x)
    (nr : ℕ) {low : ℤ} (hlow : 0 ≤ low) (hlt : ∀ k, low ≤ k → k + 1 < n → b k < x) :
    ∃ alg, getAlignmentLoop (fun k => some (source k)) (BitVec.ofInt 32 x) nr low (n - 1) = some alg ∧
      (alg = -1 ∨ alg = n - 1) := by
  induction nr generalizing low with
  | zero => exact ⟨-1, rfl, .inl rfl⟩
  | succ nr ih =>
    rw [getAlignmentLoop]
    by_cases hwin : low ≤ n - 1
    · set mid := (low + (n - 1)) / 2 with hmid
      have h0 : 0 ≤ mid := by omega
      have hn : mid < n := by omega
      obtain ⟨hvalue, hfits⟩ := hsource mid h0 hn
      have hbx := hle mid h0 hn
      simp only [if_pos hwin, bind_eq_bind, bind_some, hvalue, hx.sub_toInt hfits]
      by_cases hend : mid + 1 < n
      · obtain ⟨hvalue', hfits'⟩ := hsource (mid + 1) (by omega) hend
        have hbx' := hle (mid + 1) (by omega) hend
        have hless := hlt mid (by omega) hend
        have hnext := (hfits'.toNat_le_iff hx).mpr hbx'
        rw [if_neg (by omega), if_pos (by omega), hvalue', if_neg (by omega)]
        exact ih (by omega) fun k hk => hlt k (by omega)
      · -- the last boundary
        have hlast : mid = n - 1 := by omega
        by_cases heq : x - b mid = 0
        · rw [if_pos heq]
          exact ⟨mid, rfl, .inr hlast⟩
        · rw [if_neg heq, if_pos (by omega)]
          split_ifs
          · exact ⟨mid, rfl, .inr hlast⟩
          · exact ih (by omega) fun k hk => hlt k (by omega)
    · rw [if_neg hwin]
      exact ⟨-1, rfl, .inl rfl⟩

/-- The bead `bead` has the number `i`, which is found at `x`. -/
def BeadAt (data : AlignData) (x : ℤ) (bead : (ℤ × ℤ) × (ℤ × ℤ)) : Prop :=
  ∃ i : ℤ, 0 ≤ i ∧ (clCpos2alg (.align { data, alignData := true }) x).1 = i ∧
    (clAlg2cpos (.align { data, alignData := true }) i).1 = some (bead.1.1, bead.1.2, bead.2.1, bead.2.2)

/-- No number, or one without a bead, is found at `x`. -/
def NoBeadAt (data : AlignData) (x : ℤ) : Prop :=
  (clCpos2alg (.align { data, alignData := true }) x).1 < 0 ∨
    (clAlg2cpos (.align { data, alignData := true }) (clCpos2alg (.align { data, alignData := true }) x).1).1 = none

/-- The look-up of a position: the bead whose source region contains it, if there is one. -/
structure Located (data : AlignData) (x : ℤ) : Prop where
  found : ∀ bead ∈ data.beads, bead.1.1 ≤ x → x ≤ bead.1.2 → BeadAt data x bead
  missed : (∀ bead ∈ data.beads, ¬(bead.1.1 ≤ x ∧ x ≤ bead.1.2)) → NoBeadAt data x

section Extended

variable {beads : List ((ℤ × ℤ) × (ℤ × ℤ))} (h : (AlignData.xalign beads).Ascending)

include h

theorem ascending_beads : RegionSearch.Ascending (fun k => (beads.getD k.toNat ((0, 0), 0, 0)).1.1)
    (fun k => (beads.getD k.toNat ((0, 0), 0, 0)).1.2) 0 ((beads.length : ℤ) - 1) where
  nonempty k h0 hk := by
    obtain ⟨k, rfl⟩ := Int.eq_ofNat_of_zero_le h0
    rw [Int.toNat_natCast, getD_eq_getElem _ _ (show k < beads.length by omega)]
    exact (h.1 _ (getElem_mem _)).2.2
  apart i j h0 hij hj := by
    obtain ⟨i, rfl⟩ := Int.eq_ofNat_of_zero_le h0
    obtain ⟨j, rfl⟩ := Int.eq_ofNat_of_zero_le (h0.trans hij.le)
    rw [Int.toNat_natCast, Int.toNat_natCast, getD_eq_getElem _ _ (show i < beads.length by omega),
      getD_eq_getElem _ _ (show j < beads.length by omega)]
    exact pairwise_iff_getElem.mp h.2 _ _ _ _ (by omega)

theorem length_beads_lt : beads.length < 2 ^ 100000 := by
  have hsorted : SortedBoundaries (beads.map Prod.fst) := by
    refine ⟨fun b hb => ?_, ?_⟩
    · obtain ⟨bead, hbead, rfl⟩ := mem_map.mp hb
      obtain ⟨h0, hlt, -⟩ := h.1 bead hbead
      exact ⟨h0, hlt⟩
    · apply pairwise_map.mpr
      refine List.Pairwise.imp_of_mem (fun {a b} ha _ hab => ?_) h.2
      exact (h.1 a ha).2.2.trans_lt hab
  have hlength := hsorted.rounds (show 32 ≤ 100000 by omega)
  rwa [length_map] at hlength

theorem located_xalign (x : ℤ) : Located (.xalign beads) x := by
  obtain ⟨r, hr, hfound, hnone⟩ := RegionSearch.search_spec (x := x) 100000 (ascending_beads h) (by
    have := length_beads_lt h
    generalize 2 ^ 100000 = m at *
    omega)
  have halg : (clCpos2alg (.align { data := .xalign beads, alignData := true }) x).1 = r.getD Cda.ealign.toInt := by
    simp only [clCpos2alg, getExtendedAlignment, hr, not_true_eq_false, if_false]
  refine ⟨fun bead hbead hlo hhi => ?_, fun hout => ?_⟩
  · obtain ⟨i, hi, rfl⟩ := getElem_of_mem (show bead ∈ beads from hbead)
    have hin : (beads.getD (i : ℤ).toNat ((0, 0), 0, 0)).1.1 ≤ x ∧ x ≤ (beads.getD (i : ℤ).toNat ((0, 0), 0, 0)).1.2 := by
      rw [Int.toNat_natCast, getD_eq_getElem _ _ hi]
      exact ⟨hlo, hhi⟩
    cases r with
    | none => exact absurd hin (hnone rfl i (by omega) (by omega))
    | some k =>
      obtain ⟨hk0, hk1, hink⟩ := hfound k rfl
      obtain rfl := (ascending_beads h).unique (x := x) hk0 hk1 (by omega) (by omega) hink hin
      refine ⟨i, hk0, halg, ?_⟩
      simp only [clAlg2cpos, not_true_eq_false, if_false, Int.toNat_natCast]
      rw [if_neg (by omega), getD_eq_getElem _ _ hi]
  · left
    rw [halg]
    cases r with
    | none => decide
    | some k =>
      obtain ⟨hk0, hk1, hink⟩ := hfound k rfl
      obtain ⟨k, rfl⟩ := Int.eq_ofNat_of_zero_le hk0
      rw [Int.toNat_natCast, getD_eq_getElem _ _ (show k < beads.length by omega)] at hink
      exact absurd hink (hout _ (getElem_mem _))

end Extended

section OldFormat

variable {boundaries : List (ℤ × ℤ)} {following : ℤ}

theorem mem_beads_align {bead : (ℤ × ℤ) × (ℤ × ℤ)} (h : bead ∈ (AlignData.align boundaries following).beads) :
    ∃ i : ℕ, ∃ hi : i + 1 < boundaries.length,
      bead = (((boundaries[i]).1, (boundaries[i + 1]).1 - 1), ((boundaries[i]).2, (boundaries[i + 1]).2 - 1)) := by
  obtain ⟨i, hi, rfl⟩ := getElem_of_mem h
  have hlt : i + 1 < boundaries.length := by
    simp only [AlignData.beads, length_zipWith, length_tail] at hi
    omega
  refine ⟨i, hlt, ?_⟩
  simp only [AlignData.beads, getElem_zipWith, getElem_tail]

theorem bead_mem_align {i : ℕ} (hi : i + 1 < boundaries.length) :
    (((boundaries[i]).1, (boundaries[i + 1]).1 - 1), ((boundaries[i]).2, (boundaries[i + 1]).2 - 1)) ∈
      (AlignData.align boundaries following).beads := by
  have hlt : i < (AlignData.align boundaries following).beads.length := by
    simp only [AlignData.beads, length_zipWith, length_tail]
    omega
  have hmem := getElem_mem hlt
  simpa only [AlignData.beads, getElem_zipWith, getElem_tail] using hmem

theorem clCpos2alg_behind (h : SortedBoundaries boundaries) (following : ℤ) {x : ℤ} (hx : Fits x)
    (hlast : ∀ b ∈ boundaries, b.1 ≤ x) : (clCpos2alg (alignAttribute boundaries following) x).1 < 0 ∨
      (clCpos2alg (alignAttribute boundaries following) x).1 = (boundaries.length : ℤ) - 1 := by
  have hmemory : ∀ k, 0 ≤ k → k < (boundaries.length : ℤ) →
      BitVec.ofInt 32 ((boundaries.map Prod.fst).getD k.toNat following) = BitVec.ofInt 32 (boundary boundaries k) ∧
        Fits (boundary boundaries k) := by
    intro k h0 hk
    obtain ⟨k, rfl⟩ := Int.eq_ofNat_of_zero_le h0
    have hlt : k < boundaries.length := by omega
    rw [boundary_natCast hlt, Int.toNat_natCast, getD_eq_getElem _ _ (by simpa using hlt), getElem_map]
    exact ⟨rfl, h.fits _ (getElem_mem hlt)⟩
  have hle : ∀ k, 0 ≤ k → k < (boundaries.length : ℤ) → boundary boundaries k ≤ x := by
    intro k h0 hk
    obtain ⟨k, rfl⟩ := Int.eq_ofNat_of_zero_le h0
    rw [boundary_natCast (show k < boundaries.length by omega)]
    exact hlast _ (getElem_mem _)
  have hlt : ∀ k, 0 ≤ k → k + 1 < (boundaries.length : ℤ) → boundary boundaries k < x := fun k h0 hk =>
    (h.inMemory.lt k (k + 1) h0 (by omega) hk).trans_le (hle (k + 1) (by omega) hk)
  obtain ⟨alg, halg, hcases⟩ := getAlignmentLoop_behind (n := boundaries.length) hx hmemory hle 100000 le_rfl hlt
  have hbefore : getAlignmentBefore boundaries following x = alg := by
    rw [getAlignmentBefore, halg]
    rfl
  simp only [clCpos2alg, alignAttribute, not_true_eq_false, if_false, hbefore]
  rcases hcases with rfl | rfl
  · exact .inl (by decide)
  · split_ifs
    · exact .inr rfl
    · exact .inl (show Cda.eposorng.toInt < 0 by decide)

theorem located_align (h : SortedBoundaries boundaries) {x : ℤ} (hx : Fits x) : Located (.align boundaries following) x := by
  refine ⟨fun bead hbead hlo hhi => ?_, fun hout => ?_⟩
  · obtain ⟨i, hi, rfl⟩ := mem_beads_align hbead
    have hlt : x < (boundaries[i + 1]).1 := by
      simp only at hhi
      omega
    have hfound := (getAlignment_spec h hx).1 i (by omega) hlo (fun _ => hlt) (by omega)
    have hcpos := clCpos2alg_of_some hfound following
    rw [if_pos (by omega)] at hcpos
    exact ⟨i, by omega, congrArg Prod.fst hcpos, congrArg Prod.fst (clAlg2cpos_bead hi following)⟩
  · have hbefore : (∀ h0 : 0 < boundaries.length, x < (boundaries[0]).1) → NoBeadAt (.align boundaries following) x := by
      intro hfirst
      have hcpos := clCpos2alg_of_some ((getAlignment_spec h hx).2.1 hfirst) following
      rw [if_neg (by decide)] at hcpos
      exact .inl ((congrArg Prod.fst hcpos).trans_lt (by decide))
    rcases Nat.eq_zero_or_pos boundaries.length with h0 | hpos
    · exact hbefore fun hpos => absurd h0 hpos.ne'
    by_cases hfirst : x < (boundaries[0]).1
    · exact hbefore fun _ => hfirst
    · -- outside all beads, and not in front of them
      have hlast : ∀ k : ℕ, ∀ hk : k < boundaries.length, (boundaries[k]).1 ≤ x := fun k hk => by
        induction k with
        | zero => exact not_lt.mp hfirst
        | succ k ih =>
          by_contra hlt
          exact hout _ (bead_mem_align hk) ⟨ih (by omega), by simp only; omega⟩
      have hbehind := clCpos2alg_behind h following hx fun b hb => by
        obtain ⟨k, hk, rfl⟩ := getElem_of_mem hb
        exact hlast k hk
      rcases hbehind with hneg | heq
      · exact .inl hneg
      · right
        change (clAlg2cpos _ (clCpos2alg (alignAttribute boundaries following) x).1).1 = none
        rw [heq]
        simp only [clAlg2cpos, not_true_eq_false, if_false]
        rw [if_pos (by omega)]

end OldFormat

theorem AlignData.Ascending.located {data : AlignData} (h : data.Ascending) {x : ℤ} (hx : Fits x) : Located data x := by
  cases data with
  | align boundaries following => exact located_align ⟨h.1, h.2⟩ hx
  | xalign beads => exact located_xalign h x

/-- A position lies in the source region of one bead at most. -/
theorem BeadAt.unique {data : AlignData} {x : ℤ} {bead bead' : (ℤ × ℤ) × (ℤ × ℤ)} (h : BeadAt data x bead)
    (h' : BeadAt data x bead') : bead = bead' := by
  obtain ⟨i, -, hi, hbead⟩ := h
  obtain ⟨i', -, hi', hbead'⟩ := h'
  obtain rfl := hi.symm.trans hi'
  have heq := some.inj (hbead.symm.trans hbead')
  simp only [Prod.mk.injEq] at heq
  exact Prod.ext (Prod.ext heq.1 heq.2.1) (Prod.ext heq.2.2.1 heq.2.2.2)

end CWB.Cqi
