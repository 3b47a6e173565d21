import CWB.Spec.AlignEncode
import Mathlib.Data.List.GetD
import Mathlib.Tactic.NormNum

/-! The alignment beads of the input, looked up in the encoded file. -/

namespace CWB

open List

structure AlignBead where
  sourceStart : ℤ
  sourceEnd : ℤ
  targetStart : ℤ
  targetEnd : ℤ
deriving Repr, DecidableEq

def AlignLine.bead (reverse : Bool) (line : AlignLine) : AlignBead :=
  if reverse then ⟨line.f2, line.l2, line.f1, line.l1⟩ else ⟨line.f1, line.l1, line.f2, line.l2⟩

/-- The beads whose sides are not empty. -/
def keptBeads (reverse : Bool) (lines : List AlignLine) : List AlignBead :=
  (lines.filter fun line => line.f1 ≤ line.l1 ∧ line.f2 ≤ line.l2).map (AlignLine.bead reverse)

namespace AlignBead

def ints (b : AlignBead) : List ℤ := [b.sourceStart, b.sourceEnd, b.targetStart, b.targetEnd]

def cposs (b : AlignBead) : ℤ × ℤ × ℤ × ℤ := (b.sourceStart, b.sourceEnd, b.targetStart, b.targetEnd)

def Contains (b : AlignBead) (p : ℤ) : Prop := b.sourceStart ≤ p ∧ p ≤ b.sourceEnd

/-- The source regions are in ascending order and do not overlap. -/
structure Ascending (beads : List AlignBead) : Prop where
  apart : beads.Pairwise fun b b' => b.sourceEnd < b'.sourceStart
  nonempty : ∀ b ∈ beads, b.sourceStart ≤ b.sourceEnd

end AlignBead

open AlignBead

/-- The three look-up functions on the file answer as the list of beads does. -/
structure AlignSurvives (data : List ℤ) (beads : List AlignBead) : Prop where
  max : clMaxAlg data = beads.length
  alg2cpos : ∀ k : ℤ, clAlg2cpos data k = if 0 ≤ k then (beads[k.toNat]?).map cposs else none
  cpos2alg : ∀ (p : ℤ) (k : ℕ), clCpos2alg data p = k ↔ ∃ b, beads[k]? = some b ∧ b.Contains p
  cpos2alg_neg : ∀ p : ℤ, clCpos2alg data p < 0 ↔ ∀ b ∈ beads, ¬ b.Contains p

/-! ## Encoding -/

theorem keptBeads_cons (reverse : Bool) (line : AlignLine) (lines : List AlignLine) :
    keptBeads reverse (line :: lines) = if line.f1 ≤ line.l1 ∧ line.f2 ≤ line.l2
      then line.bead reverse :: keptBeads reverse lines else keptBeads reverse lines := by
  unfold keptBeads
  split_ifs with h <;> simp [h]

variable {reverse : Bool}

theorem encodeAlignLine_kept {st st' : AlignEncoder} {line : AlignLine}
    (hkept : line.f1 ≤ line.l1 ∧ line.f2 ≤ line.l2) (h : encodeAlignLine reverse st line = some st') :
    st.mark < (line.bead reverse).sourceStart ∧ st' = ⟨(line.bead reverse).sourceEnd, st.alx ++ (line.bead reverse).ints⟩ := by
  rw [encodeAlignLine, if_neg (by omega), if_neg (by omega)] at h
  obtain ⟨hmark, heq⟩ := Option.ite_none_left_eq_some.mp h
  obtain rfl := Option.some.inj heq
  cases reverse <;> exact ⟨not_le.mp hmark, rfl⟩

theorem encodeAlignLine_skipped {st st' : AlignEncoder} {line : AlignLine}
    (hskipped : ¬(line.f1 ≤ line.l1 ∧ line.f2 ≤ line.l2)) (h : encodeAlignLine reverse st line = some st') : st' = st := by
  unfold encodeAlignLine at h
  split_ifs at h with h1 h2
  · exact (Option.some.inj h).symm
  · exact (Option.some.inj h).symm
  · omega
  · omega

theorem bead_nonempty (reverse : Bool) {line : AlignLine} (h : line.f1 ≤ line.l1 ∧ line.f2 ≤ line.l2) :
    (line.bead reverse).sourceStart ≤ (line.bead reverse).sourceEnd := by
  cases reverse
  · exact h.1
  · exact h.2

/-- What the encoding loop writes, and that every bead starts after `mark`. -/
theorem encodeLoop_spec {lines : List AlignLine} {st st' : AlignEncoder}
    (h : lines.foldlM (encodeAlignLine reverse) st = some st') :
    st'.alx = st.alx ++ (keptBeads reverse lines).flatMap ints ∧ Ascending (keptBeads reverse lines) ∧
      ∀ b ∈ keptBeads reverse lines, st.mark < b.sourceStart := by
  induction lines generalizing st with
  | nil =>
    obtain rfl := Option.some.inj h
    exact ⟨by simp [keptBeads], ⟨List.Pairwise.nil, by simp [keptBeads]⟩, by simp [keptBeads]⟩
  | cons line lines ih =>
    rw [foldlM_cons] at h
    obtain ⟨st₁, hline, hlines⟩ := Option.bind_eq_some_iff.mp h
    obtain ⟨halx, hasc, hmark⟩ := ih hlines
    rw [keptBeads_cons]
    split_ifs with hkept
    · obtain ⟨hstart, rfl⟩ := encodeAlignLine_kept hkept hline
      refine ⟨?_, ⟨?_, ?_⟩, ?_⟩
      · rw [halx, flatMap_cons, append_assoc]
      · exact pairwise_cons.mpr ⟨hmark, hasc.apart⟩
      · exact forall_mem_cons.mpr ⟨bead_nonempty reverse hkept, hasc.nonempty⟩
      · refine forall_mem_cons.mpr ⟨hstart, fun b hb => ?_⟩
        exact (hstart.trans_le (bead_nonempty reverse hkept)).trans (hmark b hb)
    · obtain rfl := encodeAlignLine_skipped hkept hline
      exact ⟨halx, hasc, hmark⟩

theorem alignEncode_spec {lines : List AlignLine} {data : List ℤ} (h : alignEncode reverse lines = some data) :
    data = (keptBeads reverse lines).flatMap ints ∧ Ascending (keptBeads reverse lines) := by
  obtain ⟨st, hst, rfl⟩ := Option.map_eq_some_iff.mp h
  obtain ⟨halx, hasc, -⟩ := encodeLoop_spec hst
  exact ⟨by simpa using halx, hasc⟩

/-! ## Look-up -/

section Lookup

variable {beads : List AlignBead}

theorem length_flatMap_ints (beads : List AlignBead) : (beads.flatMap ints).length = 4 * beads.length := by
  induction beads with
  | nil => rfl
  | cons b beads ih =>
    rw [flatMap_cons, length_append, ih, length_cons]
    simp only [ints, length_cons, length_nil]
    omega

theorem getD_flatMap_ints {k : ℕ} {b : AlignBead} (hb : beads[k]? = some b) (j : ℕ) (hj : j < 4) :
    (beads.flatMap ints).getD (4 * k + j) 0 = b.ints.getD j 0 := by
  induction beads generalizing k with
  | nil => simp at hb
  | cons b' beads ih =>
    rw [flatMap_cons]
    cases k with
    | zero =>
      obtain rfl : b' = b := by simpa using hb
      rw [getD_append _ _ _ _ (by simpa [ints] using hj)]
      simp
    | succ k =>
      have hlen : b'.ints.length = 4 := rfl
      rw [getD_append_right _ _ _ _ (by omega), hlen]
      have hidx : 4 * (k + 1) + j - 4 = 4 * k + j := by omega
      rw [hidx]
      exact ih (by simpa using hb)

theorem alignData_bead {k : ℤ} {b : AlignBead} (hk : 0 ≤ k) (hb : beads[k.toNat]? = some b) :
    alignData (beads.flatMap ints) (k * 4) = b.sourceStart ∧ alignData (beads.flatMap ints) (k * 4 + 1) = b.sourceEnd ∧
      alignData (beads.flatMap ints) (k * 4 + 2) = b.targetStart ∧
      alignData (beads.flatMap ints) (k * 4 + 3) = b.targetEnd := by
  have hidx : ∀ j : ℕ, (k * 4 + j).toNat = 4 * k.toNat + j := by omega
  have hdata : ∀ j : ℕ, j < 4 → alignData (beads.flatMap ints) (k * 4 + j) = b.ints.getD j 0 := by
    intro j hj
    rw [alignData, hidx]
    exact getD_flatMap_ints hb j hj
  exact ⟨by simpa [ints] using hdata 0 (by omega), hdata 1 (by omega), hdata 2 (by omega), hdata 3 (by omega)⟩

theorem alignSize_of_lt (h : beads.length < 2 ^ 29) : alignSize (beads.flatMap ints) = 4 * beads.length := by
  unfold alignSize
  rw [length_flatMap_ints]
  push_cast
  rw [Int.bmod_def]
  norm_num
  omega

/-- The number of beads, unless the number of integers leaves the range of `int`. -/
theorem clMaxAlg_eq_iff (beads : List AlignBead) :
    clMaxAlg (beads.flatMap ints) = beads.length ↔ beads.length < 2 ^ 29 := by
  refine ⟨fun h => ?_, fun h => ?_⟩
  · have hlt : alignSize (beads.flatMap ints) < 2 ^ 31 := Int.bmod_lt (by norm_num)
    have hle : clMaxAlg (beads.flatMap ints) < 2 ^ 29 := by
      rw [clMaxAlg]
      rcases le_or_gt 0 (alignSize (beads.flatMap ints)) with hpos | hneg
      · rw [Int.tdiv_eq_ediv_of_nonneg hpos]
        omega
      · have hneg4 : (-alignSize (beads.flatMap ints)).tdiv 4 = -(alignSize (beads.flatMap ints)).tdiv 4 := Int.neg_tdiv _ _
        have hpos4 : 0 ≤ (-alignSize (beads.flatMap ints)).tdiv 4 := Int.tdiv_nonneg (by omega) (by norm_num)
        omega
    omega
  · rw [clMaxAlg, alignSize_of_lt h]
    simp

theorem getElem?_toNat {k : ℤ} (hk : 0 ≤ k) (hlt : k < beads.length) : ∃ b, beads[k.toNat]? = some b :=
  ⟨_, getElem?_eq_getElem (by omega)⟩

theorem clAlg2cpos_spec (h : beads.length < 2 ^ 29) (k : ℤ) :
    clAlg2cpos (beads.flatMap ints) k = if 0 ≤ k then (beads[k.toNat]?).map cposs else none := by
  have hsize : (alignSize (beads.flatMap ints)).tdiv 4 = beads.length := (clMaxAlg_eq_iff beads).mpr h
  unfold clAlg2cpos
  rw [hsize]
  by_cases hk : 0 ≤ k
  · rw [if_pos hk]
    by_cases hlt : k < beads.length
    · obtain ⟨b, hb⟩ := getElem?_toNat hk hlt
      obtain ⟨h0, h1, h2, h3⟩ := alignData_bead hk hb
      rw [if_neg (by omega), h0, h1, h2, h3, hb]
      rfl
    · rw [if_pos (by omega), getElem?_eq_none (by omega)]
      rfl
  · rw [if_pos (by omega), if_neg hk]

theorem ascending_alignData (hasc : Ascending beads) :
    RegionSearch.Ascending (fun mid => alignData (beads.flatMap ints) (mid * 4))
      (fun mid => alignData (beads.flatMap ints) (mid * 4 + 1)) 0 (beads.length - 1) := by
  refine ⟨fun k hl hh => ?_, fun i j hl hij hh => ?_⟩
  · obtain ⟨b, hb⟩ := getElem?_toNat hl (show k < beads.length by omega)
    obtain ⟨h0, h1, -⟩ := alignData_bead hl hb
    simp only [h0, h1]
    exact hasc.nonempty b (mem_of_getElem? hb)
  · obtain ⟨b, hb⟩ := getElem?_toNat hl (show i < beads.length by omega)
    obtain ⟨b', hb'⟩ := getElem?_toNat (show 0 ≤ j by omega) (show j < beads.length by omega)
    obtain ⟨-, h1, -⟩ := alignData_bead hl hb
    obtain ⟨h0, -⟩ := alignData_bead (show 0 ≤ j by omega) hb'
    simp only [h0, h1]
    obtain ⟨hi, rfl⟩ := List.getElem?_eq_some_iff.mp hb
    obtain ⟨hj, rfl⟩ := List.getElem?_eq_some_iff.mp hb'
    exact pairwise_iff_getElem.mp hasc.apart _ _ hi hj (by omega)

/-- The search finds the bead around a position, or fails. -/
theorem search_beads {rounds : ℕ} (hrounds : 29 ≤ rounds) (h : beads.length < 2 ^ 29) (hasc : Ascending beads) (p : ℤ) :
    ∃ r, RegionSearch.search (fun mid => alignData (beads.flatMap ints) (mid * 4))
        (fun mid => alignData (beads.flatMap ints) (mid * 4 + 1)) p rounds 0 (beads.length - 1) = some r ∧
      match r with
      | some mid => 0 ≤ mid ∧ ∃ b, beads[mid.toNat]? = some b ∧ b.Contains p
      | none => ∀ b ∈ beads, ¬ b.Contains p := by
  have hfuel : (beads.length : ℤ) - 1 - 0 + 1 < (2 ^ rounds : ℕ) := by
    have hlt : beads.length < 2 ^ rounds := h.trans_le (Nat.pow_le_pow_right (by decide) hrounds)
    omega
  have hcontains : ∀ {k : ℤ} {b : AlignBead}, 0 ≤ k → beads[k.toNat]? = some b →
      (alignData (beads.flatMap ints) (k * 4) ≤ p ∧ p ≤ alignData (beads.flatMap ints) (k * 4 + 1) ↔ b.Contains p) := by
    intro k b hk hb
    obtain ⟨h0, h1, -⟩ := alignData_bead hk hb
    rw [h0, h1, Contains]
  obtain ⟨r, hr, hfound, hnone⟩ := RegionSearch.search_spec rounds (ascending_alignData hasc) hfuel
  refine ⟨r, hr, ?_⟩
  cases r with
  | none =>
    intro b hb hin
    obtain ⟨k, hk⟩ := getElem?_of_mem hb
    have hlt := (List.getElem?_eq_some_iff.mp hk).1
    exact hnone rfl k (by omega) (by omega) ((hcontains (by omega) (by simpa using hk)).mpr hin)
  | some k =>
    obtain ⟨hl, hh, hin⟩ := hfound k rfl
    obtain ⟨b, hb⟩ := getElem?_toNat hl (show k < beads.length by omega)
    exact ⟨hl, b, hb, (hcontains hl hb).mp hin⟩

theorem getExtendedAlignment_spec {rounds : ℕ} (hrounds : 29 ≤ rounds) (h : beads.length < 2 ^ 29) (hasc : Ascending beads)
    (p : ℤ) :
    (∃ (k : ℕ) (b : AlignBead), getExtendedAlignment rounds (beads.flatMap ints) (alignSize (beads.flatMap ints)) p = k ∧
        beads[k]? = some b ∧ b.Contains p) ∨
      getExtendedAlignment rounds (beads.flatMap ints) (alignSize (beads.flatMap ints)) p < 0 ∧
        ∀ b ∈ beads, ¬ b.Contains p := by
  obtain ⟨r, hr, hspec⟩ := search_beads hrounds h hasc p
  have hmax : (alignSize (beads.flatMap ints)).tdiv 4 = beads.length := (clMaxAlg_eq_iff beads).mpr h
  simp only [getExtendedAlignment, hmax, hr]
  cases r with
  | none => exact .inr ⟨by decide, hspec⟩
  | some k =>
    obtain ⟨hk, b, hb, hin⟩ := hspec
    exact .inl ⟨k.toNat, b, (Int.toNat_of_nonneg hk).symm, hb, hin⟩

end Lookup

theorem AlignBead.Ascending.eq_of_contains {beads : List AlignBead} (h : Ascending beads) {p : ℤ} {k k' : ℕ}
    {b b' : AlignBead} (hb : beads[k]? = some b) (hb' : beads[k']? = some b') (hin : b.Contains p) (hin' : b'.Contains p) : k = k' := by
  obtain ⟨hk, rfl⟩ := List.getElem?_eq_some_iff.mp hb
  obtain ⟨hk', rfl⟩ := List.getElem?_eq_some_iff.mp hb'
  rcases lt_trichotomy k k' with hlt | heq | hgt
  · have := pairwise_iff_getElem.mp h.apart k k' hk hk' hlt
    exact absurd (hin.2.trans_lt (this.trans_le hin'.1)) (lt_irrefl p)
  · exact heq
  · have := pairwise_iff_getElem.mp h.apart k' k hk' hk hgt
    exact absurd (hin'.2.trans_lt (this.trans_le hin.1)) (lt_irrefl p)

/-- The beads of an accepted input survive if and only if their integers can be counted in an
`int`. -/
theorem alignEncode_survives_iff {reverse : Bool} {lines : List AlignLine} {data : List ℤ}
    (h : alignEncode reverse lines = some data) :
    AlignSurvives data (keptBeads reverse lines) ↔ (keptBeads reverse lines).length < 2 ^ 29 := by
  obtain ⟨rfl, hasc⟩ := alignEncode_spec h
  refine ⟨fun hs => (clMaxAlg_eq_iff _).mp hs.max, fun hlt => ?_⟩
  have hsearch : ∀ p, (∃ (k : ℕ) (b : AlignBead), clCpos2alg ((keptBeads reverse lines).flatMap ints) p = k ∧
      (keptBeads reverse lines)[k]? = some b ∧ b.Contains p) ∨
      clCpos2alg ((keptBeads reverse lines).flatMap ints) p < 0 ∧ ∀ b ∈ keptBeads reverse lines, ¬ b.Contains p :=
    fun p => getExtendedAlignment_spec (by norm_num) hlt hasc p
  refine ⟨(clMaxAlg_eq_iff _).mpr hlt, clAlg2cpos_spec hlt, fun p k => ?_, fun p => ?_⟩
  · rcases hsearch p with ⟨k', b', heq, hb', hin'⟩ | ⟨hneg, hout⟩
    · rw [heq, Int.natCast_inj]
      refine ⟨?_, ?_⟩
      · rintro rfl
        exact ⟨b', hb', hin'⟩
      · rintro ⟨b, hb, hin⟩
        exact hasc.eq_of_contains hb' hb hin' hin
    · refine ⟨fun heq => absurd heq (by omega), ?_⟩
      rintro ⟨b, hb, hin⟩
      exact absurd hin (hout b (mem_of_getElem? hb))
  · rcases hsearch p with ⟨k', b', heq, hb', hin'⟩ | ⟨hneg, hout⟩
    · rw [heq]
      exact ⟨fun hneg => absurd hneg (by omega), fun hout => absurd hin' (hout b' (mem_of_getElem? hb'))⟩
    · exact ⟨fun _ => hout, fun _ => hneg⟩

/-- Beads of one token on each side. -/
def tokenLines (n : ℕ) : List AlignLine := (range n).map fun i : ℕ => ⟨i, i, i, i⟩

theorem encode_tokenLines (n : ℕ) :
    ∃ alx, (tokenLines n).foldlM (encodeAlignLine false) {} = some { mark := n - 1, alx := alx } := by
  induction n with
  | zero => exact ⟨[], rfl⟩
  | succ n ih =>
    obtain ⟨alx, halx⟩ := ih
    refine ⟨alx ++ [(n : ℤ), n, n, n], ?_⟩
    rw [tokenLines, range_succ, map_append, foldlM_append, ← tokenLines, halx]
    simp [encodeAlignLine]

theorem alignEncode_tokenLines (n : ℕ) : ∃ data, alignEncode false (tokenLines n) = some data := by
  obtain ⟨alx, halx⟩ := encode_tokenLines n
  exact ⟨alx, by rw [alignEncode, halx]; rfl⟩

theorem length_keptBeads_tokenLines (n : ℕ) : (keptBeads false (tokenLines n)).length = n := by
  have hall : (tokenLines n).filter (fun line => line.f1 ≤ line.l1 ∧ line.f2 ≤ line.l2) = tokenLines n := by
    rw [filter_eq_self]
    intro line hline
    obtain ⟨i, -, rfl⟩ := mem_map.mp hline
    simp
  rw [keptBeads, hall, length_map, tokenLines, length_map, length_range]

theorem alignEncode_survives_two :
    ∃ data, alignEncode false (tokenLines 2) = some data ∧ AlignSurvives data (keptBeads false (tokenLines 2)) := by
  obtain ⟨data, hdata⟩ := alignEncode_tokenLines 2
  exact ⟨data, hdata, (alignEncode_survives_iff hdata).mpr (by rw [length_keptBeads_tokenLines]; norm_num)⟩

theorem tokenLines_overflow {n : ℕ} (hn : 2 ^ 29 ≤ n) :
    ∃ data, alignEncode false (tokenLines n) = some data ∧ ¬ AlignSurvives data (keptBeads false (tokenLines n)) := by
  obtain ⟨data, hdata⟩ := alignEncode_tokenLines n
  refine ⟨data, hdata, fun h => ?_⟩
  obtain ⟨rfl, -⟩ := alignEncode_spec hdata
  have hlt := (clMaxAlg_eq_iff _).mp h.max
  rw [length_keptBeads_tokenLines] at hlt
  exact absurd hlt (not_lt.mpr hn)

/-- With `2 ^ 29` beads the number of integers is not an `int` any more. -/
theorem alignEncode_overflow :
    ∃ data, alignEncode false (tokenLines (2 ^ 29)) = some data ∧
      ¬ AlignSurvives data (keptBeads false (tokenLines (2 ^ 29))) :=
  tokenLines_overflow le_rfl

end CWB
