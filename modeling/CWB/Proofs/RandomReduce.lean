import Mathlib.Data.Prod.Lex
import CWB.Library.Significand
import CWB.Proofs.Session

/-! Stable randomisation: with a seed the keys depend on the ranges alone, and the callback
of `qsort` compares ranges by key, start and end, all three ascending. -/

namespace CWB

open List

/-- The random number that decides where a range is listed. -/
def randomKey (seed : ℤ) (p : ℤ × ℤ) : UInt32 :=
  (clRandom (clRandom (clRandom (clSetRngState (UInt32.ofInt p.1 + UInt32.ofInt seed)
    ((UInt32.ofInt seed * (UInt32.ofInt p.2 - UInt32.ofInt p.1)) ^^^ UInt32.ofInt p.2))).2).2).1

theorem randomSortKeys_eq {seed : ℤ} (h : seed ≠ 0) (l : List (ℤ × ℤ)) (rng : RngState) :
    (randomSortKeys seed l rng).1 = l.map (randomKey seed) := by
  induction l generalizing rng with
  | nil => rfl
  | cons p rest ih =>
    simp only [randomSortKeys, if_pos h, map_cons, ih]
    rfl

/-- What `random_compare` looks at. -/
def randomRank (key : UInt32) (p : ℤ × ℤ) : ℕ ×ₗ ℤ ×ₗ ℤ := toLex (key.toNat, toLex (p.1, p.2))

theorem randomRank_inj {k k' : UInt32} {p p' : ℤ × ℤ} (h : randomRank k p = randomRank k' p') : p = p' := by
  have h2 : toLex (p.1, p.2) = toLex (p'.1, p'.2) := congrArg (fun x => (ofLex x).2) h
  exact toLex.injective h2

theorem randomRank_le {k k' : UInt32} {p p' : ℤ × ℤ} :
    randomRank k p ≤ randomRank k' p' ↔
      k < k' ∨ k = k' ∧ (p.1 < p'.1 ∨ p.1 = p'.1 ∧ p.2 ≤ p'.2) := by
  rw [randomRank, randomRank, Prod.Lex.toLex_le_toLex, Prod.Lex.toLex_le_toLex, UInt32.lt_iff_toNat_lt, UInt32.toNat_inj]

/-- The unary minus in front of the macro changes nothing. -/
theorem minusSpaceship_eq {α : Type} [LT α] [DecidableLT α] (a b : α) : minusSpaceship a b = spaceship a b := by
  unfold minusSpaceship spaceship
  split_ifs <;> simp_all

section Spaceship

variable {α : Type} [LinearOrder α]

theorem spaceship_le {a b : α} : spaceship a b ≤ 0 ↔ a ≤ b := by
  unfold spaceship
  split_ifs with h1 h2
  · simpa using h1
  · simpa using h2.le
  · simpa using h1

theorem spaceship_then {a b : α} {r : ℤ} :
    (if spaceship a b = 0 then r else spaceship a b) ≤ 0 ↔ a < b ∨ a = b ∧ r ≤ 0 := by
  unfold spaceship
  obtain h | rfl | h := lt_trichotomy a b
  · simp [h, h.not_gt]
  · simp
  · simp [h, h.not_gt, h.ne']

end Spaceship

theorem spaceship_toNat (k k' : UInt32) : spaceship k k' = spaceship k.toNat k'.toNat := by
  simp only [spaceship, gt_iff_lt, UInt32.lt_iff_toNat_lt]

theorem spaceship_nested (k s e : ℤ) :
    (if (if k = 0 then s else k) = 0 then e else if k = 0 then s else k) =
      if k = 0 then (if s = 0 then e else s) else k := by
  by_cases h : k = 0 <;> simp [h]

variable {c : QueryResult}

namespace QueryResult

theorem randomCompare_le {keys : List UInt32} {i j : ℕ} :
    c.randomCompare keys i j ≤ 0 ↔
      randomRank (keys.getD i 0) (c.rangeAt i) ≤ randomRank (keys.getD j 0) (c.rangeAt j) := by
  rw [randomRank_le, UInt32.lt_iff_toNat_lt, ← UInt32.toNat_inj, randomCompare, minusSpaceship_eq, spaceship_toNat,
    spaceship_nested, spaceship_then, spaceship_then, spaceship_le]

/-- The sorted index lists the ranges by their rank. -/
theorem randomize_sorted (c : QueryResult) {seed : ℤ} (h : seed ≠ 0) (rng : RngState) :
    ((qsortIndex c.size (c.randomCompare (randomSortKeys seed c.range rng).1)).map c.rangeAt).Pairwise
      fun p q => randomRank (randomKey seed p) p ≤ randomRank (randomKey seed q) q := by
  set keys := (randomSortKeys seed c.range rng).1 with hkeys
  have hsorted : (qsortIndex c.size (c.randomCompare keys)).Pairwise fun i j =>
      decide (c.randomCompare keys i j ≤ 0) = true := by
    refine pairwise_mergeSort (fun i j k hij hjk => ?_) (fun i j => ?_) _
    · rw [decide_eq_true_iff, randomCompare_le] at *
      exact hij.trans hjk
    · rw [Bool.or_eq_true, decide_eq_true_iff, decide_eq_true_iff, randomCompare_le, randomCompare_le]
      exact le_total _ _
  have hkey : ∀ i ∈ qsortIndex c.size (c.randomCompare keys), keys.getD i 0 = randomKey seed (c.rangeAt i) := by
    intro i hi
    have hlt : i < c.range.length := IndexVector.lt_of_mem (qsortIndex_perm _ _) hi
    rw [hkeys, randomSortKeys_eq h, rangeAt, getD_eq_getElem _ _ (by simpa using hlt), getD_eq_getElem _ _ hlt,
      getElem_map]
  rw [pairwise_map]
  refine hsorted.imp_of_mem fun hi hj hij => ?_
  rw [decide_eq_true_iff, randomCompare_le, hkey _ hi, hkey _ hj] at hij
  exact hij

theorem listing_of_sortidx (c : QueryResult) {idx : List ℕ} (h : c.sortidx = some idx) (hlen : idx.length = c.size) :
    c.listing = idx.map c.rangeAt := map_realLine h hlen c.rangeAt

/-- The randomised listing: the ranges, sorted by rank. -/
theorem randomize_listing (c : QueryResult) {seed : ℤ} (h : seed ≠ 0) (rng : RngState) :
    ((c.sortSubcorpusRandomize seed rng).1.listing.Perm c.range) ∧
      (c.sortSubcorpusRandomize seed rng).1.listing.Pairwise fun p q =>
        randomRank (randomKey seed p) p ≤ randomRank (randomKey seed q) q := by
  unfold sortSubcorpusRandomize
  by_cases h0 : c.size = 0
  · rw [if_pos h0]
    have hr : c.range = [] := length_eq_zero_iff.mp h0
    simp [listing, h0, hr]
  · rw [if_neg h0]
    have hperm := qsortIndex_perm c.size (c.randomCompare (randomSortKeys seed c.range rng).1)
    have hl := listing_of_sortidx { c with sortidx := some _ } rfl (IndexVector.length_eq hperm)
    simp only [hl]
    exact ⟨IndexVector.perm_read _ hperm, c.randomize_sorted h rng⟩

end QueryResult

/-- A part of a query result is listed in the order in which the whole is listed. -/
theorem sortSubcorpusRandomize_stable {seed : ℤ} (h : seed ≠ 0) (A B : QueryResult) (hA : A.range.Nodup)
    (hB : B.range.Nodup) (hsub : ∀ p ∈ A.range, p ∈ B.range) (rngA rngB : RngState) :
    (A.sortSubcorpusRandomize seed rngA).1.listing =
      (B.sortSubcorpusRandomize seed rngB).1.listing.filter fun p => decide (p ∈ A.range) := by
  obtain ⟨hpermA, hsortA⟩ := A.randomize_listing h rngA
  obtain ⟨hpermB, hsortB⟩ := B.randomize_listing h rngB
  refine List.Perm.eq_of_pairwise ?_ hsortA (hsortB.filter _) ?_
  · exact fun p q _ _ hpq hqp => randomRank_inj (le_antisymm hpq hqp)
  · refine hpermA.trans (List.Perm.trans ?_ (hpermB.filter _).symm)
    refine (perm_ext_iff_of_nodup hA (hB.filter _)).mpr fun p => ?_
    rw [mem_filter, decide_eq_true_iff]
    exact ⟨fun hp => ⟨hsub p hp, hp⟩, fun hp => hp.2⟩

theorem sortSubcorpusRandomize_stable_three :
    (({ range := [(7, 9), (1, 4)], sortidx := some [1, 0] } : QueryResult).sortSubcorpusRandomize 42 ⟨7, 8⟩).1.listing =
      (({ range := [(0, 3), (1, 4), (7, 9)] } : QueryResult).sortSubcorpusRandomize 42 {}).1.listing.filter
        fun p => decide (p ∈ [((7 : ℤ), (9 : ℤ)), (1, 4)]) :=
  sortSubcorpusRandomize_stable (by decide) _ _ (by decide) (by decide) (by decide) _ _

/-! Random reduction takes as many lines as it was asked for, unless the generator returns a zero
after the last of them: then the counter wraps around, and all lines left are taken too. -/

variable {toSelect : UInt32}

section Loop

variable (dbl : DoubleRounding) (random : ℕ → UInt32)

theorem runif_le_one (r : UInt32) : (r.toNat : ℚ) * runifFactor ≤ 1 := by
  have hr : r.toNat ≤ 2 ^ 32 - 1 := Nat.le_sub_one_of_lt r.toNat_lt
  calc (r.toNat : ℚ) * runifFactor
      ≤ ((2 ^ 32 - 1 : ℕ) : ℚ) * runifFactor :=
        mul_le_mul_of_nonneg_right (by exact_mod_cast hr) (by norm_num [runifFactor])
    _ ≤ 1 := by norm_num [runifFactor]

/-- With a probability of 1 or more the line is selected. -/
theorem selectsLine_of_le (r : UInt32) {size : ℕ} (h0 : 0 < size) (h : size ≤ toSelect.toNat) :
    selectsLine dbl r toSelect size = true := by
  have hprob : (1 : ℚ) ≤ toSelect.toNat / size := by
    rw [one_le_div (by exact_mod_cast h0)]
    exact_mod_cast h
  exact decide_eq_true (dbl.mono ((runif_le_one r).trans hprob))

/-- With a probability of 0 it is selected on a zero. -/
theorem selectsLine_zero (r : UInt32) (size : ℕ) : selectsLine dbl r 0 size = true ↔ r = 0 := by
  have hround : dbl.round 0 = 0 := by simpa using dbl.exact 0 0 (by decide) (by decide)
  have hfactor : dbl.round runifFactor = runifFactor := by
    simpa [runifFactor] using dbl.exact 4503599628419071 84 (by decide) (by decide)
  have hpos : (0 : ℚ) < runifFactor := by norm_num [runifFactor]
  rw [selectsLine, clRunif, decide_eq_true_iff, UInt32.toNat_zero, Nat.cast_zero, zero_div, hround]
  refine ⟨fun h => ?_, fun h => by simp [h, hround]⟩
  by_contra hne
  have hone : 1 ≤ r.toNat := by
    rw [Nat.one_le_iff_ne_zero]
    exact fun h0 => hne (UInt32.toNat_inj.mp h0)
  have hle : runifFactor ≤ r.toNat * runifFactor := le_mul_of_one_le_left hpos.le (by exact_mod_cast hone)
  have := dbl.mono hle
  linarith

theorem toNat_sub_one {t : UInt32} {k : ℕ} (h : t.toNat = k + 1) : (t - 1).toNat = k := by
  have hle : (1 : UInt32) ≤ t := by
    rw [UInt32.le_iff_toNat_le, h]
    exact Nat.le_add_left _ _
  rw [UInt32.toNat_sub_of_le _ _ hle, h]
  rfl

theorem selectLines_lt (size : ℕ) (toSelect : UInt32) : ∀ j ∈ selectLines dbl random size toSelect, j < size := by
  induction size generalizing toSelect with
  | zero => intro j hj; cases hj
  | succ size ih =>
    intro j hj
    rw [selectLines] at hj
    split_ifs at hj
    · obtain rfl | hj := mem_cons.mp hj
      · exact Nat.lt_succ_self _
      · exact (ih _ j hj).trans (Nat.lt_succ_self _)
    · exact (ih _ j hj).trans (Nat.lt_succ_self _)

theorem selectLines_nodup (size : ℕ) (toSelect : UInt32) : (selectLines dbl random size toSelect).Nodup := by
  induction size generalizing toSelect with
  | zero => exact nodup_nil
  | succ size ih =>
    rw [selectLines]
    split_ifs
    · exact nodup_cons.mpr ⟨fun h => (selectLines_lt dbl random _ _ _ h).ne rfl, ih _⟩
    · exact ih _

/-- More to select than there are lines. -/
theorem selectLines_all (size : ℕ) (h : size ≤ toSelect.toNat) :
    (selectLines dbl random size toSelect).length = size := by
  induction size generalizing toSelect with
  | zero => rfl
  | succ size ih =>
    obtain ⟨k, hk⟩ := Nat.exists_eq_add_one.mpr (Nat.lt_of_lt_of_le (Nat.succ_pos size) h)
    have hsel := selectsLine_of_le dbl (random size) (Nat.succ_pos size) h
    have hle : size ≤ (toSelect - 1).toNat := by
      rw [toNat_sub_one hk]
      omega
    simp only [selectLines, nextToSelect, hsel, if_true, length_cons, ih hle]

/-- Of `size` lines those that are left when `count` of them have been drawn. -/
def linesLeft : ℕ → ℕ → ℕ
  | size, 0 => size
  | 0, _ + 1 => 0
  | size + 1, count + 1 =>
    linesLeft size
      (if clRunif dbl (random size) ≤ dbl.round ((count + 1 : ℕ) / (size + 1 : ℕ)) then count else count + 1)

theorem linesLeft_zero (size : ℕ) : linesLeft dbl random size 0 = size := by
  cases size <;> rfl

theorem linesLeft_succ {size count : ℕ} (h : toSelect.toNat = count + 1) :
    linesLeft dbl random (size + 1) (count + 1) =
      linesLeft dbl random size (nextToSelect dbl (random size) toSelect (size + 1)).toNat := by
  rw [linesLeft, nextToSelect, selectsLine, h]
  by_cases hsel : clRunif dbl (random size) ≤ dbl.round ((count + 1 : ℕ) / (size + 1 : ℕ))
  · rw [if_pos hsel, if_pos (decide_eq_true hsel), toNat_sub_one h]
  · rw [if_neg hsel, if_neg (by simpa using hsel), h]

/-- Until the last line is taken the counter says how many are still to come; from then on it stays at zero, as
long as no zero is drawn. -/
theorem length_selectLines_iff {size : ℕ} (h : toSelect.toNat ≤ size) (hsize : size < 2 ^ 32) :
    (selectLines dbl random size toSelect).length = toSelect.toNat ↔
      ∀ j < linesLeft dbl random size toSelect.toNat, random j ≠ 0 := by
  induction size generalizing toSelect with
  | zero =>
    rw [Nat.le_zero.mp h]
    exact ⟨fun _ j hj => absurd hj (Nat.not_lt_zero j), fun _ => rfl⟩
  | succ size ih =>
    cases ht : toSelect.toNat with
    | zero =>
      obtain rfl : toSelect = 0 := UInt32.toNat_inj.mp ht
      rw [linesLeft_zero dbl random]
      by_cases hr : random size = 0
      · have hsel := (selectsLine_zero dbl (random size) (size + 1)).mpr hr
        have hall : (selectLines dbl random size (0 - 1)).length = size := selectLines_all dbl random size (show size ≤ 2 ^ 32 - 1 by omega)
        rw [selectLines, nextToSelect, if_pos hsel, if_pos hsel, length_cons, hall]
        exact ⟨fun h => absurd h (Nat.succ_ne_zero _), fun h => absurd hr (h size (Nat.lt_succ_self _))⟩
      · have hsel : ¬ selectsLine dbl (random size) 0 (size + 1) = true := (selectsLine_zero dbl _ _).not.mpr hr
        have hrest := @ih 0 (Nat.zero_le _) (Nat.lt_of_succ_lt hsize)
        rw [UInt32.toNat_zero, linesLeft_zero dbl random] at hrest
        rw [selectLines, nextToSelect, if_neg hsel, if_neg hsel, hrest]
        exact ⟨fun h j hj => (Nat.lt_succ_iff_lt_or_eq.mp hj).elim (h j) (fun he => he ▸ hr), fun h j hj => h j (Nat.lt_succ_of_lt hj)⟩
    | succ count =>
      rw [linesLeft_succ dbl random ht]
      by_cases hsel : selectsLine dbl (random size) toSelect (size + 1) = true
      · have hnext : (toSelect - 1).toNat = count := toNat_sub_one ht
        have hrest := @ih (toSelect - 1) (by omega) (Nat.lt_of_succ_lt hsize)
        rw [selectLines, nextToSelect, if_pos hsel, if_pos hsel, length_cons, ← hrest, hnext, Nat.add_right_cancel_iff]
      · have hlt : toSelect.toNat ≤ size := by
          by_contra hgt
          exact hsel (selectsLine_of_le dbl _ (Nat.succ_pos _) (by omega))
        rw [selectLines, nextToSelect, if_neg hsel, if_neg hsel, ← ht]
        exact ih hlt (Nat.lt_of_succ_lt hsize)

end Loop

namespace QueryResult

theorem rangeAt_markLines (c : QueryResult) (del : ℕ → Bool) {k : ℕ} (hk : k < c.size) :
    (c.markLines del).rangeAt k = if del k then (-1, -1) else c.rangeAt k := by
  have hk' : k < c.range.length := hk
  rw [rangeAt, rangeAt, markLines, getD_eq_getElem _ _ (by simpa using hk'), getD_eq_getElem _ _ hk']
  simp

theorem line_markLines {del : ℕ → Bool} {k : ℕ} (hk : k < c.size) (hdel : del k = false) :
    (c.markLines del).line k = c.line k := by
  unfold line
  rw [rangeAt_markLines c del hk, hdel]
  rfl

theorem kept_markLines {del : ℕ → Bool} {k : ℕ} (hk : k < c.size)
    (hpos : ∀ p ∈ c.range, 0 ≤ p.1 ∧ 0 ≤ p.2) : ((c.markLines del).line k).kept = !del k := by
  have hat : 0 ≤ (c.rangeAt k).1 ∧ 0 ≤ (c.rangeAt k).2 := by
    rw [rangeAt, getD_eq_getElem _ _ hk]
    exact hpos _ (getElem_mem hk)
  cases hdel : del k with
  | true => simp [line, Match.kept, rangeAt_markLines c del hk, hdel]
  | false =>
    rw [line_markLines hk hdel]
    simp [line, Match.kept, not_lt.mpr hat.1, not_lt.mpr hat.2]

/-- Deletion leaves the lines that are not deleted. -/
theorem lines_deleteIntervals (hc : c.Sound) (htype : c.type ≠ .system)
    (hpos : ∀ p ∈ c.range, 0 ≤ p.1 ∧ 0 ≤ p.2) (keep : ℕ → Bool) :
    (c.deleteIntervals keep .unselectedLines).lines = ((List.range c.size).filter keep).map c.line := by
  by_cases hsize : c.size = 0
  · rw [deleteIntervals, if_pos (.inr hsize), lines, hsize]
    rfl
  · have hcount : (List.range c.size).countP (fun k => !keep k) = c.size - ((List.range c.size).filter keep).length := by
      have := length_eq_countP_add_countP keep (l := List.range c.size)
      rw [length_range, countP_eq_length_filter] at this
      have hnot : (List.range c.size).countP (fun k => !keep k) = (List.range c.size).countP fun k => ¬ keep k = true :=
        countP_congr fun k _ => by simp
      omega
    have hlen : ((List.range c.size).filter keep).length ≤ c.size := by
      simpa using length_filter_le keep (List.range c.size)
    simp only [deleteIntervals, htype, hsize, or_self, if_false, hcount]
    split_ifs with hnone hall
    · have hfilter : (List.range c.size).filter keep = List.range c.size :=
        List.Sublist.eq_of_length filter_sublist (by rw [length_range]; omega)
      rw [hfilter, lines]
    · have hfilter : (List.range c.size).filter keep = [] := length_eq_zero_iff.mp (by omega)
      rw [hfilter]
      rfl
    · have hmarked : (markLines { c with sortidx := none } fun k => !keep k).Sound :=
        hc.dropSortidx.setRange (by simp [size])
      have hlen' : (markLines { c with sortidx := none } fun k => !keep k).size = c.size := by simp [size, markLines]
      rw [(rReduce_spec hmarked).2, lines_filter_kept, keptIndex, hlen']
      have hkept : ∀ k ∈ List.range c.size,
          ((markLines { c with sortidx := none } fun k => !keep k).line k).kept = keep k := fun k hk => by
        rw [kept_markLines (c := { c with sortidx := none }) (mem_range.mp hk) hpos, Bool.not_not]
      rw [filter_congr hkept]
      refine map_congr_left fun k hk => ?_
      obtain ⟨hk, hkeep⟩ := mem_filter.mp hk
      exact line_markLines (c := { c with sortidx := none }) (mem_range.mp hk) (by rw [hkeep]; rfl)

/-- The number of lines asked for, in unbounded arithmetic. -/
def linesWanted (c : QueryResult) (number : ℤ) (percent : Bool) : ℤ := if percent then c.size * number / 100 else number

/-- The selected lines are the lines of the reduced result. -/
theorem lines_doReduceRandom (dbl : DoubleRounding) (random : ℕ → UInt32) (hc : c.Sound) (htype : c.type = .sub)
    (hpos : ∀ p ∈ c.range, 0 ≤ p.1 ∧ 0 ≤ p.2) (toSelect : UInt32) :
    let c' := c.deleteIntervals (· ∈ selectLines dbl random c.size toSelect) .unselectedLines
    c'.size = (selectLines dbl random c.size toSelect).length ∧ c'.lines.Sublist c.lines := by
  intro c'
  have hlines : c'.lines = ((List.range c.size).filter (· ∈ selectLines dbl random c.size toSelect)).map c.line :=
    lines_deleteIntervals hc (by rw [htype]; decide) hpos _
  have hperm : ((List.range c.size).filter (· ∈ selectLines dbl random c.size toSelect)).Perm
      (selectLines dbl random c.size toSelect) := by
    rw [perm_ext_iff_of_nodup (nodup_range.filter _) (selectLines_nodup dbl random _ _)]
    intro j
    simp only [mem_filter, mem_range, decide_eq_true_eq]
    exact ⟨fun h => h.2, fun h => ⟨selectLines_lt dbl random _ _ j h, h⟩⟩
  refine ⟨?_, ?_⟩
  · rw [← lines_length, hlines, length_map, hperm.length_eq]
  · rw [hlines]
    exact filter_sublist.map _

/-- The result has as many lines as it should, each with its target and keyword and in their order, exactly when the
size times the percentage is an `int` and no zero is drawn for a line that is left when all have been taken. -/
theorem doReduceRandom_exact_iff (dbl : DoubleRounding) (random : ℕ → UInt32) {c : QueryResult} (hc : c.Sound)
    (htype : c.type = .sub) (hsize : c.size < 2 ^ 31) (hpos : ∀ p ∈ c.range, 0 ≤ p.1 ∧ 0 ≤ p.2) {number : ℤ}
    {percent : Bool} (h0 : 0 < c.size) (hnumber : 0 < number) (hbound : number < if percent then 100 else (c.size : ℤ)) :
    (∃ c', c.doReduceRandom dbl random number percent = some c' ∧ (c'.size : ℤ) = c.linesWanted number percent ∧
        c'.lines.Sublist c.lines) ↔
      (percent = true → c.size * number < 2 ^ 31) ∧
        ∀ j < linesLeft dbl random c.size (c.linesWanted number percent).toNat, random j ≠ 0 := by
  have hwanted : 0 ≤ c.linesWanted number percent ∧ c.linesWanted number percent ≤ c.size := by
    cases percent with
    | false => exact ⟨hnumber.le, hbound.le⟩
    | true =>
      have hbound : number < 100 := hbound
      refine ⟨Int.ediv_nonneg (by positivity) (by decide), ?_⟩
      have hmul : (c.size : ℤ) * number ≤ c.size * 100 := mul_le_mul_of_nonneg_left hbound.le (by positivity)
      exact Int.ediv_le_of_le_mul (by decide) hmul
  obtain ⟨count, hcount⟩ := Int.eq_ofNat_of_zero_le hwanted.1
  have hcount32 : (UInt32.ofInt count).toNat = count := by
    have hlt : count < 2 ^ 32 := by omega
    refine (UInt32.toNat_ofNat').trans ?_
    omega
  have hrun : c.doReduceRandom dbl random number percent =
      (c.reduceNumber number percent).map fun k =>
        c.deleteIntervals (· ∈ selectLines dbl random c.size (UInt32.ofInt k)) .unselectedLines := by
    have hskip : ¬ (c.type ≠ .sub ∨ c.size = 0) := by simp [htype, h0.ne']
    cases percent with
    | false =>
      have hbound : number < c.size := hbound
      simp [doReduceRandom, hskip, hnumber.not_ge, hbound.not_ge, Option.map_eq_bind]
    | true =>
      have hbound : number < 100 := hbound
      simp [doReduceRandom, hskip, hnumber.not_ge, hbound.not_ge, Option.map_eq_bind]
  have hnumber' : c.reduceNumber number percent =
      if percent = true → c.size * number < 2 ^ 31 then some (count : ℤ) else none := by
    rw [← hcount]
    cases percent <;> simp [reduceNumber, linesWanted]
  obtain ⟨hlen, hsub⟩ := lines_doReduceRandom dbl random hc htype hpos (UInt32.ofInt count)
  have hexact := @length_selectLines_iff (UInt32.ofInt count) dbl random c.size (by omega) (by omega)
  rw [hcount32] at hexact
  rw [hrun, hnumber', hcount, Int.toNat_natCast, ← hexact, ← hlen]
  by_cases hfits : percent = true → c.size * number < 2 ^ 31
  · rw [if_pos hfits, Option.map_some]
    refine ⟨?_, fun h => ⟨_, rfl, by rw [h.2], hsub⟩⟩
    rintro ⟨c', hc', hsize', -⟩
    cases hc'
    exact ⟨hfits, by exact_mod_cast hsize'⟩
  · rw [if_neg hfits]
    refine ⟨?_, fun h => absurd h.1 hfits⟩
    rintro ⟨c', hc', -⟩
    cases hc'

end QueryResult

/-- Rounding to the nearest `double`. -/
def toNearest : DoubleRounding :=
  ⟨Significand.nearest 53, Significand.nearest_mono (by decide), fun _ e hm _ => Significand.nearest_exact hm e⟩

def twoLines : QueryResult := { range := [(0, 0), (1, 1)] }

/-- One of two lines is asked for: `randomize 906438810;` sets the generator so that the first value is less
than a half of its range and the second is zero. Both lines are kept. -/
theorem doReduceRandom_keeps_all :
    (twoLines.doReduceRandom toNearest (draws (clSetSeed 906438810) 2) 1 false).map QueryResult.size = some 2 := by
  have hfirst : draws (clSetSeed 906438810) 2 1 = 2100372821 := by decide
  have hsecond : draws (clSetSeed 906438810) 2 0 = 0 := by decide
  have htake : selectsLine toNearest 2100372821 1 2 = true := by
    refine decide_eq_true (toNearest.mono ?_)
    rw [show (UInt32.toNat 2100372821) = 2100372821 from rfl, show (UInt32.toNat 1) = 1 from rfl]
    norm_num [runifFactor]
  have hzero : selectsLine toNearest 0 0 1 = true := (selectsLine_zero _ _ _).mpr rfl
  have hlines : selectLines toNearest (draws (clSetSeed 906438810) 2) 2 1 = [1, 0] := by
    have hnext : (1 : UInt32) - 1 = 0 := by decide
    simp only [selectLines, nextToSelect, hfirst, hsecond, htake, hzero, if_true, hnext, Nat.zero_add]
  have hrun : twoLines.doReduceRandom toNearest (draws (clSetSeed 906438810) 2) 1 false =
      some (twoLines.deleteIntervals (· ∈ selectLines toNearest (draws (clSetSeed 906438810) 2) 2 1) .unselectedLines) :=
    rfl
  rw [hrun, hlines]
  decide

/-- The first of these draws alone, which takes the last line. -/
theorem doReduceRandom_exact_iff_half :
    ∃ c', twoLines.doReduceRandom toNearest (fun _ => 2100372821) 50 true = some c' ∧
      (c'.size : ℤ) = twoLines.linesWanted 50 true ∧ c'.lines.Sublist twoLines.lines :=
  (QueryResult.doReduceRandom_exact_iff toNearest (fun _ => 2100372821) ⟨by simp [twoLines], by simp [twoLines],
    by simp [twoLines]⟩ rfl (by decide) (by decide) (by decide) (by decide) (by decide)).mpr
    ⟨fun _ => by decide, fun _ _ => by decide⟩

end CWB
