import CWB.Proofs.MeetMu
import CWB.Proofs.Session
import CWB.Spec.TargetSearch

/-! The anchor that `evaluate_target` finds for a line is the preferred one of the positions in its
window, except where a sum of the search leaves the range of an `int`; and what becomes of the lines
that an interrupted evaluation does not reach. -/

namespace CWB

open List Option

/-- Region `num` of an attribute. -/
def IsRegion (attrib : Cqi.StrucAttribute) (num : ℤ) (r : ℤ × ℤ) : Prop := 0 ≤ num ∧ attrib.regions[num.toNat]? = some r

/-- The region around a position. -/
def RegionAt (attrib : Cqi.StrucAttribute) (cpos num : ℤ) : Prop := ∃ r, IsRegion attrib num r ∧ r.1 ≤ cpos ∧ cpos ≤ r.2

namespace TargetSearch

variable (s : TargetSearch)

/-- At most the number of units lies between the two positions. -/
def Reaches (cpos q : ℤ) : Prop :=
  match s.context with
  | .word units => InCorpus s.motherSize cpos ∧ InCorpus s.motherSize q ∧ |q - cpos| ≤ units
  | .structure attrib units => ∃ n k, RegionAt attrib cpos n ∧ RegionAt attrib q k ∧ |k - n| < units

/-- The number of the region and the number of units add up to an `int`. -/
def SumFits (cpos : ℤ) : Prop :=
  match s.context with
  | .word _ => True
  | .structure attrib units => ∀ n, RegionAt attrib cpos n → n + (units - 1) < 2 ^ 31

/-- The two positions from which the ends of the window are reckoned. -/
def anchors (m : Match) : ℤ × ℤ := if s.inclusive then ((s.exclusion m).1, (s.exclusion m).1) else s.exclusion m

def InWindow (m : Match) (p : ℤ) : Prop :=
  (∃ q, s.Reaches (s.anchors m).1 q ∧ q ≤ p) ∧ ∃ q, s.Reaches (s.anchors m).2 q ∧ p ≤ q

/-- Outside of the base unless that is included, and the constraint holds. -/
def Admits (exclStart exclEnd p : ℤ) : Prop := (s.inclusive ∨ p < exclStart ∨ exclEnd < p) ∧ s.constr p

/-- A position that may become the anchor of the line. -/
structure Candidate (m : Match) (p : ℤ) : Prop where
  window : s.InWindow m p
  left : s.direction = .left → p ≤ (s.exclusion m).1
  right : s.direction = .right → (s.exclusion m).1 ≤ p
  admits : s.Admits (s.exclusion m).1 (s.exclusion m).2 p

/-- The arguments are those that `evaluate_target` lets pass, of a corpus that CWB can hold. -/
structure Valid : Prop where
  size_lt : s.motherSize < 2 ^ 31
  units : 0 < s.context.size ∧ s.context.size < 2 ^ 31
  regions : ∀ attrib units, s.context = .structure attrib units →
    attrib.strucData = true ∧ Cqi.SortedRegions attrib.regions ∧ ∀ r ∈ attrib.regions, r.2 < s.motherSize
  strategy : s.strategy ≠ .none

end TargetSearch

/-- `p` is at least as good as `q`. -/
def Prefers (strategy : SearchStrategy) (base p q : ℤ) : Prop :=
  match strategy with
  | .leftmost => p ≤ q
  | .rightmost => q ≤ p
  | .nearest => (p - base).natAbs < (q - base).natAbs ∨ ((p - base).natAbs = (q - base).natAbs ∧ p ≤ q)
  | .farthest => (q - base).natAbs < (p - base).natAbs ∨ ((p - base).natAbs = (q - base).natAbs ∧ p ≤ q)
  | .none => False

/-- The preferred position of those with the property, -1 if there is none. -/
def Chosen (strategy : SearchStrategy) (P : ℤ → Prop) (base x : ℤ) : Prop :=
  (P x ∧ ∀ q, P q → Prefers strategy base x q) ∨ (x = -1 ∧ ∀ q, ¬P q)

/-- The positions of a line lie in the corpus; a target or keyword may be undefined. -/
structure Match.Located (size : ℤ) (m : Match) : Prop where
  start : 0 ≤ m.start
  stop : m.start ≤ m.stop
  stop_lt : m.stop < size
  target_lt : m.target < size
  keyword_lt : m.keyword < size

/-! Windows. -/

theorem intSum_eq {m n : ℤ} (h0 : 0 ≤ m + n) (h : m + n < 2 ^ 31) : intSum m n = m + n :=
  Int.bmod_eq_of_le (by omega) (by omega)

theorem intSum_of_ge {m n : ℤ} (h : 2 ^ 31 ≤ m + n) (hlt : m + n < 2 ^ 32) : intSum m n = m + n - 2 ^ 32 := by
  rw [intSum, Int.bmod_def, Int.emod_eq_of_lt (by omega) (by omega), if_neg (by omega)]
  rfl

section Windows

variable {attrib : Cqi.StrucAttribute} {cpos num : ℤ} {r : ℤ × ℤ}

theorem getBoundsOfNthStruc_eq_some_iff (hdata : attrib.strucData = true) :
    getBoundsOfNthStruc attrib num = some r ↔ IsRegion attrib num r := by
  rw [IsRegion, ← Cqi.clStruc2cpos_eq_iff hdata, getBoundsOfNthStruc]
  rcases Cqi.clStruc2cpos (.struc attrib) num with ⟨_ | bounds, e⟩
  · simp
  · cases e <;> simp

theorem getNrOfStrucs_eq (hdata : attrib.strucData = true) : getNrOfStrucs attrib = some (attrib.regions.length : ℤ) := by
  rw [getNrOfStrucs, Cqi.clMaxStruc, if_pos hdata]

theorem getNumOfStruc_eq_some_iff (hdata : attrib.strucData = true) (h : Cqi.SortedRegions attrib.regions)
    (hcpos : Cqi.Fits cpos) : getNumOfStruc attrib cpos = some num ↔ RegionAt attrib cpos num := by
  have hmark := Cqi.getPreviousMark_eq_some_iff h (BitVec.ofInt 32 cpos) num
  rw [hcpos.toInt] at hmark
  have hnum : getNumOfStruc attrib cpos = some num ↔ Cqi.clCpos2struc (.struc attrib) cpos = (num, .ok) := by
    rw [getNumOfStruc]
    rcases Cqi.clCpos2struc (.struc attrib) cpos with ⟨n, e⟩
    cases e <;> simp
  rw [hnum, Cqi.clCpos2struc_eq_iff hdata, hmark, RegionAt]
  refine ⟨fun ⟨h0, r, hr, hin⟩ => ⟨r, ⟨h0, hr⟩, hin⟩, fun ⟨r, ⟨h0, hr⟩, hin⟩ => ⟨h0, r, hr, hin⟩⟩

theorem getStrucAttribute_isSome (hdata : attrib.strucData = true) (h : Cqi.SortedRegions attrib.regions) (hcpos : Cqi.Fits cpos)
    (hnum : RegionAt attrib cpos num) : (getStrucAttribute attrib cpos).isSome := by
  have hmark := Cqi.getPreviousMark_eq_some_iff h (BitVec.ofInt 32 cpos) num
  rw [hcpos.toInt] at hmark
  obtain ⟨r, ⟨h0, hr⟩, hin⟩ := hnum
  have hbounds := Cqi.clCpos2struc2cpos_of_some hdata (hmark.mpr ⟨h0, r, hr, hin⟩)
    ((Cqi.clStruc2cpos_eq_iff hdata num r).mpr ⟨h0, hr⟩)
  rw [getStrucAttribute, hbounds]
  rfl

theorem IsRegion.lt_length (h : IsRegion attrib num r) : num < attrib.regions.length := by
  have h0 := h.1
  have := (List.getElem?_eq_some_iff.mp h.2).1
  omega

theorem IsRegion.mem (h : IsRegion attrib num r) : r ∈ attrib.regions := mem_of_getElem? h.2

theorem exists_isRegion (h0 : 0 ≤ num) (hlt : num < attrib.regions.length) : ∃ r, IsRegion attrib num r :=
  ⟨attrib.regions[num.toNat], h0, getElem?_eq_getElem (by omega)⟩

theorem IsRegion.lt_start {k : ℤ} {r' : ℤ × ℤ} (hs : Cqi.SortedRegions attrib.regions) (h : IsRegion attrib num r)
    (h' : IsRegion attrib k r') (hlt : num < k) : r.2 < r'.1 := by
  obtain ⟨hn, hr⟩ := List.getElem?_eq_some_iff.mp h.2
  obtain ⟨hk, hr'⟩ := List.getElem?_eq_some_iff.mp h'.2
  have h0 := h.1
  have := pairwise_iff_getElem.mp hs.apart num.toNat k.toNat hn hk (by omega)
  rw [hr, hr'] at this
  exact this

theorem IsRegion.mono {k : ℤ} {r' : ℤ × ℤ} (hs : Cqi.SortedRegions attrib.regions) (h : IsRegion attrib num r)
    (h' : IsRegion attrib k r') (hle : num ≤ k) : r.1 ≤ r'.1 ∧ r.2 ≤ r'.2 := by
  rcases hle.eq_or_lt with rfl | hlt
  · obtain rfl : r = r' := some.inj (h.2.symm.trans h'.2)
    exact ⟨le_rfl, le_rfl⟩
  · have hbetween := h.lt_start hs h' hlt
    have hr := hs.fits r h.mem
    have hr' := hs.fits r' h'.mem
    omega

theorem RegionAt.unique {k : ℤ} (hs : Cqi.SortedRegions attrib.regions) (h : RegionAt attrib cpos num)
    (h' : RegionAt attrib cpos k) : num = k := by
  obtain ⟨r, hr, hin⟩ := h
  obtain ⟨r', hr', hin'⟩ := h'
  rcases lt_trichotomy num k with hlt | heq | hgt
  · have := hr.lt_start hs hr' hlt
    omega
  · exact heq
  · have := hr'.lt_start hs hr hgt
    omega

end Windows

variable {strategy : SearchStrategy}

namespace TargetSearch

variable {s : TargetSearch} {cpos : ℤ} {bounds : ℤ × ℤ}

/-- The ends of what can be reached from a position. -/
structure IsHull (s : TargetSearch) (cpos : ℤ) (bounds : ℤ × ℤ) : Prop where
  left : s.Reaches cpos bounds.1
  right : s.Reaches cpos bounds.2
  within : ∀ q, s.Reaches cpos q → bounds.1 ≤ q ∧ q ≤ bounds.2

theorem Valid.reaches_inCorpus (h : s.Valid) {q : ℤ} (hq : s.Reaches cpos q) :
    InCorpus s.motherSize q ∧ s.Reaches cpos cpos := by
  unfold Reaches at hq ⊢
  have hunits := h.units
  have hregions := h.regions
  cases hc : s.context with
  | word units =>
    simp only [hc, Context.size] at hq hunits ⊢
    refine ⟨hq.2.1, hq.1, hq.1, ?_⟩
    rw [sub_self, abs_zero]
    exact hunits.1.le
  | «structure» attrib units =>
    simp only [hc, Context.size] at hq hunits ⊢
    obtain ⟨n, k, hn, ⟨r, hr, hin⟩, -⟩ := hq
    obtain ⟨-, hs, hsize⟩ := hregions attrib units hc
    refine ⟨⟨(hs.fits r hr.mem).1.trans hin.1, hin.2.trans_lt (hsize r hr.mem)⟩, n, n, hn, hn, ?_⟩
    rw [sub_self, abs_zero]
    exact hunits.1

theorem Valid.calculateRanges_word (h : s.Valid) (hcpos : InCorpus s.motherSize cpos) {d : ℤ} (hc : s.context = .word d) :
    ∃ bounds, calculateRanges s.motherSize s.context cpos = some bounds ∧ s.IsHull cpos bounds ∧ s.SumFits cpos := by
  have hunits := h.units
  obtain ⟨h0, hlt⟩ := hcpos
  simp only [hc, Context.size] at hunits
  have hreach : ∀ q, s.Reaches cpos q ↔ InCorpus s.motherSize q ∧ |q - cpos| ≤ d := fun q => by
    simp only [Reaches, hc]
    exact ⟨fun hq => hq.2, fun hq => ⟨⟨h0, hlt⟩, hq⟩⟩
  rw [hc]
  refine ⟨_, if_neg (by omega), ⟨?_, ?_, fun q hq => ?_⟩, by simp [SumFits, hc]⟩
  · rw [hreach, InCorpus, abs_le]
    omega
  · rw [hreach, InCorpus, abs_le]
    omega
  · rw [hreach, InCorpus, abs_le] at hq
    omega

section Structure

variable {attrib : Cqi.StrucAttribute} {units n : ℤ}

/-- The first and the last region in reach, with numbers cut to those of the attribute. -/
theorem isHull_of_regions (hs : Cqi.SortedRegions attrib.regions) (hc : s.context = .structure attrib units)
    (h1 : 1 ≤ units) (hn : RegionAt attrib cpos n) {lower upper : ℤ × ℤ}
    (hlower : IsRegion attrib (max 0 (n - (units - 1))) lower)
    (hupper : IsRegion attrib (min ((attrib.regions.length : ℤ) - 1) (n + (units - 1))) upper) :
    s.IsHull cpos (lower.1, upper.2) := by
  have hreach : ∀ q, s.Reaches cpos q ↔ ∃ n k, RegionAt attrib cpos n ∧ RegionAt attrib q k ∧ |k - n| < units := fun q => by
    simp only [Reaches, hc]
  obtain ⟨r, hr, -⟩ := id hn
  have hlen := hr.lt_length
  have hn0 := hr.1
  refine ⟨?_, ?_, fun q hq => ?_⟩
  · refine (hreach _).mpr ⟨n, _, hn, ⟨lower, hlower, le_rfl, (hs.fits lower hlower.mem).2.1⟩, ?_⟩
    rw [abs_lt]
    omega
  · refine (hreach _).mpr ⟨n, _, hn, ⟨upper, hupper, (hs.fits upper hupper.mem).2.1, le_rfl⟩, ?_⟩
    rw [abs_lt]
    omega
  · obtain ⟨n', k, hn', ⟨r', hr', hin'⟩, hdist⟩ := (hreach q).mp hq
    obtain rfl := hn.unique hs hn'
    have hk := hr'.lt_length
    have hk0 := hr'.1
    rw [abs_lt] at hdist
    have hl := hlower.mono hs hr' (by omega)
    have hu := hr'.mono hs hupper (by omega)
    exact ⟨hl.1.trans hin'.1, hin'.2.trans hu.2⟩

theorem Valid.calculateRanges_structure (h : s.Valid) (hcpos : InCorpus s.motherSize cpos)
    (hc : s.context = .structure attrib units) (hn : RegionAt attrib cpos n) :
    if n + (units - 1) < 2 ^ 31 then
      ∃ bounds, calculateRanges s.motherSize s.context cpos = some bounds ∧ s.IsHull cpos bounds
    else calculateRanges s.motherSize s.context cpos = none := by
  have hunits := h.units
  have hlt := h.size_lt
  simp only [hc, Context.size] at hunits
  obtain ⟨hdata, hs, hsize⟩ := h.regions attrib units hc
  have hfits : Cqi.Fits cpos := ⟨hcpos.1, hcpos.2.trans hlt⟩
  obtain ⟨region, hregion⟩ := isSome_iff_exists.mp (getStrucAttribute_isSome hdata hs hfits hn)
  obtain ⟨r, hr, -⟩ := id hn
  have hlen := hr.lt_length
  have hn0 := hr.1
  have hmax := hs.length_le
  obtain ⟨lower, hlower⟩ : ∃ r, IsRegion attrib (max 0 (n - (units - 1))) r := exists_isRegion (by omega) (by omega)
  have hranges : calculateRanges s.motherSize s.context cpos =
      (getBoundsOfNthStruc attrib (min ((attrib.regions.length : ℤ) - 1) (intSum n (units - 1)))).bind fun upper =>
        some (lower.1, upper.2) := by
    simp only [hc, calculateRanges, if_neg (show ¬units - 1 < 0 by omega), hregion,
      (getNumOfStruc_eq_some_iff hdata hs hfits).mpr hn, bind_eq_bind, bind_some,
      (getBoundsOfNthStruc_eq_some_iff hdata).mpr hlower, getNrOfStrucs_eq hdata]
  rw [hranges]
  split_ifs with hfit
  · obtain ⟨upper, hupper⟩ : ∃ r, IsRegion attrib (min ((attrib.regions.length : ℤ) - 1) (n + (units - 1))) r :=
      exists_isRegion (by omega) (by omega)
    rw [intSum_eq (by omega) hfit, (getBoundsOfNthStruc_eq_some_iff hdata).mpr hupper]
    exact ⟨_, rfl, isHull_of_regions hs hc hunits.1 hn hlower hupper⟩
  · -- the sum has become negative, and no region has such a number
    cases hupper : getBoundsOfNthStruc attrib (min ((attrib.regions.length : ℤ) - 1) (intSum n (units - 1))) with
    | none => rfl
    | some upper =>
      have hneg := ((getBoundsOfNthStruc_eq_some_iff hdata).mp hupper).1
      rw [intSum_of_ge (by omega) (by omega)] at hneg
      omega

end Structure

/-- `calculate_ranges` finds the ends, unless the number of the last region does not fit. -/
theorem Valid.calculateRanges_spec (h : s.Valid) (hcpos : InCorpus s.motherSize cpos) :
    (∃ bounds, calculateRanges s.motherSize s.context cpos = some bounds ∧ s.IsHull cpos bounds ∧ s.SumFits cpos) ∨
      (calculateRanges s.motherSize s.context cpos = none ∧ ((∀ q, ¬s.Reaches cpos q) ∨ ¬s.SumFits cpos)) := by
  cases hc : s.context with
  | word d =>
    left
    rw [← hc]
    exact h.calculateRanges_word hcpos hc
  | «structure» attrib units =>
    obtain ⟨hdata, hs, -⟩ := h.regions attrib units hc
    have hfits : Cqi.Fits cpos := ⟨hcpos.1, hcpos.2.trans h.size_lt⟩
    have hsum : s.SumFits cpos ↔ ∀ n, RegionAt attrib cpos n → n + (units - 1) < 2 ^ 31 := by
      simp only [SumFits, hc]
    cases hnum : getNumOfStruc attrib cpos with
    | none =>
      right
      refine ⟨?_, .inl fun q hq => ?_⟩
      · have hunits := h.units
        simp only [hc, Context.size] at hunits
        simp only [calculateRanges, if_neg (show ¬units - 1 < 0 by omega), hnum]
        cases getStrucAttribute attrib cpos <;> rfl
      · simp only [Reaches, hc] at hq
        obtain ⟨n, -, hn, -⟩ := hq
        rw [(getNumOfStruc_eq_some_iff hdata hs hfits).mpr hn] at hnum
        exact absurd hnum (by simp)
    | some n =>
      have hn := (getNumOfStruc_eq_some_iff hdata hs hfits).mp hnum
      have hranges := h.calculateRanges_structure hcpos hc hn
      rw [hc] at hranges
      split_ifs at hranges with hfit
      · left
        obtain ⟨bounds, hbounds, hhull⟩ := hranges
        exact ⟨bounds, hbounds, hhull, hsum.mpr fun n' hn' => hn.unique hs hn' ▸ hfit⟩
      · right
        exact ⟨hranges, .inr fun hall => hfit (hsum.mp hall n hn)⟩

/-! The window of a line. -/

section Lines

variable {m : Match}

/-- The ends of the window can be computed. -/
def Fits (s : TargetSearch) (m : Match) : Prop := s.SumFits (s.anchors m).1 ∧ s.SumFits (s.anchors m).2

theorem exclusion_inCorpus (hm : m.Located s.motherSize) (h0 : 0 ≤ (s.exclusion m).1) :
    InCorpus s.motherSize (s.exclusion m).1 ∧ InCorpus s.motherSize (s.exclusion m).2 ∧
      (s.exclusion m).1 ≤ (s.exclusion m).2 := by
  obtain ⟨hstart, hstop, hlt, htarget, hkeyword⟩ := hm
  unfold exclusion at *
  unfold InCorpus
  cases hb : s.base <;> simp only [hb] at h0 ⊢ <;> omega

theorem anchors_fst (m : Match) : (s.anchors m).1 = (s.exclusion m).1 := by
  rw [anchors]
  split_ifs <;> rfl

theorem anchors_inCorpus (hm : m.Located s.motherSize) (h0 : 0 ≤ (s.exclusion m).1) :
    InCorpus s.motherSize (s.anchors m).2 ∧ (s.exclusion m).1 ≤ (s.anchors m).2 := by
  obtain ⟨hfirst, hlast, hle⟩ := exclusion_inCorpus hm h0
  rw [anchors]
  split_ifs
  · exact ⟨hfirst, le_rfl⟩
  · exact ⟨hlast, hle⟩

/-- All bases alike. -/
theorem bounds_eq (hm : m.Located s.motherSize) :
    s.bounds m = if 0 ≤ (s.exclusion m).1 then do
        let left ← calculateRanges s.motherSize s.context (s.anchors m).1
        let right ← calculateRanges s.motherSize s.context (s.anchors m).2
        some (left.1, right.2)
      else none := by
  have hself : ∀ p, calculateRanges s.motherSize s.context p = (do
      let left ← calculateRanges s.motherSize s.context p
      let right ← calculateRanges s.motherSize s.context p
      some (left.1, right.2)) := fun p => by cases calculateRanges s.motherSize s.context p <;> rfl
  have hsame : s.base ≠ .matchField → s.anchors m = ((s.exclusion m).1, (s.exclusion m).1) := by
    intro hne
    rw [anchors, ite_eq_left_iff]
    intro _
    unfold exclusion
    cases hb : s.base <;> first | rfl | exact absurd hb hne
  have hstart := hm.start
  unfold bounds
  cases hb : s.base with
  | matchField =>
    have hexcl : s.exclusion m = (m.start, m.stop) := by rw [exclusion, hb]
    simp only [hexcl, if_pos hstart]
    by_cases hsingle : m.start = m.stop ∨ s.inclusive
    · have hanchors : s.anchors m = (m.start, m.start) := by
        rw [anchors, hexcl]
        split_ifs with hi
        · rfl
        · rw [hsingle.resolve_right hi]
      rw [if_pos hsingle, hanchors]
      exact hself _
    · have hanchors : s.anchors m = (m.start, m.stop) := by
        rw [anchors, hexcl, if_neg fun hi => hsingle (.inr hi)]
      rw [if_neg hsingle, hanchors]
  | matchEndField | targetField | keywordField =>
    rw [hsame (by simp [hb])]
    simp only [ge_iff_le, ← hself]

theorem Valid.bounds_spec (h : s.Valid) (hm : m.Located s.motherSize) :
    (∃ l r, s.bounds m = some (l, r) ∧ (∀ p, s.InWindow m p ↔ l ≤ p ∧ p ≤ r) ∧ 0 ≤ l ∧ l ≤ (s.exclusion m).1 ∧
        (s.exclusion m).1 ≤ r ∧ r < s.motherSize ∧ s.Fits m) ∨
      (s.bounds m = none ∧ ((∀ p, ¬s.InWindow m p) ∨ ¬s.Fits m)) := by
  rw [bounds_eq hm]
  by_cases h0 : 0 ≤ (s.exclusion m).1
  · rw [if_pos h0]
    obtain ⟨hfirst, -, -⟩ := exclusion_inCorpus hm h0
    obtain ⟨hlast, hle⟩ := anchors_inCorpus hm h0
    rw [← anchors_fst] at hfirst hle ⊢
    rcases h.calculateRanges_spec hfirst with ⟨left, hleft, hhull, hfit⟩ | ⟨hleft, hnone⟩
    · rcases h.calculateRanges_spec hlast with ⟨right, hright, hhull', hfit'⟩ | ⟨hright, hnone⟩
      · left
        have hself := hhull.within _ (h.reaches_inCorpus hhull.left).2
        have hself' := hhull'.within _ (h.reaches_inCorpus hhull'.left).2
        refine ⟨left.1, right.2, by rw [hleft, hright]; rfl,
          fun p => ⟨fun ⟨⟨q, hq, hqp⟩, q', hq', hpq⟩ => ?_, fun ⟨hl, hr⟩ => ?_⟩,
          (h.reaches_inCorpus hhull.left).1.1, hself.1, hle.trans hself'.2, (h.reaches_inCorpus hhull'.right).1.2, hfit, hfit'⟩
        · exact ⟨(hhull.within q hq).1.trans hqp, hpq.trans (hhull'.within q' hq').2⟩
        · exact ⟨⟨left.1, hhull.left, hl⟩, right.2, hhull'.right, hr⟩
      · right
        refine ⟨by rw [hleft, hright]; rfl, ?_⟩
        rcases hnone with hno | hno
        · exact .inl fun p ⟨_, q, hq, _⟩ => hno q hq
        · exact .inr fun hf => hno hf.2
    · right
      refine ⟨by rw [hleft]; rfl, ?_⟩
      rcases hnone with hno | hno
      · exact .inl fun p ⟨⟨q, hq, _⟩, _⟩ => hno q hq
      · exact .inr fun hf => hno hf.1
  · right
    refine ⟨if_neg h0, .inl fun p ⟨⟨q, hq, _⟩, _⟩ => h0 ?_⟩
    rw [← anchors_fst]
    exact (h.reaches_inCorpus (h.reaches_inCorpus hq).2).1.1

end Lines

/-! The loops. -/

section Loops

variable {e e2 l r p : ℤ} {d : ℕ}

theorem test_eq_some_iff {i : ℤ} : s.test e e2 i = some p ↔ p = i ∧ s.Admits e e2 i := by
  rw [test, Admits]
  split_ifs with h
  · simp only [some.injEq]
    exact ⟨fun hp => ⟨hp.symm, h⟩, fun hp => hp.1.symm⟩
  · simp only [false_iff]
    exact fun hp => h hp.2

theorem test_eq_none_iff {i : ℤ} : s.test e e2 i = none ↔ ¬s.Admits e e2 i := by
  rw [test, Admits]
  split_ifs with h <;> simp [h]

/-- A loop over the positions in the order of preference. -/
theorem chosen_up {base : ℤ} {n : ℕ} {position : ℕ → ℤ} (hin : ∀ k < n, l ≤ position k ∧ position k ≤ r)
    (hall : ∀ q, l ≤ q ∧ q ≤ r → ∃ k < n, position k = q)
    (hprefers : ∀ k k', k ≤ k' → Prefers strategy base (position k) (position k')) :
    Chosen strategy (fun p => (l ≤ p ∧ p ≤ r) ∧ s.Admits e e2 p) base
      ((FirstHit.up n fun k => s.test e e2 (position k)).getD (-1)) := by
  cases hfound : FirstHit.up n fun k => s.test e e2 (position k) with
  | some p =>
    left
    obtain ⟨k, hk, htest, hbefore⟩ := FirstHit.up_eq_some_iff.mp hfound
    obtain ⟨rfl, hadmits⟩ := test_eq_some_iff.mp htest
    refine ⟨⟨hin k hk, hadmits⟩, fun q ⟨hq, hq'⟩ => ?_⟩
    obtain ⟨k', hk', rfl⟩ := hall q hq
    apply hprefers
    by_contra hlt
    exact test_eq_none_iff.mp (hbefore k' hk' (not_le.mp hlt)) hq'
  | none =>
    right
    refine ⟨rfl, fun q ⟨hq, hq'⟩ => ?_⟩
    obtain ⟨k, hk, rfl⟩ := hall q hq
    exact test_eq_none_iff.mp (FirstHit.up_eq_none_iff.mp hfound k hk) hq'

theorem chosen_leftmost (e e2 l r base : ℤ) :
    Chosen .leftmost (fun p => (l ≤ p ∧ p ≤ r) ∧ s.Admits e e2 p) base ((s.search .leftmost e e2 l r).getD (-1)) := by
  apply chosen_up
  · intro k hk
    omega
  · intro q hq
    exact ⟨(q - l).toNat, by omega, by omega⟩
  · intro k k' hle
    simp only [Prefers]
    omega

theorem chosen_rightmost (e e2 l r base : ℤ) :
    Chosen .rightmost (fun p => (l ≤ p ∧ p ≤ r) ∧ s.Admits e e2 p) base ((s.search .rightmost e e2 l r).getD (-1)) := by
  apply chosen_up
  · intro k hk
    omega
  · intro q hq
    exact ⟨(r - q).toNat, by omega, by omega⟩
  · intro k k' hle
    simp only [Prefers]
    omega

/-- The sum of the base and a distance wraps around to a position that the constraint accepts. -/
def Wraps (s : TargetSearch) (e : ℤ) (d : ℕ) : Prop := s.inclusive ∧ 2 ^ 31 ≤ e + d ∧ s.constr (e + d - 2 ^ 32)

/-- The base lies in a window of the corpus. -/
structure Inside (e e2 l r : ℤ) : Prop where
  left : 0 ≤ l
  base : l ≤ e ∧ e ≤ r
  right : r < 2 ^ 31 - 1
  stop : e ≤ e2

variable (h : Inside e e2 l r)

include h

theorem Inside.intSum (hd : e + d < 2 ^ 31) : intSum e d = e + d := by
  have := h.left
  have := h.base
  exact intSum_eq (by omega) hd

theorem Inside.intSum_of_ge (hd : d < (max (e - l) (r - e) + 1).toNat) (hge : 2 ^ 31 ≤ e + d) :
    CWB.intSum e d = e + d - 2 ^ 32 := by
  have := h.left
  have := h.base
  have := h.right
  exact CWB.intSum_of_ge hge (by omega)

theorem probe_of_nonneg (hd : d < (max (e - l) (r - e) + 1).toNat) (hp : s.probe e e2 l r d = some p) (h0 : 0 ≤ p) :
    ((l ≤ p ∧ p ≤ r) ∧ s.Admits e e2 p) ∧ (p - e).natAbs = d := by
  have hl := h.left
  have hb := h.base
  have hr := h.right
  unfold probe at hp
  simp only at hp
  split_ifs at hp with hleft hright
  · obtain rfl := some.inj hp
    exact ⟨⟨⟨hleft.1, by omega⟩, hleft.2.1.imp_right Or.inl, hleft.2.2⟩, by omega⟩
  · obtain rfl := some.inj hp
    by_cases hlt : e + d < 2 ^ 31
    · rw [h.intSum hlt] at hright ⊢
      exact ⟨⟨⟨by omega, hright.1⟩, hright.2.1.imp_right Or.inr, hright.2.2⟩, by omega⟩
    · rw [h.intSum_of_ge hd (by omega)] at h0
      omega

theorem probe_of_neg (hd : d < (max (e - l) (r - e) + 1).toNat) (hp : s.probe e e2 l r d = some p) (hneg : p < 0) :
    s.Wraps e d ∧ p = e + d - 2 ^ 32 := by
  have hl := h.left
  have hb := h.base
  have hs := h.stop
  unfold probe at hp
  simp only at hp
  split_ifs at hp with hleft hright
  · obtain rfl := some.inj hp
    omega
  · obtain rfl := some.inj hp
    by_cases hlt : e + d < 2 ^ 31
    · rw [h.intSum hlt] at hneg
      omega
    · have hsum := h.intSum_of_ge hd (by omega)
      rw [hsum] at hright ⊢
      have := h.right
      exact ⟨⟨hright.2.1.resolve_right (by omega), by omega, hright.2.2⟩, rfl⟩

theorem Wraps.probe_ne_none (hw : s.Wraps e d) (hd : d < (max (e - l) (r - e) + 1).toNat) : s.probe e e2 l r d ≠ none := by
  have hl := h.left
  have hb := h.base
  have hr := h.right
  unfold probe
  simp only [ne_eq]
  split_ifs with hleft hright
  · simp
  · simp
  · refine absurd ⟨?_, .inl hw.1, ?_⟩ hright
    · rw [h.intSum_of_ge hd hw.2.1]
      omega
    · rw [h.intSum_of_ge hd hw.2.1]
      exact hw.2.2

/-- A round at the distance of an admitted position finds this position, or the one on the other side of the base. -/
theorem probe_of_admits (hin : l ≤ p ∧ p ≤ r) (hp : s.Admits e e2 p) :
    ∃ q, s.probe e e2 l r (p - e).natAbs = some q ∧ 0 ≤ q ∧ q ≤ p := by
  have hl := h.left
  have hb := h.base
  have hr := h.right
  have hs := h.stop
  obtain ⟨hside, hconstr⟩ := hp
  unfold probe
  simp only
  by_cases hle : p ≤ e
  · have hi : e - ((p - e).natAbs : ℤ) = p := by omega
    rw [hi, if_pos ⟨hin.1, hside.imp_right fun hside => by omega, hconstr⟩]
    exact ⟨p, rfl, by omega, le_rfl⟩
  · have hi : CWB.intSum e (p - e).natAbs = p := by
      rw [h.intSum (by omega)]
      omega
    split_ifs with hleft hright
    · exact ⟨_, rfl, by omega, by omega⟩
    · rw [hi]
      exact ⟨p, rfl, by omega, le_rfl⟩
    · refine absurd ⟨?_, ?_, ?_⟩ hright
      · exact hi.symm ▸ hin.2
      · rw [hi]
        exact hside.imp_right fun hside => by omega
      · exact hi.symm ▸ hconstr

/-- A loop over the distances in the order of `before`. -/
theorem chosen_distance (strategy : SearchStrategy) (before : ℕ → ℕ → Prop) {found : Option ℤ}
    (htotal : ∀ k k', before k k' ∨ k = k' ∨ before k' k)
    (hprefers : ∀ p q, Prefers strategy e p q ↔
      before (p - e).natAbs (q - e).natAbs ∨ ((p - e).natAbs = (q - e).natAbs ∧ p ≤ q))
    (hsome : ∀ p, found = some p → ∃ k < (max (e - l) (r - e) + 1).toNat, s.probe e e2 l r k = some p ∧
      ∀ k' < (max (e - l) (r - e) + 1).toNat, before k' k → s.probe e e2 l r k' = none)
    (hnone : found = none → ∀ k < (max (e - l) (r - e) + 1).toNat, s.probe e e2 l r k = none) :
    Chosen strategy (fun p => (l ≤ p ∧ p ≤ r) ∧ s.Admits e e2 p) e (found.getD (-1)) ↔
      ∀ d < (max (e - l) (r - e) + 1).toNat, s.Wraps e d →
        ∃ q, ((l ≤ q ∧ q ≤ r) ∧ s.Admits e e2 q) ∧ ¬before d (q - e).natAbs := by
  have hb := h.base
  have hdist : ∀ q, l ≤ q ∧ q ≤ r → (q - e).natAbs < (max (e - l) (r - e) + 1).toNat := fun q hq => by omega
  refine ⟨fun hchosen d hd hw => ?_, fun hall => ?_⟩
  · cases hfound : found with
    | none => exact absurd (hnone hfound d hd) (hw.probe_ne_none h hd)
    | some p =>
      obtain ⟨k, hk, hprobe, hbefore⟩ := hsome p hfound
      have hnot : ¬before d k := fun hlt => hw.probe_ne_none h hd (hbefore d hd hlt)
      rw [hfound, getD_some] at hchosen
      by_cases h0 : 0 ≤ p
      · obtain ⟨hp, hdistance⟩ := probe_of_nonneg h hk hprobe h0
        exact ⟨p, hp, hdistance ▸ hnot⟩
      · -- the wrapped position is no position of the corpus, and below -1
        obtain ⟨-, rfl⟩ := probe_of_neg h hk hprobe (by omega)
        have hl := h.left
        have hr := h.right
        rcases hchosen with ⟨hp, -⟩ | ⟨hundef, -⟩
        · omega
        · omega
  · cases hfound : found with
    | none =>
      right
      refine ⟨rfl, fun q hq => ?_⟩
      obtain ⟨p, hprobe, -⟩ := probe_of_admits h hq.1 hq.2
      rw [hnone hfound _ (hdist q hq.1)] at hprobe
      exact absurd hprobe (by simp)
    | some p =>
      obtain ⟨k, hk, hprobe, hbefore⟩ := hsome p hfound
      have hlater : ∀ q, (l ≤ q ∧ q ≤ r) ∧ s.Admits e e2 q → ¬before (q - e).natAbs k := fun q hq hlt => by
        obtain ⟨p', hprobe', -⟩ := probe_of_admits h hq.1 hq.2
        rw [hbefore _ (hdist q hq.1) hlt] at hprobe'
        exact absurd hprobe' (by simp)
      by_cases h0 : 0 ≤ p
      · left
        obtain ⟨hp, hdistance⟩ := probe_of_nonneg h hk hprobe h0
        refine ⟨hp, fun q hq => (hprefers _ _).mpr ?_⟩
        rw [getD_some, hdistance]
        rcases htotal k (q - e).natAbs with hlt | heq | hgt
        · exact .inl hlt
        · obtain ⟨p', hprobe', -, hle⟩ := probe_of_admits h hq.1 hq.2
          rw [← heq, hprobe] at hprobe'
          exact .inr ⟨heq, (some.inj hprobe') ▸ hle⟩
        · exact absurd hgt (hlater q hq)
      · exfalso
        obtain ⟨hw, -⟩ := probe_of_neg h hk hprobe (by omega)
        obtain ⟨q, hq, hnot⟩ := hall k hk hw
        rcases htotal k (q - e).natAbs with hlt | heq | hgt
        · exact hnot hlt
        · obtain ⟨p', hprobe', h0', -⟩ := probe_of_admits h hq.1 hq.2
          rw [← heq, hprobe] at hprobe'
          exact h0 (some.inj hprobe' ▸ h0')
        · exact hlater q hq hgt

end Loops

/-! The cell of a line. -/

section Cells

/-- The strategy that the search with a direction leaves. -/
def rewritten (s : TargetSearch) (strategy : SearchStrategy) : SearchStrategy := (s.sided strategy 0 0 0).1

theorem sided_fst (strategy : SearchStrategy) (e l r : ℤ) : (s.sided strategy e l r).1 = s.rewritten strategy := by
  unfold rewritten sided
  cases s.direction <;> rfl

theorem sided_snd (strategy : SearchStrategy) (e l r : ℤ) : (s.sided strategy e l r).2 =
    match s.direction with
    | .left => (l, e)
    | .right => (e, r)
    | .leftRight => (l, r) := by
  unfold sided
  cases s.direction <;> rfl

theorem sided_rewritten (strategy : SearchStrategy) (e l r : ℤ) :
    s.sided (s.rewritten strategy) e l r = s.sided strategy e l r := by
  unfold rewritten sided
  cases s.direction <;> cases strategy <;> rfl

/-- What the search finds for a line, whatever the lines before it. -/
def cell (s : TargetSearch) (m : Match) : ℤ := (s.searchLine s.strategy m).2

theorem searchLine_rewritten (strategy : SearchStrategy) (m : Match) :
    (s.searchLine (s.rewritten strategy) m).2 = (s.searchLine strategy m).2 := by
  unfold searchLine
  cases s.bounds m with
  | none => rfl
  | some bounds =>
    simp only [sided_rewritten]
    split_ifs <;> rfl

theorem searchLine_fst (strategy : SearchStrategy) (m : Match) :
    (s.searchLine strategy m).1 = strategy ∨ (s.searchLine strategy m).1 = s.rewritten strategy := by
  unfold searchLine
  cases s.bounds m with
  | none => exact .inl rfl
  | some bounds =>
    simp only
    split_ifs
    · exact .inr (sided_fst ..)
    · exact .inl rfl

/-- The strategy that is carried from line to line makes no difference. -/
theorem tableLoop_eq (hstrategy : strategy = s.strategy ∨ strategy = s.rewritten s.strategy)
    (lines : ℕ → Match) (interrupt rest line : ℕ) : s.tableLoop lines interrupt rest line strategy =
      (range' line rest).map fun k => if k < interrupt then s.cell (lines k) else 0 := by
  induction rest generalizing line strategy with
  | zero => rfl
  | succ rest ih =>
    rw [tableLoop]
    by_cases hlt : line < interrupt
    · have hcell : (s.searchLine strategy (lines line)).2 = s.cell (lines line) := by
        rcases hstrategy with rfl | rfl
        · rfl
        · exact searchLine_rewritten ..
      have hnext : (s.searchLine strategy (lines line)).1 = s.strategy ∨
          (s.searchLine strategy (lines line)).1 = s.rewritten s.strategy := by
        have hidem : s.rewritten (s.rewritten s.strategy) = s.rewritten s.strategy := by
          rw [rewritten, sided_rewritten, ← rewritten]
        rcases hstrategy with rfl | rfl
        · exact searchLine_fst ..
        · right
          rcases searchLine_fst (s := s) (s.rewritten s.strategy) (lines line) with hfst | hfst
          · exact hfst
          · exact hfst.trans hidem
      simp only [if_pos hlt, range'_succ, map_cons, hcell, ih hnext]
    · simp only [if_neg hlt]
      symm
      rw [eq_replicate_iff]
      refine ⟨by simp, fun x hx => ?_⟩
      obtain ⟨k, hk, rfl⟩ := List.mem_map.mp hx
      have := mem_range'_1.mp hk
      exact if_neg (by omega)

theorem table_eq (s : TargetSearch) (c : QueryResult) (interrupt : ℕ) :
    s.table c interrupt = (List.range c.size).map fun k => if k < interrupt then s.cell (c.line k) else 0 := by
  rw [table, tableLoop_eq (.inl rfl), range_eq_range']

theorem getD_table (s : TargetSearch) (c : QueryResult) (interrupt : ℕ) {k : ℕ} (hk : k < c.size) :
    (s.table c interrupt).getD k 0 = if k < interrupt then s.cell (c.line k) else 0 := by
  rw [table_eq, getD_eq_getElem _ _ (by simpa using hk)]
  simp

end Cells

end TargetSearch

theorem Chosen.congr {strategy' : SearchStrategy} {P P' : ℤ → Prop} {base x : ℤ} (h : Chosen strategy P base x)
    (hP : ∀ p, P p ↔ P' p) (hprefers : ∀ p q, P p → P q → Prefers strategy base p q → Prefers strategy' base p q) :
    Chosen strategy' P' base x := by
  rcases h with ⟨hx, hbest⟩ | ⟨hx, hno⟩
  · exact .inl ⟨(hP x).mp hx, fun q hq => hprefers x q hx ((hP q).mpr hq) (hbest q ((hP q).mpr hq))⟩
  · exact .inr ⟨hx, fun q hq => hno q ((hP q).mpr hq)⟩

namespace TargetSearch

variable {s : TargetSearch} {m : Match}

/-- In a search by distance to both sides, the sum of the base and a distance within the window wraps
around to a position that the constraint accepts. -/
def Disturbs (s : TargetSearch) (m : Match) (d : ℕ) : Prop :=
  s.direction = .leftRight ∧ (∃ p, s.InWindow m p ∧ d ≤ (p - (s.exclusion m).1).natAbs) ∧ s.Wraps (s.exclusion m).1 d

/-- A candidate is tried before the distance, or in the same round. -/
def TriedBefore (s : TargetSearch) (m : Match) (d : ℕ) : Prop :=
  match s.strategy with
  | .nearest => ∃ q, s.Candidate m q ∧ (q - (s.exclusion m).1).natAbs ≤ d
  | .farthest => ∃ q, s.Candidate m q ∧ d ≤ (q - (s.exclusion m).1).natAbs
  | .leftmost | .rightmost | .none => True

/-- Either the window can be computed and no sum in the search leads astray, or nothing is missed
because the line has no candidate. -/
structure NoOverflow (s : TargetSearch) (m : Match) : Prop where
  window : ¬s.Fits m → ∀ p, ¬s.Candidate m p
  search : s.Fits m → ∀ d, s.Disturbs m d → s.TriedBefore m d

/-- What `evaluate_target` is meant to find for a line. -/
def Preferred (s : TargetSearch) (m : Match) (x : ℤ) : Prop := Chosen s.strategy (s.Candidate m) (s.exclusion m).1 x

theorem cell_of_bounds {l r : ℤ} (hb : s.bounds m = some (l, r)) (h0 : 0 ≤ l ∧ 0 ≤ r) :
    s.cell m = (s.search (s.rewritten s.strategy) (s.exclusion m).1 (s.exclusion m).2
      (s.sided s.strategy (s.exclusion m).1 l r).2.1 (s.sided s.strategy (s.exclusion m).1 l r).2.2).getD (-1) := by
  rw [cell, searchLine, hb]
  simp only [if_pos (show l ≥ 0 ∧ r ≥ 0 from h0), ← sided_fst s.strategy (s.exclusion m).1 l r]

/-- On one side of the base the rewritten strategy means the same. -/
theorem prefers_of_rewritten {base p q : ℤ} (hleft : s.direction = .left → p ≤ base ∧ q ≤ base)
    (hright : s.direction = .right → base ≤ p ∧ base ≤ q) (h : Prefers (s.rewritten strategy) base p q) :
    Prefers strategy base p q := by
  unfold rewritten sided at h
  cases hd : s.direction with
  | left =>
    have := hleft hd
    simp only [hd] at h
    cases strategy <;> simp only [Prefers] at h ⊢ <;> omega
  | right =>
    have := hright hd
    simp only [hd] at h
    cases strategy <;> simp only [Prefers] at h ⊢ <;> omega
  | leftRight =>
    simp only [hd] at h
    exact h

/-- The window without the side that the direction leaves out. -/
theorem candidate_iff {l r : ℤ} (hwindow : ∀ p, s.InWindow m p ↔ l ≤ p ∧ p ≤ r)
    (hbase : l ≤ (s.exclusion m).1 ∧ (s.exclusion m).1 ≤ r) (p : ℤ) : s.Candidate m p ↔
      ((s.sided s.strategy (s.exclusion m).1 l r).2.1 ≤ p ∧ p ≤ (s.sided s.strategy (s.exclusion m).1 l r).2.2) ∧
        s.Admits (s.exclusion m).1 (s.exclusion m).2 p := by
  have hcandidate : s.Candidate m p ↔ ((l ≤ p ∧ p ≤ r) ∧ (s.direction = .left → p ≤ (s.exclusion m).1) ∧
      (s.direction = .right → (s.exclusion m).1 ≤ p)) ∧ s.Admits (s.exclusion m).1 (s.exclusion m).2 p := by
    rw [← hwindow]
    exact ⟨fun ⟨hw, hl, hr, ha⟩ => ⟨⟨hw, hl, hr⟩, ha⟩, fun ⟨⟨hw, hl, hr⟩, ha⟩ => ⟨hw, hl, hr, ha⟩⟩
  rw [hcandidate, and_congr_left_iff, sided_snd]
  intro _
  cases s.direction <;> simp only [reduceCtorEq, false_implies, true_implies, and_true, true_and] <;> omega

theorem preferred_of_ends {l r : ℤ} (hb : s.bounds m = some (l, r)) (h0 : 0 ≤ l ∧ 0 ≤ r)
    (hwindow : ∀ p, s.InWindow m p ↔ l ≤ p ∧ p ≤ r) (hbase : l ≤ (s.exclusion m).1 ∧ (s.exclusion m).1 ≤ r)
    (hrewritten : s.rewritten s.strategy = .leftmost ∨ s.rewritten s.strategy = .rightmost) : s.Preferred m (s.cell m) := by
  have hprefers : ∀ p q, s.Candidate m p → s.Candidate m q → Prefers (s.rewritten s.strategy) (s.exclusion m).1 p q →
      Prefers s.strategy (s.exclusion m).1 p q := fun p q hp hq =>
    prefers_of_rewritten (fun hd => ⟨hp.left hd, hq.left hd⟩) (fun hd => ⟨hp.right hd, hq.right hd⟩)
  have hP := candidate_iff hwindow hbase
  rw [cell_of_bounds hb h0]
  rcases hrewritten with hre | hre
  · rw [hre] at hprefers ⊢
    exact (chosen_leftmost ..).congr (fun p => (hP p).symm) fun p q hp hq => hprefers p q ((hP p).mpr hp) ((hP q).mpr hq)
  · rw [hre] at hprefers ⊢
    exact (chosen_rightmost ..).congr (fun p => (hP p).symm) fun p q hp hq => hprefers p q ((hP p).mpr hp) ((hP q).mpr hq)

/-- A distance of the loops is one to a position of the window. -/
theorem exists_distance_iff {e l r : ℤ} (hbase : l ≤ e ∧ e ≤ r) (d : ℕ) :
    d < (max (e - l) (r - e) + 1).toNat ↔ ∃ p, (l ≤ p ∧ p ≤ r) ∧ d ≤ (p - e).natAbs := by
  refine ⟨fun hd => ?_, fun ⟨p, hp, hd⟩ => by omega⟩
  by_cases hle : r - e ≤ e - l
  · exact ⟨l, by omega, by omega⟩
  · exact ⟨r, by omega, by omega⟩

section Distance

variable {l r : ℤ} (hwindow : ∀ p, s.InWindow m p ↔ l ≤ p ∧ p ≤ r) (hinside : Inside (s.exclusion m).1 (s.exclusion m).2 l r)
  (hd : s.direction = .leftRight)

include hwindow hinside hd

theorem disturbs_iff (d : ℕ) : s.Disturbs m d ↔
    d < (max ((s.exclusion m).1 - l) (r - (s.exclusion m).1) + 1).toNat ∧ s.Wraps (s.exclusion m).1 d := by
  rw [exists_distance_iff hinside.base]
  simp only [Disturbs, hwindow]
  exact ⟨fun h => h.2, fun h => ⟨hd, h⟩⟩

theorem candidate_eq : s.Candidate m = fun p => (l ≤ p ∧ p ≤ r) ∧ s.Admits (s.exclusion m).1 (s.exclusion m).2 p := by
  funext p
  rw [candidate_iff hwindow hinside.base, sided_snd, hd]

theorem preferred_of_distance (hb : s.bounds m = some (l, r)) (hst : s.strategy = .nearest ∨ s.strategy = .farthest) :
    s.Preferred m (s.cell m) ↔ ∀ d, s.Disturbs m d → s.TriedBefore m d := by
  have hcell := cell_of_bounds hb ⟨hinside.left, hinside.left.trans (hinside.base.1.trans hinside.base.2)⟩
  simp only [rewritten, sided, hd] at hcell
  simp only [disturbs_iff hwindow hinside hd, and_imp, Preferred, TriedBefore, candidate_eq hwindow hinside hd, hcell]
  rcases hst with hst | hst
  · have hloop := chosen_distance (s := s) hinside .nearest (· < ·) lt_trichotomy (fun p q => Iff.rfl)
      (fun p => FirstHit.up_eq_some_iff.mp) FirstHit.up_eq_none_iff.mp
    simp only [not_lt] at hloop
    simp only [hst]
    exact hloop
  · have hloop := chosen_distance (s := s) hinside .farthest (· > ·)
      (fun k k' => (lt_trichotomy k' k).imp_right (Or.imp_left Eq.symm)) (fun p q => by rw [Prefers, gt_iff_lt])
      (fun p => FirstHit.down_eq_some_iff.mp) FirstHit.down_eq_none_iff.mp
    simp only [gt_iff_lt, not_lt] at hloop
    simp only [hst]
    exact hloop

end Distance

theorem cell_of_bounds_none (hb : s.bounds m = none) : s.cell m = -1 := by
  rw [cell, searchLine, hb]

/-- A line gets the preferred position of its window, unless a sum overflows on the way. -/
theorem Valid.preferred_iff (h : s.Valid) (hm : m.Located s.motherSize) : s.Preferred m (s.cell m) ↔ s.NoOverflow m := by
  rcases h.bounds_spec hm with ⟨l, r, hb, hwindow, h0, hl, hr, hlt, hfits⟩ | ⟨hb, hnone⟩
  · have hsize := h.size_lt
    have hinside : Inside (s.exclusion m).1 (s.exclusion m).2 l r :=
      ⟨h0, ⟨hl, hr⟩, by omega, (exclusion_inCorpus hm (h0.trans hl)).2.2⟩
    have hno : s.NoOverflow m ↔ ∀ d, s.Disturbs m d → s.TriedBefore m d :=
      ⟨fun hno => hno.search hfits, fun hall => ⟨fun hnot => absurd hfits hnot, fun _ => hall⟩⟩
    rw [hno]
    by_cases hd : s.direction = .leftRight
    · by_cases hst : s.strategy = .nearest ∨ s.strategy = .farthest
      · exact preferred_of_distance hwindow hinside hd hb hst
      · refine iff_of_true (preferred_of_ends hb ⟨h0, h0.trans (hl.trans hr)⟩ hwindow ⟨hl, hr⟩ ?_) fun d _ => ?_
        · have hnone := h.strategy
          simp only [rewritten, sided, hd]
          cases hs : s.strategy <;> simp_all
        · rw [TriedBefore]
          cases hs : s.strategy <;> simp_all
    · refine iff_of_true (preferred_of_ends hb ⟨h0, h0.trans (hl.trans hr)⟩ hwindow ⟨hl, hr⟩ ?_) fun d hdist => absurd hdist.1 hd
      have hnone := h.strategy
      simp only [rewritten, sided]
      cases hd' : s.direction <;> cases hs : s.strategy <;> simp_all
  · rw [cell_of_bounds_none hb]
    have hnegative : ∀ p, s.Candidate m p → p ≠ -1 := fun p hp => by
      obtain ⟨q, hq, hqp⟩ := hp.window.1
      have := (h.reaches_inCorpus hq).1.1
      omega
    refine ⟨fun hpreferred => ⟨fun _ p hp => ?_, fun hfits d hdist => ?_⟩, fun hno => .inr ⟨rfl, fun p hp => ?_⟩⟩
    · rcases hpreferred with ⟨hself, -⟩ | ⟨-, hno⟩
      · exact hnegative _ hself rfl
      · exact hno p hp
    · obtain ⟨p, hp, -⟩ := hdist.2.1
      exact absurd hp (hnone.resolve_right (not_not.mpr hfits) p)
    · rcases hnone with hempty | hfits
      · exact hempty p hp.window
      · exact hno.window hfits p hp

end TargetSearch

/-! The command. -/

/-- The number and the strategy as the parser passes them. -/
structure TargetCommand.Parsed (cmd : TargetCommand) : Prop where
  units : cmd.units < 2 ^ 31
  strategy : cmd.strategy ≠ .none

namespace SearchCorpus

variable {corpus : SearchCorpus} {cmd : TargetCommand} {c : QueryResult} {s : TargetSearch} {interrupt : ℕ}

/-- A corpus that CWB can hold, with the data of its attributes. -/
structure Valid (corpus : SearchCorpus) : Prop where
  size_lt : corpus.motherSize < 2 ^ 31
  regions : ∀ name attrib, corpus.strucAttribute name = some attrib →
    attrib.strucData = true ∧ Cqi.SortedRegions attrib.regions ∧ ∀ r ∈ attrib.regions, r.2 < corpus.motherSize

theorem targetSearch_eq_some (h : corpus.targetSearch cmd c = some s) :
    0 < cmd.units ∧ corpus.context cmd.units cmd.attrName = some s.context ∧ s.motherSize = corpus.motherSize ∧
      s.strategy = cmd.strategy := by
  rw [targetSearch] at h
  cases hconstr : cmd.constr with
  | none => simp [hconstr] at h
  | some constr =>
    simp only [hconstr, bind_eq_bind, bind_some] at h
    split_ifs at h with hbad
    cases hcontext : corpus.context cmd.units cmd.attrName with
    | none => simp [hcontext] at h
    | some context =>
      simp only [hcontext, bind_some, some.injEq] at h
      subst h
      exact ⟨by omega, rfl, rfl, rfl⟩

theorem Valid.search (hcorpus : corpus.Valid) (hcmd : cmd.Parsed) (h : corpus.targetSearch cmd c = some s) : s.Valid := by
  obtain ⟨hunits, hcontext, hsize, hstrategy⟩ := targetSearch_eq_some h
  rw [context] at hcontext
  split_ifs at hcontext
  · obtain hcontext := some.inj hcontext
    refine ⟨hsize ▸ hcorpus.size_lt, ?_, fun attrib units hattrib => ?_, hstrategy ▸ hcmd.strategy⟩
    · rw [← hcontext]
      exact ⟨hunits, hcmd.units⟩
    · rw [← hcontext] at hattrib
      exact absurd hattrib (by simp)
  · obtain ⟨attrib, hattrib, hcontext⟩ := map_eq_some_iff.mp hcontext
    refine ⟨hsize ▸ hcorpus.size_lt, ?_, fun attrib' units hattrib' => ?_, hstrategy ▸ hcmd.strategy⟩
    · rw [← hcontext]
      exact ⟨hunits, hcmd.units⟩
    · rw [← hcontext] at hattrib'
      obtain ⟨rfl, -⟩ := Context.structure.inj hattrib'
      exact hsize ▸ hcorpus.regions _ _ hattrib

/-- Not interrupted, `evaluate_target` enters the preferred position for each line, except where a sum overflows. -/
theorem evaluateTarget_preferred_iff (h : corpus.targetSearch cmd c = some s) (hcorpus : corpus.Valid) (hcmd : cmd.Parsed)
    (hlines : ∀ k < c.size, (c.line k).Located corpus.motherSize) (hinterrupt : c.size ≤ interrupt) :
    corpus.evaluateTarget cmd interrupt c = (c.setField cmd.goal (s.table c interrupt)).resort cmd.goal ∧
      ((∀ k < c.size, s.Preferred (c.line k) ((s.table c interrupt).getD k 0)) ↔ ∀ k < c.size, s.NoOverflow (c.line k)) := by
  have hvalid := hcorpus.search hcmd h
  have hsize := (targetSearch_eq_some h).2.2.1
  refine ⟨by rw [evaluateTarget, h], forall₂_congr fun k hk => ?_⟩
  rw [TargetSearch.getD_table s c interrupt hk, if_pos (hk.trans_le hinterrupt)]
  exact hvalid.preferred_iff (hsize ▸ hlines k hk)

/-! A search within two words around a match that includes neither of its tokens. -/

def shortCorpus : SearchCorpus := { motherSize := 10, strucAttribute := fun _ => none }

def nearestOdd : TargetCommand where
  goal := .targetField
  base := .matchField
  inclusive := false
  strategy := .nearest
  constr := some fun i => i % 2 = 1
  direction := .leftRight
  units := 2
  attrName := "word"

def nearestOddSearch : TargetSearch where
  motherSize := 10
  base := .matchField
  inclusive := false
  strategy := .nearest
  constr := fun i => i % 2 = 1
  direction := .leftRight
  context := .word 2

def twoMatches : QueryResult := { range := [(2, 3), (6, 6)] }

theorem shortCorpus_valid : shortCorpus.Valid := ⟨by decide, fun _ _ h => nomatch h⟩

theorem nearestOdd_parsed : nearestOdd.Parsed := ⟨by decide, by decide⟩

theorem word_toLower : "word".toLower = "word" := by decide +kernel

theorem nearestOdd_search : shortCorpus.targetSearch nearestOdd twoMatches = some nearestOddSearch := by
  have hcontext : shortCorpus.context 2 "word" = some (.word 2) := if_pos (.inl word_toLower)
  simp only [targetSearch, nearestOdd, hcontext]
  rfl

theorem twoMatches_located : ∀ k < twoMatches.size, (twoMatches.line k).Located 10
  | 0, _ => ⟨by decide, by decide, by decide, by decide, by decide⟩
  | 1, _ => ⟨by decide, by decide, by decide, by decide, by decide⟩

theorem evaluateTarget_preferred_twoMatches :
    (shortCorpus.evaluateTarget nearestOdd 2 twoMatches).targets = some [1, 5] ∧
      ((∀ k < twoMatches.size, nearestOddSearch.Preferred (twoMatches.line k) ((nearestOddSearch.table twoMatches 2).getD k 0)) ↔
        ∀ k < twoMatches.size, nearestOddSearch.NoOverflow (twoMatches.line k)) := by
  have h := evaluateTarget_preferred_iff nearestOdd_search shortCorpus_valid nearestOdd_parsed twoMatches_located
    (show 2 ≤ 2 by decide)
  refine ⟨?_, h.2⟩
  rw [h.1]
  decide

/-! A word window of more than `2 ^ 30` positions on either side: the base and the largest distance add
up to `2 ^ 31`. -/

def hugeCorpus : SearchCorpus := { motherSize := 2 ^ 30 + 1, strucAttribute := fun _ => none }

def farthestOther : TargetCommand where
  goal := .targetField
  base := .matchField
  inclusive := true
  strategy := .farthest
  constr := some fun i => i ≠ 0
  direction := .leftRight
  units := 2 ^ 30
  attrName := "word"

def farthestOtherSearch : TargetSearch where
  motherSize := 2 ^ 30 + 1
  base := .matchField
  inclusive := true
  strategy := .farthest
  constr := fun i => i ≠ 0
  direction := .leftRight
  context := .word (2 ^ 30)

def lastToken : QueryResult := { range := [(2 ^ 30, 2 ^ 30)] }

theorem lastToken_located : ∀ k < lastToken.size, (lastToken.line k).Located (2 ^ 30 + 1)
  | 0, _ => ⟨by decide, by decide, by decide, by decide, by decide⟩

theorem farthestOther_overflow : ¬farthestOtherSearch.NoOverflow (lastToken.line 0) := by
  intro h
  have hreach : ∀ q, farthestOtherSearch.Reaches (2 ^ 30) q ↔ InCorpus (2 ^ 30 + 1) q := fun q => by
    refine ⟨fun hq => hq.2.1, fun hq => ⟨by decide, hq, ?_⟩⟩
    have h0 := hq.1
    have hlt := hq.2
    rw [abs_le]
    omega
  have hwindow : ∀ p, farthestOtherSearch.InWindow (lastToken.line 0) p ↔ InCorpus (2 ^ 30 + 1) p := fun p => by
    refine ⟨fun ⟨⟨q, hq, hqp⟩, q', hq', hpq⟩ => ?_, fun hp => ⟨⟨p, (hreach p).mpr hp, le_rfl⟩, p, (hreach p).mpr hp, le_rfl⟩⟩
    exact ⟨((hreach q).mp hq).1.trans hqp, hpq.trans_lt ((hreach q').mp hq').2⟩
  obtain ⟨q, hq, hfar⟩ := h.search ⟨trivial, trivial⟩ (2 ^ 30)
    ⟨rfl, ⟨0, (hwindow 0).mpr (by decide), by decide⟩, rfl, by decide, by decide⟩
  obtain ⟨h0, hlt⟩ := (hwindow q).mp hq.window
  have hdist : 2 ^ 30 ≤ (q - 2 ^ 30).natAbs := hfar
  obtain rfl : q = 0 := by omega
  exact absurd hq.admits.2 (by decide)

/-- The constraint holds at the negative position that the sum wraps around to: it becomes the target. -/
theorem farthest_target_wraps :
    ¬∀ (corpus : SearchCorpus) (cmd : TargetCommand) (c : QueryResult) (s : TargetSearch) (interrupt : ℕ),
      corpus.targetSearch cmd c = some s → corpus.Valid → cmd.Parsed → (∀ k < c.size, (c.line k).Located corpus.motherSize) →
      c.size ≤ interrupt → ∀ k < c.size, s.Preferred (c.line k) ((s.table c interrupt).getD k 0) := by
  intro h
  have hcorpus : hugeCorpus.Valid := ⟨by decide, fun _ _ h => nomatch h⟩
  have hparsed : farthestOther.Parsed := ⟨by decide, by decide⟩
  have hcontext : hugeCorpus.context (2 ^ 30) "word" = some (.word (2 ^ 30)) := if_pos (.inl word_toLower)
  have hsearch : hugeCorpus.targetSearch farthestOther lastToken = some farthestOtherSearch := by
    simp only [targetSearch, farthestOther, hcontext]
    rfl
  have hpreferred := h hugeCorpus farthestOther lastToken farthestOtherSearch 1 hsearch hcorpus hparsed lastToken_located le_rfl
    0 (by decide)
  rw [TargetSearch.getD_table _ _ _ (by decide), if_pos (by decide)] at hpreferred
  exact farthestOther_overflow (((hcorpus.search hparsed hsearch).preferred_iff (lastToken_located 0 (by decide))).mp hpreferred)

/-! Interrupted evaluation. -/

/-- A line that the evaluation does not reach: its new anchor is undefined, its range the old one. -/
def unprocessed (goal : AnchorField) (m : Match) : Match :=
  match goal with
  | .matchField | .matchEndField => m
  | .targetField => { m with target := -1 }
  | .keywordField => { m with keyword := -1 }

/-- The position 0 makes no difference to the line: it starts there already, or its end stays behind its start anyway. -/
def Harmless (goal : AnchorField) (m : Match) : Prop :=
  match goal with
  | .matchField => m.start = 0
  | .matchEndField => m.stop = m.start
  | .targetField | .keywordField => False

theorem setField_zero_iff {size : ℤ} {m : Match} (hm : m.Located size) (goal : AnchorField) :
    m.setField goal 0 = unprocessed goal m ↔ Harmless goal m := by
  obtain ⟨start, stop, target, keyword⟩ := m
  obtain ⟨h0, hle, -, -, -⟩ := hm
  simp only at h0 hle
  cases goal with
  | matchField =>
    simp only [Match.setField, Match.onRange, QueryResult.setStart, Match.pair, unprocessed, Harmless, Match.mk.injEq, ge_iff_le,
      le_refl, if_true, and_true]
    rw [if_neg (by omega), eq_comm]
  | matchEndField =>
    simp only [Match.setField, Match.onRange, QueryResult.setStop, Match.pair, unprocessed, Harmless, Match.mk.injEq, ge_iff_le,
      le_refl, if_true, and_true, true_and]
    split_ifs <;> omega
  | targetField => simp [Match.setField, unprocessed, Harmless, Match.mk.injEq]
  | keywordField => simp [Match.setField, unprocessed, Harmless, Match.mk.injEq]

/-- The line with the position that its search yields if it is reached, and as it should be left otherwise. -/
def interruptedLine (goal : AnchorField) (s : TargetSearch) (interrupt k : ℕ) (m : Match) : Match :=
  if k < interrupt then m.setField goal (s.cell m) else unprocessed goal m

/-- What an interrupted evaluation leaves, before changed ranges are sorted again: the lines that are not
reached are treated as if their search had yielded the position 0. -/
theorem interrupted_lines_iff (h : corpus.targetSearch cmd c = some s)
    (hlines : ∀ k < c.size, (c.line k).Located corpus.motherSize) (interrupt : ℕ) :
    corpus.evaluateTarget cmd interrupt c = (c.setField cmd.goal (s.table c interrupt)).resort cmd.goal ∧
      ((∀ k < c.size, (c.setField cmd.goal (s.table c interrupt)).line k =
          interruptedLine cmd.goal s interrupt k (c.line k)) ↔
        ∀ k < c.size, interrupt ≤ k → Harmless cmd.goal (c.line k)) := by
  refine ⟨by rw [evaluateTarget, h], forall₂_congr fun k hk => ?_⟩
  rw [QueryResult.line_setField c cmd.goal _ hk, TargetSearch.getD_table s c interrupt hk, interruptedLine]
  by_cases hlt : k < interrupt
  · rw [if_pos hlt, if_pos hlt]
    exact iff_of_true rfl fun hle => absurd hlt (not_lt.mpr hle)
  · rw [if_neg hlt, if_neg hlt, setField_zero_iff (hlines k hk)]
    exact ⟨fun hharmless _ => hharmless, fun hharmless => hharmless (not_lt.mp hlt)⟩

theorem interrupted_lines_twoMatches :
    (shortCorpus.evaluateTarget nearestOdd 1 twoMatches).targets = some [1, 0] ∧
      ((∀ k < twoMatches.size, (twoMatches.setField .targetField (nearestOddSearch.table twoMatches 1)).line k =
          interruptedLine .targetField nearestOddSearch 1 k (twoMatches.line k)) ↔
        ∀ k < twoMatches.size, 1 ≤ k → Harmless .targetField (twoMatches.line k)) := by
  have h := interrupted_lines_iff nearestOdd_search twoMatches_located 1
  refine ⟨?_, h.2⟩
  rw [h.1]
  decide

/-- The second line is not reached, and its target becomes the first token of the corpus. -/
theorem interrupted_target_zero :
    ¬∀ (corpus : SearchCorpus) (cmd : TargetCommand) (c : QueryResult) (s : TargetSearch) (interrupt : ℕ),
      corpus.targetSearch cmd c = some s → (∀ k < c.size, (c.line k).Located corpus.motherSize) →
      ∀ k < c.size, (c.setField cmd.goal (s.table c interrupt)).line k = interruptedLine cmd.goal s interrupt k (c.line k) := by
  intro h
  have hline := h shortCorpus nearestOdd twoMatches nearestOddSearch 1 nearestOdd_search twoMatches_located 1 (by decide)
  revert hline
  decide

end SearchCorpus

end CWB
