import CWB.Library.Repeats
import CWB.Sanity.Matchlist
import CWB.Proofs.Session

/-! An expanded result is sorted as before, unless a range behind another one gets a smaller start, or the same start
and a smaller end: the ranges are expanded one by one and never sorted again. -/

namespace CWB

open Option List

open QueryResult (Expansion)

theorem pairLt_iff_toLex {p q : ℤ × ℤ} : PairLt p q ↔ toLex p < toLex q := by
  rw [Prod.Lex.lt_iff]
  rfl

theorem pairwise_destutter_iff (l : List (ℤ × ℤ)) :
    (l.destutter (· ≠ ·)).Pairwise PairLt ↔ l.Pairwise fun p q => ¬ PairLt q p := by
  have hmap := map_destutter_ne (l := l) (toLex (α := ℤ × ℤ)).injective
  have hlt := Repeats.pairwise_lt_destutter_iff (l.map (toLex (α := ℤ × ℤ)))
  rw [← hmap, pairwise_map, pairwise_map] at hlt
  have hpair : PairLt = fun p q => toLex p < toLex q := funext₂ fun p q => propext pairLt_iff_toLex
  simpa only [hpair, not_lt] using hlt

/-! `RUniq` on ranges in any order. -/

theorem uniqLoop_cons {ri : Match} (l : List Match) (h : ri.start ≠ -1) :
    uniqLoop (ri :: l) =
      ri :: uniqLoop (markWhile (fun rj => ri.start = rj.start ∧ ri.stop = rj.stop) (fun _ => true) l) := by
  rw [uniqLoop, markLoop, if_pos h]

theorem uniqLoop_cons_mark (ri : Match) (l : List Match) : uniqLoop (ri.mark :: l) = ri.mark :: uniqLoop l := by
  have hmark : ¬ ri.mark.start ≠ -1 := not_not.mpr rfl
  rw [uniqLoop, markLoop, if_neg hmark]

/-- The loop leaves the first of equal neighbours. -/
theorem keptPairs_uniqLoop_markWhile (ri : Match) (l : List Match) (hl : Valid l) :
    ri.pair :: keptPairs (uniqLoop (markWhile (fun rj => ri.start = rj.start ∧ ri.stop = rj.stop) (fun _ => true) l)) =
      (l.map Match.pair).destutter' (· ≠ ·) ri.pair := by
  induction l generalizing ri with
  | nil => simp [markWhile, uniqLoop, markLoop, keptPairs]
  | cons m l ih =>
    obtain ⟨hm, hl⟩ := valid_cons hl
    rw [map_cons, markWhile]
    by_cases hsame : ri.start = m.start ∧ ri.stop = m.stop
    · have hpair : ri.pair = m.pair := Prod.ext hsame.1 hsame.2
      rw [if_pos (by simpa using hsame), if_pos rfl, uniqLoop_cons_mark, keptPairs_cons_mark, ih ri hl,
        destutter'_cons_neg _ (not_not.mpr hpair)]
    · have hpair : ri.pair ≠ m.pair := fun h => hsame ⟨congrArg Prod.fst h, congrArg Prod.snd h⟩
      rw [if_neg (by simpa using hsame), uniqLoop_cons l (Match.start_ne_of_kept hm), keptPairs_cons _ _ hm, ih m hl,
        destutter'_cons_pos _ hpair]

theorem keptPairs_uniqLoop {l : List Match} (hl : Valid l) :
    keptPairs (uniqLoop l) = (l.map Match.pair).destutter (· ≠ ·) := by
  cases l with
  | nil => simp [uniqLoop, markLoop, keptPairs]
  | cons m l =>
    obtain ⟨hm, hl⟩ := valid_cons hl
    rw [uniqLoop_cons l (Match.start_ne_of_kept hm), keptPairs_cons _ _ hm, keptPairs_uniqLoop_markWhile m l hl,
      map_cons, destutter_cons']

theorem kept_ofRange (p : ℤ × ℤ) : (Match.ofRange p).kept = true ↔ 0 ≤ p.1 ∧ 0 ≤ p.2 := by
  have hkept : (Match.ofRange p).kept = !(decide (p.1 < 0) || decide (p.2 < 0)) := rfl
  rw [hkept]
  simp

theorem compact_self (ps : List (ℤ × ℤ)) :
    QueryResult.compact ps ps = ps.filter fun p => (Match.ofRange p).kept := by
  induction ps with
  | nil => rfl
  | cons p ps ih =>
    rw [QueryResult.compact, ih, filter_cons]
    by_cases hp : p.1 < 0 ∨ p.2 < 0
    · rw [if_pos hp, if_neg ((kept_ofRange p).not.mpr (by omega))]
    · rw [if_neg hp, if_pos ((kept_ofRange p).mpr (by omega))]

theorem QueryResult.range_rReduce (c : QueryResult) :
    c.rReduce.range = c.range.filter fun p => (Match.ofRange p).kept := by
  rw [rReduce, compact_self]
  by_cases hlen : (c.range.filter fun p => (Match.ofRange p).kept).length ≠ c.size
  · rw [if_pos hlen]
  · rw [if_neg hlen, filter_eq_self.mpr (length_filter_eq_length_iff.mp (not_not.mp hlen))]

/-- `RUniq` leaves the first of equal neighbours, whether the ranges are sorted or not. -/
theorem range_uniq {c : QueryResult} (h : ∀ p ∈ c.range, 0 ≤ p.1 ∧ 0 ≤ p.2) :
    (c.rangeSetop .uniq {} none).range = c.range.destutter (· ≠ ·) := by
  have hvalid : Valid (c.range.map Match.ofRange) := by
    intro m hm
    obtain ⟨p, hp, rfl⟩ := mem_map.mp hm
    exact (kept_ofRange p).mpr (h p hp)
  have hpairs : (c.range.map Match.ofRange).map Match.pair = c.range := by
    rw [List.map_map]
    exact map_id _
  calc (c.rangeSetop .uniq {} none).range
      = ((uniqLoop (c.range.map Match.ofRange)).map Match.pair).filter fun p => (Match.ofRange p).kept :=
        QueryResult.range_rReduce _
    _ = keptPairs (uniqLoop (c.range.map Match.ofRange)) := by
        rw [List.filter_map]
        rfl
    _ = c.range.destutter (· ≠ ·) := by rw [keptPairs_uniqLoop hvalid, hpairs]

/-! What an expansion does to a position, and to two. -/

namespace Corpus

variable {C A R : Type} (corpus : Corpus C A R)

/-- The context can be looked up. -/
def Supports (spc : Context A) : Prop :=
  match spc with
  | .word _ => True
  | .structure attr _ => corpus.AscendingRegions attr

def leftOf (e : ExpansionContext A) : ℤ → ℤ := Expansion.bound (corpus.expansion e).left

def rightOf (e : ExpansionContext A) : ℤ → ℤ := Expansion.bound (corpus.expansion e).right

/-- The first position that `size` regions up to the region `n` reach, and the last one from it on. -/
def firstOf (attr : A) (size : ℤ) (n : ℕ) : ℤ := (corpus.struc2cpos attr (n - (size - 1).toNat)).1

def lastOf (attr : A) (size : ℤ) (n : ℕ) : ℤ :=
  (corpus.struc2cpos attr (min (corpus.maxStruc attr - 1) (n + (size - 1).toNat))).2

/-- The start `q`, at or behind the start `p`, is moved before that of `p`: it is in a region, and `p` is not. -/
def StartsSwap (e : ExpansionContext A) (p q : ℤ) : Prop :=
  e.direction ≠ .right ∧ match e.space with
    | .word _ => False
    | .structure attr size =>
      corpus.cpos2struc attr p = none ∧ ∃ n, corpus.cpos2struc attr q = some n ∧ corpus.firstOf attr size n < p

/-- The two starts are moved to one position: from one region, or as far as the first token or region. -/
def StartsMeet (e : ExpansionContext A) (p q : ℤ) : Prop :=
  p = q ∨ e.direction ≠ .right ∧ match e.space with
    | .word d => q ≤ d
    | .structure attr size => ∃ m n, corpus.cpos2struc attr p = some m ∧ corpus.cpos2struc attr q = some n ∧
        (m = n ∨ n ≤ (size - 1).toNat)

/-- The end `q` is moved to a position before that of `p`. -/
def EndsSwap (e : ExpansionContext A) (p q : ℤ) : Prop :=
  if e.direction = .left then q < p
  else match e.space with
    | .word d => q < p ∧ q + d < corpus.size - 1
    | .structure attr size =>
      match corpus.cpos2struc attr p, corpus.cpos2struc attr q with
      | none, none => q < p
      | some m, none => q < corpus.lastOf attr size m
      | none, some n => corpus.lastOf attr size n < p
      | some m, some n => n < m ∧ n + (size - 1).toNat < corpus.maxStruc attr - 1

section Bounds

variable {corpus} {e : ExpansionContext A}

theorem leftOf_right (h : e.direction = .right) (p : ℤ) : corpus.leftOf e p = p := by
  simp [leftOf, expansion, h, Expansion.bound]

theorem rightOf_left (h : e.direction = .left) (p : ℤ) : corpus.rightOf e p = p := by
  simp [rightOf, expansion, h, Expansion.bound]

theorem leftOf_word {d : ℤ} (h : e.direction ≠ .right) (hspace : e.space = .word d) (hd : 0 < d) (p : ℤ) :
    corpus.leftOf e p = max 0 (p - d) := by
  have hleft : corpus.calculateLeftboundary (.word d) p = max 0 (p - d) := by
    simp [calculateLeftboundary, calculateRanges, hd.not_gt]
  simp [leftOf, expansion, h, Expansion.bound, hspace, hleft]

theorem rightOf_word {d : ℤ} (h : e.direction ≠ .left) (hspace : e.space = .word d) (hd : 0 < d) {p : ℤ} (h0 : 0 ≤ p)
    (hp : p < corpus.size) : corpus.rightOf e p = min (p + d) (corpus.size - 1) := by
  have hright : corpus.calculateRightboundary (.word d) p = p + min d (corpus.size - 1 - p) := by
    simp [calculateRightboundary, calculateRanges, hd.not_gt]
  have hnonneg : p + min d (corpus.size - 1 - p) ≥ 0 := by omega
  simp only [rightOf, expansion, h, Expansion.bound, hspace, hright, if_false, if_pos hnonneg]
  omega

theorem calculateRanges_structure {attr : A} {size : ℤ} (hd : 0 < size) (p : ℤ) :
    corpus.calculateRanges (.structure attr size) p =
      (corpus.cpos2struc attr p).map fun n => (corpus.firstOf attr size n, corpus.lastOf attr size n) := by
  have hd' : ¬ size - 1 < 0 := by omega
  rw [calculateRanges, if_neg hd']
  cases hp : corpus.cpos2struc attr p with
  | none => rfl
  | some n =>
    have hfirst : (max 0 ((n : ℤ) - (size - 1))).toNat = n - (size - 1).toNat := by omega
    have hlast : (min ((corpus.maxStruc attr : ℤ) - 1) (n + (size - 1))).toNat =
        min (corpus.maxStruc attr - 1) (n + (size - 1).toNat) := by omega
    simp only [map_some, firstOf, lastOf, hfirst, hlast]

theorem leftOf_structure {attr : A} {size : ℤ} (h : e.direction ≠ .right) (hspace : e.space = .structure attr size)
    (hd : 0 < size) (hregions : corpus.AscendingRegions attr) (p : ℤ) :
    corpus.leftOf e p = ((corpus.cpos2struc attr p).map (corpus.firstOf attr size)).getD p := by
  simp only [leftOf, expansion, if_neg h, Expansion.bound, hspace, calculateLeftboundary, calculateRanges_structure hd]
  cases hp : corpus.cpos2struc attr p with
  | none => rfl
  | some n =>
    have hn := ((hregions.found p n).mp hp).1
    have hnonneg : corpus.firstOf attr size n ≥ 0 := (hregions.nonempty _ (by omega)).1
    exact if_pos hnonneg

theorem rightOf_structure {attr : A} {size : ℤ} (h : e.direction ≠ .left) (hspace : e.space = .structure attr size)
    (hd : 0 < size) (hregions : corpus.AscendingRegions attr) (p : ℤ) :
    corpus.rightOf e p = ((corpus.cpos2struc attr p).map (corpus.lastOf attr size)).getD p := by
  simp only [rightOf, expansion, if_neg h, Expansion.bound, hspace, calculateRightboundary, calculateRanges_structure hd]
  cases hp : corpus.cpos2struc attr p with
  | none => rfl
  | some n =>
    have hn := ((hregions.found p n).mp hp).1
    have hne := hregions.nonempty (min (corpus.maxStruc attr - 1) (n + (size - 1).toNat)) (by omega)
    exact if_pos (hne.1.trans hne.2)

end Bounds

section Regions

variable {corpus} {attr : A} (h : corpus.AscendingRegions attr) {p q : ℤ} {m n : ℕ}

include h

theorem struc_mono (hp : corpus.cpos2struc attr p = some m) (hq : corpus.cpos2struc attr q = some n) (hpq : p ≤ q) :
    m ≤ n := by
  obtain ⟨hm, hpm, -⟩ := (h.found p m).mp hp
  obtain ⟨hn, -, hqn⟩ := (h.found q n).mp hq
  by_contra hlt
  have := h.ascending n m (not_le.mp hlt) hm
  omega

theorem start_le_start (hmn : m ≤ n) (hn : n < corpus.maxStruc attr) :
    (corpus.struc2cpos attr m).1 ≤ (corpus.struc2cpos attr n).1 := by
  obtain rfl | hlt := hmn.eq_or_lt
  · exact le_rfl
  · exact ((h.start_lt_iff (hlt.trans hn) hn).mpr hlt).le

theorem stop_le_stop (hmn : m ≤ n) (hn : n < corpus.maxStruc attr) :
    (corpus.struc2cpos attr m).2 ≤ (corpus.struc2cpos attr n).2 := by
  obtain rfl | hlt := hmn.eq_or_lt
  · exact le_rfl
  · exact ((h.stop_lt_iff (hlt.trans hn) hn).mpr hlt).le

theorem firstOf_le (size : ℤ) (hp : corpus.cpos2struc attr p = some n) : corpus.firstOf attr size n ≤ p := by
  obtain ⟨hn, hpn, -⟩ := (h.found p n).mp hp
  exact (start_le_start h (Nat.sub_le _ _) hn).trans hpn

theorem le_lastOf (size : ℤ) (hp : corpus.cpos2struc attr p = some n) : p ≤ corpus.lastOf attr size n := by
  obtain ⟨hn, -, hpn⟩ := (h.found p n).mp hp
  exact hpn.trans (stop_le_stop h (by omega) (by omega))

theorem firstOf_lt_iff (size : ℤ) (hm : m < corpus.maxStruc attr) (hn : n < corpus.maxStruc attr) :
    corpus.firstOf attr size m < corpus.firstOf attr size n ↔ m < n ∧ (size - 1).toNat < n := by
  rw [firstOf, firstOf, h.start_lt_iff (by omega) (by omega)]
  omega

theorem lastOf_lt_iff (size : ℤ) (hm : m < corpus.maxStruc attr) (hn : n < corpus.maxStruc attr) :
    corpus.lastOf attr size m < corpus.lastOf attr size n ↔
      m < n ∧ m + (size - 1).toNat < corpus.maxStruc attr - 1 := by
  rw [lastOf, lastOf, h.stop_lt_iff (by omega) (by omega)]
  omega

end Regions

section Swaps

variable {corpus} {e : ExpansionContext A} (hsize : 0 < e.space.size) (hspace : corpus.Supports e.space) {p q : ℤ}

include hsize hspace

theorem leftOf_le (h0 : 0 ≤ p) : corpus.leftOf e p ≤ p := by
  by_cases hdir : e.direction = .right
  · exact (leftOf_right hdir p).le
  · rcases hs : e.space with d | ⟨attr, size⟩
    · have hd : 0 < d := by simpa [hs, Context.size] using hsize
      rw [leftOf_word hdir hs hd]
      omega
    · have hd : 0 < size := by simpa [hs, Context.size] using hsize
      have hregions : corpus.AscendingRegions attr := by simpa [Supports, hs] using hspace
      rw [leftOf_structure hdir hs hd hregions]
      cases hp : corpus.cpos2struc attr p with
      | none => exact le_rfl
      | some n => exact firstOf_le hregions size hp

theorem le_rightOf (h0 : 0 ≤ p) (hp : p < corpus.size) : p ≤ corpus.rightOf e p := by
  by_cases hdir : e.direction = .left
  · exact (rightOf_left hdir p).ge
  · rcases hs : e.space with d | ⟨attr, size⟩
    · have hd : 0 < d := by simpa [hs, Context.size] using hsize
      rw [rightOf_word hdir hs hd h0 hp]
      omega
    · have hd : 0 < size := by simpa [hs, Context.size] using hsize
      have hregions : corpus.AscendingRegions attr := by simpa [Supports, hs] using hspace
      rw [rightOf_structure hdir hs hd hregions]
      cases hp : corpus.cpos2struc attr p with
      | none => exact le_rfl
      | some n => exact le_lastOf hregions size hp

theorem leftOf_lt_iff (hpq : p ≤ q) : corpus.leftOf e q < corpus.leftOf e p ↔ corpus.StartsSwap e p q := by
  unfold StartsSwap
  by_cases hdir : e.direction = .right
  · simp [leftOf_right hdir, hdir, hpq]
  · rcases hs : e.space with d | ⟨attr, size⟩
    · have hd : 0 < d := by simpa [hs, Context.size] using hsize
      rw [leftOf_word hdir hs hd, leftOf_word hdir hs hd]
      simp only [ne_eq, hdir, not_false_eq_true, and_false, iff_false]
      omega
    · have hd : 0 < size := by simpa [hs, Context.size] using hsize
      have hregions : corpus.AscendingRegions attr := by simpa [Supports, hs] using hspace
      rw [leftOf_structure hdir hs hd hregions, leftOf_structure hdir hs hd hregions]
      cases hp : corpus.cpos2struc attr p with
      | none =>
        cases hq : corpus.cpos2struc attr q with
        | none => simp [hq, hpq]
        | some n => simp [hdir, hp, hq]
      | some m =>
        have hfirst : corpus.firstOf attr size m ≤ p := firstOf_le hregions size hp
        cases hq : corpus.cpos2struc attr q with
        | none => simp [hp, hfirst.trans hpq]
        | some n =>
          have hmn := struc_mono hregions hp hq hpq
          have hiff := firstOf_lt_iff hregions size ((hregions.found q n).mp hq).1 ((hregions.found p m).mp hp).1
          simp [hp, hiff, hmn.not_gt]

theorem leftOf_eq_iff (hpq : p ≤ q) : corpus.leftOf e p = corpus.leftOf e q ↔ corpus.StartsMeet e p q := by
  unfold StartsMeet
  by_cases hdir : e.direction = .right
  · simp [leftOf_right hdir, hdir]
  · rcases hs : e.space with d | ⟨attr, size⟩
    · have hd : 0 < d := by simpa [hs, Context.size] using hsize
      rw [leftOf_word hdir hs hd, leftOf_word hdir hs hd]
      simp only [ne_eq, hdir, not_false_eq_true, true_and]
      omega
    · have hd : 0 < size := by simpa [hs, Context.size] using hsize
      have hregions : corpus.AscendingRegions attr := by simpa [Supports, hs] using hspace
      rw [leftOf_structure hdir hs hd hregions, leftOf_structure hdir hs hd hregions]
      cases hp : corpus.cpos2struc attr p with
      | none =>
        cases hq : corpus.cpos2struc attr q with
        | none => simp [hp]
        | some n =>
          have hn := ((hregions.found q n).mp hq).1
          have hne : p ≠ corpus.firstOf attr size n := by
            intro heq
            have hfound := (hregions.found p (n - (size - 1).toNat)).mpr
              ⟨by omega, heq.ge, heq.trans_le (hregions.nonempty _ (by omega)).2⟩
            rw [hp] at hfound
            cases hfound
          have hpq' : p ≠ q := by
            rintro rfl
            rw [hp] at hq
            cases hq
          simp [hp, hne, hpq']
      | some m =>
        have hfirst : corpus.firstOf attr size m ≤ p := firstOf_le hregions size hp
        cases hq : corpus.cpos2struc attr q with
        | none =>
          have hpq' : p ≠ q := by
            rintro rfl
            rw [hp] at hq
            cases hq
          have hlt : corpus.firstOf attr size m ≠ q := (hfirst.trans_lt (lt_of_le_of_ne hpq hpq')).ne
          simp [hp, hq, hlt, hpq']
        | some n =>
          have hmn := struc_mono hregions hp hq hpq
          have hm := ((hregions.found p m).mp hp).1
          have hn := ((hregions.found q n).mp hq).1
          have hlt := firstOf_lt_iff hregions size hm hn
          have hgt := firstOf_lt_iff hregions size hn hm
          have hsame : p = q → m = n := by
            rintro rfl
            rw [hp] at hq
            exact some.inj hq
          simp only [map_some, getD_some, ne_eq, hdir, not_false_eq_true, true_and, hp, hq,
            some_inj, exists_eq_left', exists_and_left]
          omega

theorem rightOf_lt_iff (h0 : 0 ≤ p) (hp : p < corpus.size) (h0' : 0 ≤ q) (hq : q < corpus.size) :
    corpus.rightOf e q < corpus.rightOf e p ↔ corpus.EndsSwap e p q := by
  unfold EndsSwap
  by_cases hdir : e.direction = .left
  · rw [rightOf_left hdir, rightOf_left hdir, if_pos hdir]
  · rw [if_neg hdir]
    rcases hs : e.space with d | ⟨attr, size⟩
    · have hd : 0 < d := by simpa [hs, Context.size] using hsize
      rw [rightOf_word hdir hs hd h0 hp, rightOf_word hdir hs hd h0' hq]
      simp only
      omega
    · have hd : 0 < size := by simpa [hs, Context.size] using hsize
      have hregions : corpus.AscendingRegions attr := by simpa [Supports, hs] using hspace
      rw [rightOf_structure hdir hs hd hregions, rightOf_structure hdir hs hd hregions]
      cases hp : corpus.cpos2struc attr p with
      | none => cases hq : corpus.cpos2struc attr q <;> simp [hp, hq]
      | some m =>
        cases hq : corpus.cpos2struc attr q with
        | none => simp [hp, hq]
        | some n =>
          simp only [hp, hq, map_some, getD_some]
          exact lastOf_lt_iff hregions size ((hregions.found q n).mp hq).1 ((hregions.found p m).mp hp).1

end Swaps

/-- The range `b`, behind `a` in the list, comes before it when both are expanded. -/
def Overtakes (e : ExpansionContext A) (a b : ℤ × ℤ) : Prop :=
  corpus.StartsSwap e a.1 b.1 ∨ corpus.StartsMeet e a.1 b.1 ∧ corpus.EndsSwap e a.2 b.2

/-- A range of the corpus. -/
def IsRange (p : ℤ × ℤ) : Prop := 0 ≤ p.1 ∧ p.1 ≤ p.2 ∧ p.2 < corpus.size

variable {corpus} {e : ExpansionContext A}

theorem bound_nonneg (side : Option (ℤ → ℤ)) {cpos : ℤ} (h : 0 ≤ cpos) : 0 ≤ Expansion.bound side cpos := by
  cases side with
  | none => exact h
  | some f =>
    by_cases hf : f cpos ≥ 0
    · rw [Expansion.bound, if_pos hf]
      exact hf
    · rw [Expansion.bound, if_neg hf]
      exact h

theorem expand_eq (p : ℤ × ℤ) : (corpus.expansion e).expand p = (corpus.leftOf e p.1, corpus.rightOf e p.2) := rfl

theorem inside_expand (hsize : 0 < e.space.size) (hspace : corpus.Supports e.space) {p : ℤ × ℤ} (hp : corpus.IsRange p) :
    Inside p ((corpus.expansion e).expand p) := by
  obtain ⟨h0, hle, hlt⟩ := hp
  exact ⟨leftOf_le hsize hspace h0, le_rightOf hsize hspace (h0.trans hle) hlt⟩

theorem pairLt_expand_iff (hsize : 0 < e.space.size) (hspace : corpus.Supports e.space) {a b : ℤ × ℤ}
    (ha : corpus.IsRange a) (hb : corpus.IsRange b) (hab : PairLt a b) :
    PairLt ((corpus.expansion e).expand b) ((corpus.expansion e).expand a) ↔ corpus.Overtakes e a b := by
  have hstart : a.1 ≤ b.1 := hab.elim le_of_lt fun h => h.1.le
  obtain ⟨ha0, hale, halt⟩ := ha
  obtain ⟨hb0, hble, hblt⟩ := hb
  unfold PairLt Overtakes
  rw [expand_eq, expand_eq, leftOf_lt_iff hsize hspace hstart, eq_comm, leftOf_eq_iff hsize hspace hstart,
    rightOf_lt_iff hsize hspace (ha0.trans hale) halt (hb0.trans hble) hblt]

theorem range_expandDataspace {c : QueryResult} (htype : c.type ≠ .system) (hranges : ∀ p ∈ c.range, corpus.IsRange p)
    (hsize : 0 < e.space.size) :
    (corpus.expandDataspace e c).range = (c.range.map (corpus.expansion e).expand).destutter (· ≠ ·) := by
  rw [expandDataspace, if_pos hsize]
  simp only [QueryResult.expandDataspace, if_neg htype]
  refine range_uniq fun p hp => ?_
  obtain ⟨q, hq, rfl⟩ := mem_map.mp hp
  obtain ⟨h0, hle, -⟩ := hranges q hq
  exact ⟨bound_nonneg _ h0, bound_nonneg _ (h0.trans hle)⟩

/-- What a range becomes. -/
def expandRange (corpus : Corpus C A R) (e : ExpansionContext A) (p : ℤ × ℤ) : ℤ × ℤ :=
  if 0 < e.space.size then (corpus.expansion e).expand p else p

/-- The ranges of `c'` are those of `c` expanded; they are sorted, no two are equal, and each contains its original. -/
structure Expanded (expand : ℤ × ℤ → ℤ × ℤ) (c c' : QueryResult) : Prop where
  sorted : c'.range.Pairwise PairLt
  mem : ∀ p, p ∈ c'.range ↔ ∃ q ∈ c.range, expand q = p
  inside : ∀ q ∈ c.range, Inside q (expand q)

end Corpus

/-- Ten tokens without regions. -/
def tenTokens : Corpus Unit Unit Unit where
  size := 10
  evalBool _ rt _ := (false, rt)
  cpos2struc _ _ := none
  struc2cpos _ _ := (-1, -1)
  struc2str _ _ := none
  maxStruc _ := 0
  regexMatch _ _ := false
  calculateInitialMatchlist _ _ := none

def nestedRanges : QueryResult := { range := [(0, 5), (2, 3)] }

end CWB
