import CWB.Spec.Session
import CWB.Sanity.QueryResult
import CWB.Sanity.Regions
import Mathlib.Data.List.TakeWhile

/-! The vectors of every query result fit together throughout a session: each command
drops or rebuilds the sort index, and moves target and keyword with the range they are for. -/

namespace CWB

open Function Option List

variable {c c1 c2 : QueryResult} {given : List Match}

namespace QueryResult

/-- The vectors fit together and hold no line but those given. -/
structure Holds (given : List Match) (c : QueryResult) : Prop where
  sound : c.Sound
  lines : ∀ m ∈ c.lines, m ∈ given

theorem Sound.holds (h : c.Sound) : Holds c.lines c := ⟨h, fun _ hm => hm⟩

theorem Holds.mono {given' : List Match} (h : Holds given c)
    (hsub : ∀ m ∈ given, m ∈ given') : Holds given' c := ⟨h.sound, fun m hm => hsub m (h.lines m hm)⟩

/-! `RReduce` reads all vectors through the index vector of the lines it keeps. -/

def keptIndex (c : QueryResult) : List ℕ := (List.range c.size).filter fun k => (c.line k).kept

theorem compact_eq {α : Type} (d : α) (ps : List (ℤ × ℤ)) (xs : List α) (h : xs.length = ps.length) :
    compact ps xs = ((List.range ps.length).filter fun k => (Match.ofRange (ps.getD k (0, 0))).kept).map (xs.getD · d) := by
  induction ps generalizing xs with
  | nil => simp [compact]
  | cons p ps ih =>
    obtain ⟨x, xs, rfl⟩ := exists_cons_of_length_eq_add_one h
    have hxs : xs.length = ps.length := by simpa using h
    rw [length_cons, range_succ_eq_map, filter_cons, List.filter_map, compact, ih xs hxs]
    by_cases hp : p.1 < 0 ∨ p.2 < 0
    · rw [if_pos hp, if_neg (by simp [Match.kept, Match.ofRange]; omega)]
      simp [comp_def]
    · rw [if_neg hp, if_pos (by simp [Match.kept, Match.ofRange]; omega)]
      simp [comp_def]

theorem compact_range (c : QueryResult) : compact c.range c.range = c.keptIndex.map c.rangeAt :=
  compact_eq (0, 0) c.range c.range rfl

theorem compact_vector (c : QueryResult) {v : List ℤ} (h : v.length = c.size) :
    compact c.range v = c.keptIndex.map (v.getD · 0) := compact_eq 0 c.range v h

theorem lines_filter_kept (c : QueryResult) : c.lines.filter Match.kept = c.keptIndex.map c.line := by
  rw [lines, List.filter_map]
  rfl

/-- `RReduce` leaves the lines that are not marked. -/
theorem rReduce_spec (h : c.Sound) :
    c.rReduce.Sound ∧ c.rReduce.lines = c.lines.filter Match.kept := by
  have hT : c.targets.map (compact c.range) = (c.reindex c.keptIndex).targets :=
    Option.map_congr fun v hv => c.compact_vector (h.targets v hv)
  have hK : c.keywords.map (compact c.range) = (c.reindex c.keptIndex).keywords :=
    Option.map_congr fun v hv => c.compact_vector (h.keywords v hv)
  rw [lines_filter_kept, rReduce, compact_range, length_map]
  by_cases hall : c.keptIndex.length ≠ c.size
  · rw [if_pos hall]
    by_cases hnil : c.keptIndex = []
    · refine ⟨⟨?_, ?_, ?_⟩, ?_⟩ <;> simp [hnil, lines, size]
    · simp only [hT, hK, map_eq_nil_iff, if_neg hnil]
      exact ⟨c.sound_reindex _, c.lines_reindex _⟩
  · rw [if_neg hall]
    refine ⟨h, ?_⟩
    have hk : c.keptIndex = List.range c.size := by
      refine List.Sublist.eq_of_length filter_sublist ?_
      rw [length_range]
      exact not_not.mp hall
    rw [hk]
    rfl

/-- Ranges may be replaced one by one. -/
theorem Sound.setRange (h : c.Sound) {range : List (ℤ × ℤ)} (hlen : range.length = c.size) :
    ({ c with range := range } : QueryResult).Sound := by
  have hs : ({ c with range := range } : QueryResult).size = c.size := hlen
  exact ⟨fun v hv => by rw [hs]; exact h.targets v hv, fun v hv => by rw [hs]; exact h.keywords v hv,
    fun idx hidx => by rw [hs]; exact h.sortidx idx hidx⟩

theorem Sound.dropSortidx (h : c.Sound) : ({ c with sortidx := none } : QueryResult).Sound :=
  ⟨h.targets, h.keywords, fun idx hidx => by simp at hidx⟩

theorem Sound.setType (h : c.Sound) (type : CorpusType) : ({ c with type := type } : QueryResult).Sound :=
  ⟨h.targets, h.keywords, h.sortidx⟩

/-- Marking lines and dropping the marked ones. -/
theorem rReduce_marked (h : Holds given c) {range : List (ℤ × ℤ)} (hlen : range.length = c.size)
    (hmark : ∀ k < c.size, range.getD k (0, 0) = c.rangeAt k ∨ (range.getD k (0, 0)).1 = -1) :
    Holds given (rReduce { c with range := range }) := by
  obtain ⟨hsound, hlines⟩ := rReduce_spec (h.sound.setRange hlen)
  refine ⟨hsound, fun m hm => h.lines m ?_⟩
  rw [hlines, mem_filter] at hm
  obtain ⟨k, hk, rfl⟩ := mem_lines.mp hm.1
  have hk' : k < c.size := by rw [← hlen]; exact hk
  refine mem_lines.mpr ⟨k, hk', ?_⟩
  obtain heq | hneg := hmark k hk'
  · unfold line
    rw [← heq]
    rfl
  · have hstart : (line { c with range := range } k).start = -1 := hneg
    simp [Match.kept, hstart] at hm

theorem Holds.markReduce (h : Holds given c) {loop : List Match → List Match}
    (hloop : ∀ l, Marks l (loop l)) : Holds given (c.markReduce loop) := by
  have hm := hloop (c.range.map Match.ofRange)
  have hlen : (loop (c.range.map Match.ofRange)).length = c.size := by rw [hm.length_eq, length_map]; rfl
  refine rReduce_marked h (by rw [length_map, hlen]) fun k hk => ?_
  have hk1 : k < (c.range.map Match.ofRange).length := by rw [length_map]; exact hk
  have hk2 : k < (loop (c.range.map Match.ofRange)).length := by rw [hlen]; exact hk
  have hget := List.Forall₂.get hm hk1 hk2
  rw [getD_eq_getElem _ _ (by simpa using hk2), getElem_map, rangeAt, getD_eq_getElem _ _ hk]
  simp only [get_eq_getElem, getElem_map] at hget
  obtain h1 | h1 := hget
  · left; rw [h1]; rfl
  · right; rw [h1]; rfl

theorem Holds.markLines (h : Holds given c) (del : ℕ → Bool) :
    Holds given (c.markLines del).rReduce := by
  refine rReduce_marked h (by simp [size]) fun k hk => ?_
  rw [getD_eq_getElem _ _ (by simpa [size] using hk), rangeAt, getD_eq_getElem _ _ hk]
  simp only [getElem_map, getElem_zipIdx, Nat.zero_add]
  split_ifs
  · right; rfl
  · left; rfl

theorem holds_empty (given : List Match) (type : CorpusType) : Holds given { type := type } := by
  refine ⟨⟨?_, ?_, ?_⟩, ?_⟩ <;> simp [lines, size]

/-! Set operations. -/

theorem mem_unionLoop {as : List Match} {bs : List (Match × Bool)} {m : Match} (h : m ∈ unionLoop id id as bs) :
    m ∈ as ∨ m ∈ bs.map Prod.fst := by
  induction as, bs using unionLoop.induct <;> rw [unionLoop] at h
  all_goals grind

theorem line_target_of_none (h : c.targets = none) {m : Match} (hm : m ∈ c.lines) : m.target = -1 := by
  obtain ⟨k, -, rfl⟩ := mem_lines.mp hm
  simp [line, targetAt, h]

theorem line_keyword_of_none (h : c.keywords = none) {m : Match} (hm : m ∈ c.lines) :
    m.keyword = -1 := by
  obtain ⟨k, -, rfl⟩ := mem_lines.mp hm
  simp [line, keywordAt, h]

/-- Vectors filled line by line hold these lines. -/
theorem holds_of_vectors (ls : List Match) (hr : c.range = ls.map Match.pair)
    (ht : c.targets = some (ls.map Match.target) ∨ c.targets = none ∧ ∀ m ∈ ls, m.target = -1)
    (hk : c.keywords = some (ls.map Match.keyword) ∨ c.keywords = none ∧ ∀ m ∈ ls, m.keyword = -1)
    (hidx : c.sortidx = none) (hsub : ∀ m ∈ ls, m ∈ given) : Holds given c := by
  have hsize : c.size = ls.length := by simp [size, hr]
  refine ⟨⟨fun v hv => ?_, fun v hv => ?_, fun idx h => by simp [hidx] at h⟩, ?_⟩
  · obtain h | ⟨h, -⟩ := ht <;> simp_all
    rw [← hv, length_map]
  · obtain h | ⟨h, -⟩ := hk <;> simp_all
    rw [← hv, length_map]
  · rw [lines_of_vectors hr ht hk]
    exact hsub

/-- The lines that a union copies. -/
def unionLines (c1 c2 : QueryResult) (restrictor : Option (ℕ → Bool)) : List Match :=
  unionLoop id id c1.lines (c2.lines.zipIdx.map fun p => (p.1, (restrictor.map (· p.2)).getD true))

theorem mem_unionLines {restrictor : Option (ℕ → Bool)} {m : Match}
    (hm : m ∈ unionLines c1 c2 restrictor) : m ∈ c1.lines ∨ m ∈ c2.lines := by
  refine (mem_unionLoop hm).imp_right fun h => ?_
  rw [List.map_map] at h
  obtain ⟨p, hp, rfl⟩ := mem_map.mp h
  exact fst_mem_of_mem_zipIdx hp

/-- The vectors of a union hold these lines; where neither operand has a vector, there is none to fill. -/
theorem rUnion_vectors (h0 : c2.size ≠ 0) (restrictor : Option (ℕ → Bool)) :
    (c1.rUnion c2 restrictor).range = (unionLines c1 c2 restrictor).map Match.pair ∧
      ((c1.rUnion c2 restrictor).targets = some ((unionLines c1 c2 restrictor).map Match.target) ∨
        (c1.rUnion c2 restrictor).targets = none ∧ ∀ m ∈ unionLines c1 c2 restrictor, m.target = -1) ∧
      ((c1.rUnion c2 restrictor).keywords = some ((unionLines c1 c2 restrictor).map Match.keyword) ∨
        (c1.rUnion c2 restrictor).keywords = none ∧ ∀ m ∈ unionLines c1 c2 restrictor, m.keyword = -1) := by
  rw [QueryResult.rUnion, if_neg h0]
  refine ⟨rfl, ?_, ?_⟩
  · by_cases ht : c1.targets.isSome ∨ c2.targets.isSome
    · exact .inl (if_pos ht)
    · refine .inr ⟨if_neg ht, fun m hm => ?_⟩
      rw [not_or, not_isSome_iff_eq_none, not_isSome_iff_eq_none] at ht
      exact (mem_unionLines hm).elim (line_target_of_none ht.1) (line_target_of_none ht.2)
  · by_cases hk : c1.keywords.isSome ∨ c2.keywords.isSome
    · exact .inl (if_pos hk)
    · refine .inr ⟨if_neg hk, fun m hm => ?_⟩
      rw [not_or, not_isSome_iff_eq_none, not_isSome_iff_eq_none] at hk
      exact (mem_unionLines hm).elim (line_keyword_of_none hk.1) (line_keyword_of_none hk.2)

/-- A union is sound because it is only ever made into a copy without a sort index. -/
theorem Holds.rUnion (h1 : Holds given c1) (h2 : Holds given c2)
    (hidx : c1.sortidx = none) (restrictor : Option (ℕ → Bool)) : Holds given (c1.rUnion c2 restrictor) := by
  by_cases h0 : c2.size = 0
  · rw [QueryResult.rUnion, if_pos h0]
    exact h1
  · obtain ⟨hr, ht, hk⟩ := @rUnion_vectors c1 c2 h0 restrictor
    refine holds_of_vectors _ hr ht hk ?_ fun m hm => (mem_unionLines hm).elim (h1.lines m) (h2.lines m)
    rw [QueryResult.rUnion, if_neg h0]
    exact hidx

theorem Holds.rangeSetop (h1 : Holds given c1) (h2 : Holds given c2)
    (operation : RangeSetOp) (hidx : operation = .union → c1.sortidx = none) (restrictor : Option (ℕ → Bool)) :
    Holds given (c1.rangeSetop operation c2 restrictor) := by
  cases operation with
  | union => exact h1.rUnion h2 (hidx rfl) restrictor
  | intersection => exact h1.markReduce fun l => marks_intersectionLoop l _
  | diff => exact h1.markReduce fun l => marks_diffLoop l _
  | maximalMatches => exact h1.markReduce marks_maximalLoop
  | minimalMatches => exact h1.markReduce marks_minimalLoop
  | leftMaximalMatches => exact (h1.markReduce (marks_markLoop _ _)).markReduce (marks_markLoop _ _)
  | nonOverlapping => exact h1.markReduce (marks_markLoop _ _)
  | uniq => exact h1.markReduce (marks_markLoop _ _)
  | reduce =>
    obtain ⟨hsound, hlines⟩ := rReduce_spec h1.sound
    exact ⟨hsound, fun m hm => h1.lines m (mem_of_mem_filter (hlines ▸ hm))⟩

/-- The filters have no second operand. -/
theorem Holds.filter (h : Holds given c) (operation : RangeSetOp)
    (hop : operation ≠ .union) : Holds given (c.rangeSetop operation {} none) :=
  h.rangeSetop (holds_empty given .sub) operation (fun he => absurd he hop) none

/-! Deletion of lines. -/

theorem Holds.dropSortidx (h : Holds given c) :
    Holds given { c with sortidx := none } := ⟨h.sound.dropSortidx, h.lines⟩

theorem Holds.deleteInterval (h : Holds given c) (nr : ℤ) :
    Holds given (c.deleteInterval nr) := by
  unfold QueryResult.deleteInterval
  split_ifs
  · exact h
  · exact h.dropSortidx.markLines _

theorem Holds.deleteIntervals (h : Holds given c) (intervals : ℕ → Bool)
    (mode : DeletionMode) : Holds given (c.deleteIntervals intervals mode) := by
  simp only [QueryResult.deleteIntervals]
  split_ifs
  · exact h
  · exact h
  · exact holds_empty given c.type
  · exact h.dropSortidx.markLines _

theorem Holds.doReduce (h : Holds given c) (number : ℤ) (percent : Bool)
    (selected : ℕ → Bool) : Holds given (c.doReduce number percent selected) := by
  unfold QueryResult.doReduce
  split_ifs
  · exact h
  · exact h
  · exact h
  · exact h.deleteIntervals _ _

theorem Holds.doCut (h : Holds given c) (first : ℕ) (last : ℤ) :
    Holds given (c.doCut first last) := by
  unfold QueryResult.doCut
  by_cases h0 : c.type ≠ .sub ∨ c.size = 0
  · rw [if_pos h0]
    exact h
  · rw [if_neg h0]
    exact h.markLines _

theorem Holds.doDeleteLinesNum (h : Holds given c) (start : ℕ) (stop : ℤ) :
    Holds given (c.doDeleteLinesNum start stop) := by
  unfold QueryResult.doDeleteLinesNum
  split_ifs
  · exact h
  · exact h.deleteIntervals _ _

theorem Holds.doDeleteLines (h : Holds given c) (field : AnchorField)
    (mode : DeletionMode) : Holds given (c.doDeleteLines field mode) := by
  unfold QueryResult.doDeleteLines
  by_cases h0 : c.type ≠ .sub
  · rw [if_pos h0]
    exact h
  · rw [if_neg h0]
    cases field with
    | matchField | matchEndField => exact h
    | targetField | keywordField =>
      dsimp only
      split_ifs
      · exact h
      · exact h.deleteIntervals _ _

theorem Holds.cutLines (h : Holds given c) (cut : ℤ) :
    Holds given (c.cutLines cut) := by
  unfold QueryResult.cutLines
  split_ifs
  · exact h.deleteIntervals _ _
  · exact h

theorem Holds.applyStrategy (h : Holds given c) (strategy : MatchingStrategy) :
    Holds given (c.applyStrategy strategy) := by
  cases strategy with
  | traditional => exact h
  | shortestMatch => exact h.filter .minimalMatches (by decide)
  | standardMatch => exact h.filter .leftMaximalMatches (by decide)
  | longestMatch => exact h.filter .maximalMatches (by decide)

theorem Holds.evaluateSubset (h : Holds given c) (field : AnchorField)
    (holds : ℤ → Bool) (processed : ℕ) : Holds given (c.evaluateSubset field holds processed) := h.markLines _

/-! Copies and new results. -/

theorem Holds.setType (h : Holds given c) (type : CorpusType) :
    Holds given { c with type := type } := ⟨h.sound.setType type, h.lines⟩

theorem Holds.makeTempCorpus {tmp : QueryResult} (h : Holds given c)
    (htmp : c.makeTempCorpus = some tmp) : Holds given tmp ∧ tmp.sortidx = none := by
  unfold QueryResult.makeTempCorpus at htmp
  split_ifs at htmp
  cases htmp
  exact ⟨h.dropSortidx.setType .temp, rfl⟩

theorem holds_matchlist (c : QueryResult) (ml : Matchlist) : Holds ml.lines (c.setCorpusMatchlists ml false) := by
  refine holds_of_vectors ml.lines ?_ ?_ ?_ rfl fun m hm => hm
  · simp [setCorpusMatchlists, Matchlist.lines, comp_def, Match.pair]
  · cases ht : ml.targets with
    | true => simp [setCorpusMatchlists, Matchlist.lines, comp_def, ht]
    | false => simp [setCorpusMatchlists, Matchlist.lines, ht]
  · cases hk : ml.keywords with
    | true => simp [setCorpusMatchlists, Matchlist.lines, comp_def, hk]
    | false => simp [setCorpusMatchlists, Matchlist.lines, hk]

theorem Holds.setCorpusMatchlists (h : Holds given c) (ml : Matchlist) :
    Holds given (c.setCorpusMatchlists ml true) :=
  h.dropSortidx.markReduce fun l => marks_keepRanges l ml.tab

/-! Changes of the ranges. -/

theorem lines_mapRange (c : QueryResult) (f : ℤ × ℤ → ℤ × ℤ) :
    ({ c with range := c.range.map f } : QueryResult).lines = c.lines.map (Match.onRange f) := by
  have hsize : ({ c with range := c.range.map f } : QueryResult).size = c.size := by simp [size]
  rw [lines, lines, hsize, List.map_map]
  refine map_congr_left fun k hk => ?_
  have hr : (c.range.map f).getD k (0, 0) = f (c.rangeAt k) := by
    have hk' : k < c.range.length := mem_range.mp hk
    rw [getD_eq_getElem _ _ (by simpa using hk'), getElem_map, rangeAt, getD_eq_getElem _ _ hk']
  simp only [line, rangeAt, hr, comp_apply, Match.onRange, Match.pair]
  rfl

theorem Holds.mapRange (h : Holds given c) (f : ℤ × ℤ → ℤ × ℤ) :
    Holds (given.map (Match.onRange f)) { c with range := c.range.map f } := by
  refine ⟨h.sound.setRange (by simp [size]), fun m hm => ?_⟩
  rw [lines_mapRange] at hm
  obtain ⟨m', hm', rfl⟩ := mem_map.mp hm
  exact mem_map_of_mem (h.lines m' hm')

theorem Holds.expandDataspace (h : Holds given c) (expansion : Option Expansion) :
    Holds (Session.expanded expansion given) (c.expandDataspace expansion) := by
  cases expansion with
  | none => exact h
  | some e =>
    unfold QueryResult.expandDataspace
    dsimp only
    split_ifs
    · exact h.mono fun m hm => mem_append_left _ hm
    · exact ((h.mapRange e.expand).filter .uniq (by decide)).mono fun m hm => mem_append_right _ hm

theorem Holds.implicitExpansion (h : Holds given c) (left right : ℤ → ℤ) :
    Holds (given.map (Match.onRange (implicitExpand left right))) (c.implicitExpansion left right) :=
  (h.mapRange _).filter .uniq (by decide)

/-! Sorting. -/

theorem Holds.rangeSort (h : Holds given c) (mk : Bool) :
    Holds given (c.rangeSort mk) := by
  by_cases hsys : c.type = .system
  · have hc : c.rangeSort mk = c := by simp only [QueryResult.rangeSort, hsys]
    rw [hc]
    exact h
  · have hperm := qsortIndex_perm c.size c.rsCompareRanges
    have hlines : ∀ m ∈ (qsortIndex c.size c.rsCompareRanges).map c.line, m ∈ given := fun m hm =>
      h.lines m ((hperm.map c.line).mem_iff.mp hm)
    cases mk with
    | false =>
      rw [c.rangeSort_false hsys]
      exact ⟨c.sound_reindex _, by rw [lines_reindex]; exact hlines⟩
    | true =>
      rw [c.rangeSort_true hsys]
      exact ⟨sound_unsorted hperm, fun m hm => h.lines m ((lines_unsorted_perm hperm).mem_iff.mp hm)⟩

theorem Holds.setSortidx (h : Holds given c) {sortidx : Option (List ℕ)}
    (hidx : ∀ idx, sortidx = some idx → idx.Perm (List.range c.size)) : Holds given { c with sortidx := sortidx } :=
  ⟨⟨h.sound.targets, h.sound.keywords, hidx⟩, h.lines⟩

/-- Numbers in range, none of them twice: as many as there are lines are all the lines. -/
theorem perm_of_external {out : List ℤ} (hout : out.Nodup) {n : ℕ}
    (h : ((out.take n).takeWhile fun num : ℤ => decide (0 ≤ num) && decide (num < n)).length = n) :
    (((out.take n).takeWhile fun num : ℤ => decide (0 ≤ num) && decide (num < n)).map Int.toNat).Perm (List.range n) := by
  set read := (out.take n).takeWhile fun num : ℤ => decide (0 ≤ num) && decide (num < n) with hread
  have hin : ∀ z ∈ read, 0 ≤ z ∧ z < n := by
    intro z hz
    simpa using mem_takeWhile_imp hz
  have hnodup : (read.map Int.toNat).Nodup := by
    refine List.Nodup.map_on (fun a ha b hb hab => ?_) ?_
    · have h1 := hin a ha
      have h2 := hin b hb
      omega
    · exact ((takeWhile_sublist _).trans (take_sublist _ _)).nodup hout
  refine (subperm_of_subset hnodup fun k hk => ?_).perm_of_length_le (by simp [h])
  obtain ⟨z, hz, rfl⟩ := mem_map.mp hk
  have h1 := hin z hz
  exact mem_range.mpr (by omega)

theorem Holds.sortSubcorpus (h : Holds given c) (run : SortRun) :
    Holds given (c.sortSubcorpus run) := by
  unfold QueryResult.sortSubcorpus
  by_cases h0 : c.size = 0
  · rw [if_pos h0]
    exact h
  · rw [if_neg h0]
    cases run with
    | reset => exact h.dropSortidx
    | failed => exact h
    | internal compare aborted =>
      refine h.setSortidx fun idx hidx => ?_
      split_ifs at hidx
      cases hidx
      exact qsortIndex_perm _ _
    | external out once =>
      refine h.setSortidx fun idx hidx => ?_
      split_ifs at hidx with hlen
      cases hidx
      exact perm_of_external once hlen

theorem Holds.sortSubcorpusRandomize (h : Holds given c) (seed : ℤ)
    (rng : RngState) : Holds given (c.sortSubcorpusRandomize seed rng).1 := by
  unfold QueryResult.sortSubcorpusRandomize
  by_cases h0 : c.size = 0
  · rw [if_pos h0]
    exact h
  · rw [if_neg h0]
    refine h.setSortidx fun idx hidx => ?_
    cases hidx
    exact qsortIndex_perm _ _

/-! Target and keyword. -/

theorem getD_zipIdx_map {α β : Type} (f : α × ℕ → β) (l : List α) (d : α) (e : β) {k : ℕ} (hk : k < l.length) :
    (l.zipIdx.map f).getD k e = f (l.getD k d, k) := by
  rw [getD_eq_getElem _ _ (by simpa using hk), getD_eq_getElem _ _ hk]
  simp

theorem size_setField (c : QueryResult) (goal : AnchorField) (table : List ℤ) : (c.setField goal table).size = c.size := by
  cases goal <;> simp [setField, size]

theorem line_setField (c : QueryResult) (goal : AnchorField) (table : List ℤ) {k : ℕ} (hk : k < c.size) :
    (c.setField goal table).line k = (c.line k).setField goal (table.getD k 0) := by
  cases goal with
  | matchField =>
    have hr := getD_zipIdx_map (fun p => setStart p.1 (table.getD p.2 0)) c.range (0, 0) (0, 0) hk
    simp only [line, rangeAt, setField, hr, Match.setField, Match.onRange, Match.pair]
    rfl
  | matchEndField =>
    have hr := getD_zipIdx_map (fun p => setStop p.1 (table.getD p.2 0)) c.range (0, 0) (0, 0) hk
    simp only [line, rangeAt, setField, hr, Match.setField, Match.onRange, Match.pair]
    rfl
  | targetField => rfl
  | keywordField => rfl

theorem Sound.setField (h : c.Sound) (goal : AnchorField) {table : List ℤ}
    (hlen : table.length = c.size) : (c.setField goal table).Sound := by
  cases goal with
  | matchField => exact h.setRange (by simp [size])
  | matchEndField => exact h.setRange (by simp [size])
  | targetField => exact ⟨fun v hv => by cases hv; exact hlen, h.keywords, h.sortidx⟩
  | keywordField => exact ⟨h.targets, fun v hv => by cases hv; exact hlen, h.sortidx⟩

/-- A table with the position for each line. -/
theorem Sound.holds_setField (h : c.Sound) (goal : AnchorField) {table : List ℤ} (hlen : table.length = c.size)
    (hgiven : ∀ k < c.size, (c.line k).setField goal (table.getD k 0) ∈ given) : Holds given (c.setField goal table) := by
  refine ⟨h.setField goal hlen, fun m hm => ?_⟩
  obtain ⟨k, hk, rfl⟩ := mem_lines.mp hm
  rw [size_setField] at hk
  rw [line_setField c goal table hk]
  exact hgiven k hk

theorem Holds.resort (h : Holds given c) (goal : AnchorField) :
    Holds given (c.resort goal) := by
  cases goal with
  | matchField | matchEndField => exact h.rangeSort false
  | targetField | keywordField => exact h

theorem Sound.evaluateTarget (h : c.Sound) (goal : AnchorField) (found : ℕ → ℤ) :
    Holds (c.lines.zipIdx.map fun p => p.1.setField goal (found p.2)) (c.evaluateTarget goal found) := by
  unfold QueryResult.evaluateTarget
  by_cases h0 : c.size = 0
  · rw [if_pos h0]
    exact ⟨h, fun m hm => by simp [lines, h0] at hm⟩
  · rw [if_neg h0]
    refine (h.holds_setField goal (by simp) fun k hk => ?_).resort goal
    refine mem_map.mpr ⟨(c.line k, k), ?_, ?_⟩
    · rw [mk_mem_zipIdx_iff_getElem?]
      simp [lines, hk]
    · rw [getD_eq_getElem _ _ (by simpa using hk)]
      simp

theorem Sound.clearTargets (h : c.Sound) :
    Holds (c.lines.map fun m => { m with target := -1 }) { c with targets := none } := by
  refine ⟨⟨fun v hv => by simp at hv, h.keywords, h.sortidx⟩, fun m hm => ?_⟩
  obtain ⟨k, hk, rfl⟩ := mem_lines.mp hm
  exact mem_map.mpr ⟨c.line k, mem_lines.mpr ⟨k, hk, rfl⟩, rfl⟩

theorem Sound.clearKeywords (h : c.Sound) :
    Holds (c.lines.map fun m => { m with keyword := -1 }) { c with keywords := none } := by
  refine ⟨⟨h.targets, fun v hv => by simp at hv, h.sortidx⟩, fun m hm => ?_⟩
  obtain ⟨k, hk, rfl⟩ := mem_lines.mp hm
  exact mem_map.mpr ⟨c.line k, mem_lines.mpr ⟨k, hk, rfl⟩, rfl⟩

/-- Copying a field that reads `read` from each line. -/
theorem Sound.copyField (h : c.Sound) (goal : AnchorField) {table : List ℤ} (read : Match → ℤ)
    (hlen : table.length = c.size) (hread : ∀ k < c.size, table.getD k 0 = read (c.line k)) :
    Holds (c.lines.map fun m => m.setField goal (read m)) (c.setField goal table) := by
  refine h.holds_setField goal hlen fun k hk => ?_
  rw [hread k hk]
  exact mem_map.mpr ⟨c.line k, mem_lines.mpr ⟨k, hk, rfl⟩, rfl⟩

theorem Sound.copyRange (h : c.Sound) (goal : AnchorField) (f : ℤ × ℤ → ℤ) :
    Holds (c.lines.map fun m => m.setField goal (f m.pair)) (c.setField goal (c.range.map f)) := by
  refine h.copyField goal (fun m => f m.pair) (by simp [size]) fun k hk => ?_
  have hk' : k < c.range.length := hk
  rw [getD_eq_getElem _ _ (by simpa using hk'), getElem_map]
  simp [line, rangeAt, Match.pair, hk']

theorem Sound.setTarget (h : c.Sound) (goal : AnchorField) (source : Option AnchorField) :
    Holds (c.assigned goal source) (c.setTarget goal source) := by
  unfold QueryResult.setTarget QueryResult.assigned
  by_cases hsame : source = some goal
  · rw [if_pos (Or.inl hsame), if_pos (Or.inl hsame)]
    exact h.holds
  by_cases h0 : c.size = 0
  · rw [if_pos (Or.inr h0)]
    exact ⟨h, fun m hm => by simp [lines, h0] at hm⟩
  rw [if_neg (not_or.mpr ⟨hsame, h0⟩)]
  cases source with
  | none =>
    rw [if_neg (by simp)]
    cases goal with
    | targetField => exact h.clearTargets
    | keywordField => exact h.clearKeywords
    | matchField | matchEndField => exact (h.holds.mono fun m hm => mem_map.mpr ⟨m, hm, rfl⟩).resort _
  | some field =>
    cases field with
    | matchField =>
      rw [if_neg (by simp [hsame])]
      cases goal with
      | matchField => exact absurd rfl hsame
      | matchEndField => exact (h.holds.mapRange fun p => (p.1, p.1)).resort _
      | targetField => exact h.copyRange .targetField Prod.fst
      | keywordField => exact h.copyRange .keywordField Prod.fst
    | matchEndField =>
      rw [if_neg (by simp [hsame])]
      cases goal with
      | matchEndField => exact absurd rfl hsame
      | matchField => exact (h.holds.mapRange fun p => (p.2, p.2)).resort _
      | targetField => exact h.copyRange .targetField Prod.snd
      | keywordField => exact h.copyRange .keywordField Prod.snd
    | targetField =>
      cases ht : c.targets with
      | none =>
        rw [if_pos (by simp)]
        exact h.holds.resort goal
      | some table =>
        rw [if_neg (by simp [hsame])]
        refine Holds.resort ?_ goal
        have := h.copyField goal Match.target (h.targets table ht) fun k hk => by simp [line, targetAt, ht]
        cases goal <;> exact this
    | keywordField =>
      cases hk : c.keywords with
      | none =>
        rw [if_pos (by simp)]
        exact h.holds.resort goal
      | some table =>
        rw [if_neg (by simp [hsame])]
        refine Holds.resort ?_ goal
        have := h.copyField goal Match.keyword (h.keywords table hk) fun k hk' => by simp [line, keywordAt, hk]
        cases goal <;> exact this

/-! Translation and undump. -/

theorem Holds.doTranslate (h : Holds given c) (bead : ℤ → Option (ℤ × ℤ)) :
    Holds (given.filterMap fun m => (bead m.start).map Match.ofRange) (c.doTranslate bead) := by
  set range := c.range.map fun p => (bead p.1).getD (-1, 0) with hrange
  have hsound : ({ type := .temp, range := range } : QueryResult).Sound :=
    ⟨fun v hv => by simp at hv, fun v hv => by simp at hv, fun idx hidx => by simp at hidx⟩
  obtain ⟨hreduced, hlines⟩ := rReduce_spec hsound
  refine Holds.rangeSort ⟨hreduced, fun m hm => ?_⟩ true
  rw [hlines, mem_filter] at hm
  obtain ⟨k, hk, rfl⟩ := mem_lines.mp hm.1
  have hk' : k < c.size := by simpa [hrange, size] using hk
  have hr : rangeAt { type := .temp, range := range } k = (bead (c.rangeAt k).1).getD (-1, 0) := by
    rw [rangeAt, hrange, getD_eq_getElem _ _ (by simpa [size] using hk'), getElem_map, rangeAt,
      getD_eq_getElem _ _ hk']
    rfl
  have hline : line { type := .temp, range := range } k = Match.ofRange ((bead (c.rangeAt k).1).getD (-1, 0)) := by
    rw [line, hr]
    rfl
  rw [hline] at hm ⊢
  refine mem_filterMap.mpr ⟨c.line k, h.lines _ (mem_lines.mpr ⟨k, hk', rfl⟩), ?_⟩
  cases hb : bead (c.rangeAt k).1 with
  | none => exact absurd hm.2 (by simp [hb, Match.ofRange, Match.kept])
  | some q => simp [line, hb]

end QueryResult

/-- Fields that were not read are -1. -/
theorem Undump.readRows_anchors (u : Undump) {size i : ℕ} {mark : ℤ} {lines : List (List UndumpField)}
    {rows : List Match} (h : u.readRows size i mark lines = .ok rows) :
    ∀ m ∈ rows, (u.extensionFields.val < 1 → m.target = -1) ∧ (u.extensionFields.val < 2 → m.keyword = -1) := by
  induction size generalizing i mark lines rows with
  | zero =>
    cases h
    exact fun m hm => absurd hm not_mem_nil
  | succ size ih =>
    cases lines with
    | nil => cases h
    | cons line rest =>
      unfold readRows at h
      split_ifs at h with hscan
      have hlen : (scanInts 4 line).length = 2 + u.extensionFields.val := by
        have := u.extensionFields.isLt
        rw [not_not, scanRow] at hscan
        split_ifs at hscan <;> omega
      dsimp only at h
      split at h
      · cases hr : u.readRows size (i + 1) ((scanInts 4 line).getD 1 0) rest with
        | error e => rw [hr] at h; cases h
        | ok rows' =>
          rw [hr] at h
          cases h
          intro m hm
          obtain rfl | hm := mem_cons.mp hm
          · exact ⟨fun hx => getD_eq_default _ _ (by omega), fun hx => getD_eq_default _ _ (by omega)⟩
          · exact ih hr m hm
      · cases h

theorem Undump.holds_doUndump {u : Undump} (h : u.doUndump = .ok c) : QueryResult.Holds u.rows c := by
  unfold doUndump at h
  unfold rows
  cases ht : u.tableSize with
  | none => rw [ht] at h; cases h
  | some t =>
    obtain ⟨size, lines⟩ := t
    rw [ht] at h
    dsimp only at h ⊢
    cases hr : u.readRows size 0 (-1) lines with
    | error e => rw [hr] at h; cases h
    | ok rows =>
      rw [hr] at h
      cases h
      have hfilled : QueryResult.Holds rows (u.filled rows) := by
        refine QueryResult.holds_of_vectors rows rfl ?_ ?_ rfl fun m hm => hm
        · by_cases hx : 1 ≤ u.extensionFields.val
          · exact .inl (if_pos hx)
          · exact .inr ⟨if_neg hx, fun m hm => (u.readRows_anchors hr m hm).1 (by omega)⟩
        · by_cases hx : 2 ≤ u.extensionFields.val
          · exact .inl (if_pos hx)
          · exact .inr ⟨if_neg hx, fun m hm => (u.readRows_anchors hr m hm).2 (by omega)⟩
      refine QueryResult.Holds.setType ?_ .sub
      split_ifs
      · exact hfilled.rangeSort true
      · exact hfilled

variable {s s' : Session} {cmd : Command} {name : String}

namespace Session

open QueryResult

/-- All query results are sound. -/
def Sound (s : Session) : Prop := ∀ name c, s.results name = some c → c.Sound

/-- A command leaves every result as it was or fills it with lines that it was given. -/
def Follows (s : Session) (cmd : Command) (s' : Session) : Prop :=
  ∀ name c, s'.results name = some c → s.results name = some c ∨ Holds (s.given cmd) c

theorem Sound.holds (h : s.Sound) (hc : s.results name = some c) :
    Holds (s.linesOf name) c := by
  refine ⟨h name c hc, fun m hm => ?_⟩
  rw [linesOf, hc]
  exact hm

theorem follows_refl (s : Session) (cmd : Command) : s.Follows cmd s := fun _ _ hc => .inl hc

@[simp] theorem store_results (s : Session) (name : String) (c : QueryResult) :
    (s.store name c).results = update s.results name (some c) := rfl

theorem follows_store (h : Holds (s.given cmd) c) (name : String) :
    s.Follows cmd (s.store name c) := by
  intro name' c' hc'
  rw [store_results] at hc'
  by_cases hn : name' = name
  · subst hn
    rw [update_self] at hc'
    cases hc'
    exact .inr h
  · rw [update_of_ne hn] at hc'
    exact .inl hc'

theorem follows_lookup {f : QueryResult → Option Session}
    (hf : ∀ c, s.results name = some c → f c = some s' → s.Follows cmd s') (h : s.lookup name f = some s') :
    s.Follows cmd s' := by
  unfold lookup at h
  split at h
  · cases h
    exact s.follows_refl cmd
  · rename_i c hc
    exact hf c hc h

theorem follows_modify (hs : s.Sound) {f : QueryResult → QueryResult}
    (hf : ∀ c, s.results name = some c → Holds (s.linesOf name) c → Holds (s.given cmd) (f c))
    (h : s.modify name f = some s') : s.Follows cmd s' := by
  refine follows_lookup (fun c hc h => ?_) h
  cases h
  exact follows_store (hf c hc (hs.holds hc)) name

theorem follows_derive (hs : s.Sound) {result : String} {f : QueryResult → QueryResult}
    (hf : ∀ tmp, Holds (s.linesOf name) tmp → tmp.sortidx = none → Holds (s.given cmd) (f tmp))
    (h : s.derive name result f = some s') : s.Follows cmd s' := by
  refine follows_lookup (fun c hc h => ?_) h
  obtain ⟨tmp, htmp, rfl⟩ := map_eq_some_iff.mp h
  obtain ⟨hh, hidx⟩ := (hs.holds hc).makeTempCorpus htmp
  exact follows_store ((hf tmp hh hidx).setType .sub) result

theorem holds_evaluated {tmp : QueryResult} (h : Holds given tmp) (ml : Matchlist) (keep : Bool) :
    Holds (if keep then given else ml.lines) (tmp.setCorpusMatchlists ml keep) := by
  cases keep with
  | true => exact h.setCorpusMatchlists ml
  | false => exact holds_matchlist tmp ml

theorem follows_query (hs : s.Sound) {corpus result : String} {found : Option Matchlist} {keep : Bool}
    {strategy : MatchingStrategy} {cut : ℤ} {sort : Option SortRun} {expansion : Option Expansion}
    (h : s.step (.query corpus result found keep strategy cut sort expansion) = some s') :
    s.Follows (.query corpus result found keep strategy cut sort expansion) s' := by
  refine follows_derive hs (fun tmp hh _ => Holds.expandDataspace ?_ expansion) h
  have h1 := hh.filter .nonOverlapping (by decide)
  cases found with
  | none =>
    have h2 := (h1.applyStrategy strategy).cutLines cut
    cases sort with
    | none => exact h2
    | some run => exact h2.sortSubcorpus run
  | some ml =>
    have h2 := ((holds_evaluated h1 ml keep).applyStrategy strategy).cutLines cut
    cases sort with
    | none => exact h2
    | some run => exact h2.sortSubcorpus run

theorem follows_step (hs : s.Sound) (cmd : Command) (h : s.step cmd = some s') : s.Follows cmd s' := by
  cases cmd with
  | query => exact follows_query hs h
  | setop operation left right result expansion =>
    refine follows_lookup (fun c2 hr h => ?_) h
    refine follows_derive hs (fun tmp hh hidx => Holds.expandDataspace ?_ expansion) h
    refine Holds.rangeSetop ?_ ?_ operation (fun _ => hidx) none
    · exact hh.mono fun m hm => mem_append_left _ hm
    · exact (hs.holds hr).mono fun m hm => mem_append_right _ hm
  | subset corpus result field holds processed expansion =>
    simp only [step] at h
    split_ifs at h
    · cases h
      exact s.follows_refl _
    · exact follows_derive hs (fun tmp hh _ => (hh.evaluateSubset field holds processed).expandDataspace expansion) h
  | expand corpus result expansion =>
    simp only [step] at h
    split_ifs at h
    · cases h
      exact s.follows_refl _
    · exact follows_derive hs (fun tmp hh _ => hh.expandDataspace (some expansion)) h
  | expandName corpus result left right =>
    refine follows_lookup (fun c hc h => ?_) h
    cases h
    split_ifs
    · exact s.follows_refl _
    · refine follows_store ?_ result
      exact ((hs.holds hc).setType .sub).implicitExpansion left right
  | translate corpus result bead =>
    refine follows_lookup (fun c hc h => ?_) h
    cases h
    refine follows_store ?_ result
    exact ((hs.holds hc).doTranslate bead).setType .sub
  | assign corpus result =>
    refine follows_lookup (fun c hc h => ?_) h
    cases h
    split_ifs
    · exact s.follows_refl _
    · refine follows_store ?_ result
      exact (hs.holds hc).setType .sub
  | undump result u =>
    simp only [step] at h
    split at h
    · cases h
      exact s.follows_refl _
    · rename_i c hu
      cases h
      refine follows_store ?_ result
      exact Undump.holds_doUndump hu
  | cut corpus first last => exact follows_modify hs (fun c _ hh => hh.doCut first last) h
  | reduce corpus number percent selected => exact follows_modify hs (fun c _ hh => hh.doReduce number percent selected) h
  | reduceMaximal corpus => exact follows_modify hs (fun c _ hh => hh.filter .maximalMatches (by decide)) h
  | deleteLines corpus field mode => exact follows_modify hs (fun c _ hh => hh.doDeleteLines field mode) h
  | deleteLinesNum corpus start stop => exact follows_modify hs (fun c _ hh => hh.doDeleteLinesNum start stop) h
  | deleteInterval corpus nr => exact follows_modify hs (fun c _ hh => hh.deleteInterval nr) h
  | setTarget corpus goal source =>
    refine follows_modify hs (fun c hc hh => ?_) h
    rw [given, hc]
    exact hh.sound.setTarget goal source
  | setComplexTarget corpus goal found =>
    refine follows_modify hs (fun c hc hh => ?_) h
    rw [given, linesOf, hc]
    exact hh.sound.evaluateTarget goal found
  | sort corpus run => exact follows_modify hs (fun c _ hh => hh.sortSubcorpus run) h
  | randomize corpus seed =>
    refine follows_lookup (fun c hc h => ?_) h
    cases h
    refine follows_store ?_ corpus
    exact (hs.holds hc).sortSubcorpusRandomize seed s.rng
  | discard corpus =>
    cases h
    intro name c hc
    dsimp only at hc
    by_cases hn : name = corpus
    · subst hn
      simp at hc
    · rw [update_of_ne hn] at hc
      exact .inl hc

theorem sound_step (hs : s.Sound) (h : s.step cmd = some s') : s'.Sound := by
  intro name c hc
  obtain hold | hnew := follows_step hs cmd h name c hc
  · exact hs name c hold
  · exact hnew.sound

theorem sound_run (hs : s.Sound) {cmds : List Command} (h : s.run cmds = some s') : s'.Sound := by
  induction cmds generalizing s with
  | nil =>
    cases h
    exact hs
  | cons cmd cmds ih =>
    obtain ⟨s1, h1, h2⟩ := bind_eq_some_iff.mp h
    exact ih (sound_step hs h1) h2

/-- The session at its start: the system corpora, each one range over all its tokens. -/
def start (sizes : String → Option ℕ) (rng : RngState) : Session :=
  { results := fun name => (sizes name).map fun n => { type := .system, range := [(0, (n : ℤ) - 1)] }
    rng }

theorem sound_start (sizes : String → Option ℕ) (rng : RngState) : (start sizes rng).Sound := by
  intro name c hc
  obtain ⟨n, -, rfl⟩ := map_eq_some_iff.mp hc
  exact ⟨fun v hv => by simp at hv, fun v hv => by simp at hv, fun idx hidx => by simp at hidx⟩

end Session

/-- After any commands, the next one leaves every query result with a sort index that is
absent or a permutation of its lines, with anchors for exactly its ranges, and with no
line (range and anchors) that is neither there before nor given to the command. -/
theorem session_vectors_fit (sizes : String → Option ℕ) (rng : RngState) (cmds : List Command) (cmd : Command)
    {s s' : Session} (hrun : (Session.start sizes rng).run cmds = some s) (hstep : s.step cmd = some s')
    (name : String) (c : QueryResult) (hc : s'.results name = some c) :
    (c.sortidx = none ∨ ∃ idx, c.sortidx = some idx ∧ idx.Perm (List.range c.size)) ∧
      (c.targets = none ∨ ∃ v, c.targets = some v ∧ v.length = c.size) ∧
      (c.keywords = none ∨ ∃ v, c.keywords = some v ∧ v.length = c.size) ∧
      (s.results name = some c ∨ ∀ m ∈ c.lines, m ∈ s.given cmd) := by
  have hs := Session.sound_run (Session.sound_start sizes rng) hrun
  obtain ⟨ht, hk, hidx⟩ := Session.sound_step hs hstep name c hc
  refine ⟨?_, ?_, ?_, (Session.follows_step hs cmd hstep name c hc).imp_right (·.lines)⟩
  · cases h : c.sortidx with
    | none => exact .inl rfl
    | some idx => exact .inr ⟨idx, rfl, hidx idx h⟩
  · cases h : c.targets with
    | none => exact .inl rfl
    | some v => exact .inr ⟨v, rfl, ht v h⟩
  · cases h : c.keywords with
    | none => exact .inl rfl
    | some v => exact .inr ⟨v, rfl, hk v h⟩

/-- A query with two matches and their targets, then a cut. -/
def sampleQuery : Command :=
  .query "DICKENS" "Last" (some { tab := [⟨3, 4, 4, -1⟩, ⟨7, 9, 8, -1⟩], ends := true, targets := true }) false
    .traditional 0 none none

theorem session_vectors_fit_cut :
    ∃ s s', (Session.start (fun _ => some 10) {}).run [sampleQuery] = some s ∧
      s.step (.cut "Last" 0 0) = some s' ∧ ∀ name c, s'.results name = some c →
        (c.sortidx = none ∨ ∃ idx, c.sortidx = some idx ∧ idx.Perm (List.range c.size)) ∧
          (c.targets = none ∨ ∃ v, c.targets = some v ∧ v.length = c.size) ∧
          (c.keywords = none ∨ ∃ v, c.keywords = some v ∧ v.length = c.size) ∧
          (s.results name = some c ∨ ∀ m ∈ c.lines, m ∈ s.given (.cut "Last" 0 0)) :=
  ⟨_, _, rfl, rfl, fun name c hc => session_vectors_fit (fun _ => some 10) {} [sampleQuery] _ rfl rfl name c hc⟩

end CWB
