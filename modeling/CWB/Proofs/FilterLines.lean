import Mathlib
import CWB.Proofs.StrategyFilters

/-! The filters behind the matching strategies on whole lines: they keep lines as they are, with
their anchors and in their order, and a filter that is applied again removes nothing. -/

namespace CWB

open List

/-- `c'` has the lines of `c` that satisfy `keep`, in their order and with the same anchors. -/
structure Selects (c' c : CorpusList) (keep : Match → Prop) : Prop where
  sublist : c'.range.Sublist c.range
  mem_iff : ∀ m, m ∈ c'.range ↔ m ∈ c.range ∧ keep m
  targets : c'.targets = c.targets
  keywords : c'.keywords = c.keywords

/-! ## What the loops leave as it is -/

/-- Each line of the second list is that of the first one, or its mark. -/
def MarkedFrom (l l' : List Match) : Prop := Forall₂ (fun a b => b = a ∨ b = a.mark) l l'

theorem MarkedFrom.refl (l : List Match) : MarkedFrom l l := forall₂_same.mpr fun _ _ => .inl rfl

variable {l : List Match}

theorem markedFrom_trans {l' l'' : List Match} (h : MarkedFrom l l') (h' : MarkedFrom l' l'') : MarkedFrom l l'' := by
  induction h generalizing l'' with
  | nil =>
    cases h'
    exact .nil
  | cons hab _ ih =>
    cases h' with
    | cons hbc htail =>
      refine .cons ?_ (ih htail)
      rcases hab with rfl | rfl
      · exact hbc
      · rcases hbc with rfl | rfl
        · exact .inr rfl
        · exact .inr rfl

theorem markedFrom_minimalScan (start : ℤ) (ri : Match) (l : List Match) :
    ((minimalScan start ri l).1 = ri ∨ (minimalScan start ri l).1 = ri.mark) ∧ MarkedFrom l (minimalScan start ri l).2 := by
  induction l with
  | nil => exact ⟨.inl rfl, .nil⟩
  | cons rj rest ih =>
    rw [minimalScan]
    split_ifs with h1 h2 h3
    · exact ⟨.inr rfl, .refl _⟩
    · exact ⟨ih.1, .cons (.inr rfl) ih.2⟩
    · exact ⟨ih.1, .cons (.inl rfl) ih.2⟩
    · exact ⟨.inl rfl, .refl _⟩

theorem markedFrom_minimalLoop (l : List Match) : MarkedFrom l (minimalLoop l) := by
  induction l using minimalLoop.induct with
  | case1 =>
    rw [minimalLoop]
    exact .nil
  | case2 ri rest hne ih =>
    rw [minimalLoop, if_pos hne]
    obtain ⟨hfirst, hrest⟩ := markedFrom_minimalScan ri.start ri rest
    exact .cons hfirst (markedFrom_trans hrest ih)
  | case3 ri rest hne ih =>
    rw [minimalLoop, if_neg hne]
    exact .cons (.inl rfl) ih

theorem markedFrom_maximalScan (start : ℤ) (ri : Match) (l : List Match) :
    ((maximalScan start ri l).1 = ri ∨ (maximalScan start ri l).1 = ri.mark) ∧ MarkedFrom l (maximalScan start ri l).2 := by
  induction l generalizing ri with
  | nil => exact ⟨.inl rfl, .nil⟩
  | cons rj rest ih =>
    rw [maximalScan]
    split_ifs with h1 h2 h3
    · exact ⟨(ih ri).1, .cons (.inr rfl) (ih ri).2⟩
    · refine ⟨.inr ?_, .cons (.inl rfl) (ih ri.mark).2⟩
      rcases (ih ri.mark).1 with h | h
      · exact h
      · exact h
    · exact ⟨(ih ri).1, .cons (.inl rfl) (ih ri).2⟩
    · exact ⟨.inl rfl, .refl _⟩

theorem markedFrom_maximalLoop (l : List Match) : MarkedFrom l (maximalLoop l) := by
  induction l using maximalLoop.induct with
  | case1 =>
    rw [maximalLoop]
    exact .nil
  | case2 ri rest hne ih =>
    rw [maximalLoop, if_pos hne]
    obtain ⟨hfirst, hrest⟩ := markedFrom_maximalScan ri.start ri rest
    exact .cons hfirst (markedFrom_trans hrest ih)
  | case3 ri rest hne ih =>
    rw [maximalLoop, if_neg hne]
    exact .cons (.inl rfl) ih

theorem markedFrom_markWhile (run del : Match → Bool) (l : List Match) : MarkedFrom l (markWhile run del l) := by
  induction l with
  | nil => exact .nil
  | cons rj rest ih =>
    rw [markWhile]
    split_ifs with h1 h2
    · exact .cons (.inr rfl) ih
    · exact .cons (.inl rfl) ih
    · exact .refl _

theorem markedFrom_markLoop (run del : Match → Match → Bool) (l : List Match) : MarkedFrom l (markLoop run del l) := by
  induction l using markLoop.induct run del with
  | case1 =>
    rw [markLoop]
    exact .nil
  | case2 ri rest hne ih =>
    rw [markLoop, if_pos hne]
    exact .cons (.inl rfl) (markedFrom_trans (markedFrom_markWhile _ _ rest) ih)
  | case3 ri rest hne ih =>
    rw [markLoop, if_neg hne]
    exact .cons (.inl rfl) ih

/-! ## What `RReduce` keeps of marked lines -/

theorem filter_kept_sublist {l' : List Match} (h : MarkedFrom l l') : (l'.filter Match.kept).Sublist l := by
  induction h with
  | nil => exact .slnil
  | @cons a b _ _ hab _ ih =>
    rcases hab with rfl | rfl
    · cases hk : b.kept with
      | true =>
        rw [filter_cons_of_pos hk]
        exact ih.cons_cons _
      | false =>
        rw [filter_cons_of_neg (by simp [hk])]
        exact ih.cons _
    · rw [filter_cons_of_neg (by simp)]
      exact ih.cons _

theorem range_rReduce (c : CorpusList) : (rReduce c).range = c.range.filter Match.kept := by
  rw [rReduce]
  split_ifs with h
  · rfl
  · exact (filter_eq_self.mpr (length_filter_eq_length_iff.mp (not_not.mp h))).symm

theorem targets_rReduce (c : CorpusList) : (rReduce c).targets = c.targets := by
  rw [rReduce]
  split_ifs <;> rfl

theorem keywords_rReduce (c : CorpusList) : (rReduce c).keywords = c.keywords := by
  rw [rReduce]
  split_ifs <;> rfl

theorem Lex.pair_ne {a b : Match} (h : Lex a b) : a.pair ≠ b.pair := by
  intro heq
  simp only [Match.pair, Prod.mk.injEq] at heq
  rcases h with h | ⟨-, h⟩ <;> omega

/-- A line of an ordered result is known by its range. -/
theorem Ordered.eq_of_pair {c : CorpusList} (h : Ordered c) {m m' : Match} (hm : m ∈ c.range) (hm' : m' ∈ c.range)
    (heq : m.pair = m'.pair) : m = m' := by
  have hnodup : (c.range.map Match.pair).Nodup := pairwise_map.mpr (h.lex.imp fun hab => hab.pair_ne)
  exact inj_on_of_nodup_map hnodup hm hm' heq

theorem Ordered.of_sublist {c c' : CorpusList} (h : Ordered c) (hsub : c'.range.Sublist c.range) : Ordered c' :=
  ⟨fun m hm => h.range m (hsub.subset hm), h.sorted.sublist (hsub.map _)⟩

/-- A marking loop that decides by the ranges selects whole lines. -/
theorem selects_of_markedFrom {c : CorpusList} (h : Ordered c) (hl : MarkedFrom c.range l)
    {keep : ℤ × ℤ → Prop} (hkeep : ∀ p, p ∈ keptPairs l ↔ p ∈ c.pairs ∧ keep p) :
    Selects (rReduce { c with range := l }) c fun m => keep m.pair := by
  have hsub := filter_kept_sublist hl
  refine ⟨by rwa [range_rReduce], fun m => ?_, targets_rReduce _, keywords_rReduce _⟩
  rw [range_rReduce]
  have hpair : ∀ m ∈ l.filter Match.kept, m.pair ∈ keptPairs l := fun m hm => mem_map_of_mem hm
  refine ⟨fun hm => ⟨hsub.subset hm, ((hkeep _).mp (hpair m hm)).2⟩, fun ⟨hm, hk⟩ => ?_⟩
  obtain ⟨m', hm', heq⟩ := mem_map.mp ((hkeep m.pair).mpr ⟨mem_map_of_mem hm, hk⟩)
  rwa [← h.eq_of_pair (hsub.subset hm') hm heq]

/-- Where every line is kept, the result is left as it is. -/
theorem rReduce_eq_self {c : CorpusList} (hl : MarkedFrom c.range l)
    (hall : (l.filter Match.kept).length = c.range.length) : rReduce { c with range := l } = c := by
  have hlen : l.length = c.range.length := (List.Forall₂.length_eq hl).symm
  have hfilter : l.filter Match.kept = l :=
    filter_eq_self.mpr (length_filter_eq_length_iff.mp (hall.trans hlen.symm))
  have hrange : l = c.range := (hfilter ▸ filter_kept_sublist hl).eq_of_length hlen
  subst hrange
  rw [rReduce]
  simp only [CorpusList.size, hfilter]
  rw [if_neg (by simp)]

/-! ## Disjoint ranges -/

/-- The ranges that start behind `last`, each behind the one taken before it. -/
def nextDisjoint (last : ℤ) : List Match → List Match
  | [] => []
  | m :: l => if last < m.start then m :: nextDisjoint m.stop l else nextDisjoint last l

/-- The greedy selection of disjoint ranges from left to right. -/
def greedyDisjoint : List Match → List Match
  | [] => []
  | m :: l => m :: nextDisjoint m.stop l

/-- Marked lines are passed over until the first line behind the current one. -/
theorem filter_kept_overlapLoop (ri : Match) {rest : List Match} (hr : ∀ m ∈ rest, m.Range) :
    (overlapLoop (markWhile (fun rj => decide (rj.start ≤ ri.stop)) (fun _ => true) rest)).filter Match.kept =
      nextDisjoint ri.stop rest := by
  induction hn : rest.length using Nat.strong_induction_on generalizing ri rest with
  | _ n ih =>
  cases rest with
  | nil => simp [markWhile, overlapLoop, markLoop, nextDisjoint]
  | cons rj rest =>
    have hrest : ∀ m ∈ rest, m.Range := fun m hm => hr m (by simp [hm])
    have hlt : rest.length < n := by
      rw [← hn, length_cons]
      omega
    rw [markWhile, nextDisjoint]
    by_cases hle : rj.start ≤ ri.stop
    · rw [if_pos (decide_eq_true hle), if_pos rfl, if_neg (by omega), ← ih _ hlt ri hrest rfl]
      unfold overlapLoop
      rw [markLoop_marked _ _ _ _ rfl, filter_cons_of_neg (by simp)]
    · have hrj := hr rj (by simp)
      rw [if_neg (by simpa using hle), if_pos (by omega), ← ih _ hlt rj hrest rfl]
      unfold overlapLoop
      rw [markLoop, if_pos hrj.start_ne, filter_cons_of_pos hrj.kept]

theorem range_nonOverlapping {c : CorpusList} (h : Ordered c) : (rNonOverlapping c).range = greedyDisjoint c.range := by
  rw [rNonOverlapping, range_rReduce]
  simp only
  cases hc : c.range with
  | nil => simp [overlapLoop, markLoop, greedyDisjoint]
  | cons m l =>
    have hm : m.Range := h.range m (by simp [hc])
    rw [greedyDisjoint, ← filter_kept_overlapLoop m fun m' hm' => h.range m' (by simp [hc, hm'])]
    unfold overlapLoop
    rw [markLoop, if_pos hm.start_ne, filter_cons_of_pos hm.kept]

theorem nextDisjoint_idem (last : ℤ) (l : List Match) : nextDisjoint last (nextDisjoint last l) = nextDisjoint last l := by
  induction l generalizing last with
  | nil => rfl
  | cons m l ih =>
    by_cases hlt : last < m.start
    · rw [nextDisjoint, if_pos hlt, nextDisjoint, if_pos hlt, ih]
    · rw [nextDisjoint, if_neg hlt, ih]

theorem greedyDisjoint_idem (l : List Match) : greedyDisjoint (greedyDisjoint l) = greedyDisjoint l := by
  cases l with
  | nil => rfl
  | cons m l => rw [greedyDisjoint, greedyDisjoint, nextDisjoint_idem]

/-! ## The filters -/

variable {c : CorpusList}

/-- The shortest line with its start. -/
def ShortestLine (c : CorpusList) (m : Match) : Prop := m ∈ c.range ∧ ∀ m' ∈ c.range, m'.start = m.start → m.stop ≤ m'.stop

/-- What a filter keeps of a result; of `RNonOverlapping` the greedy selection. -/
def KeptBy (c : CorpusList) : RangeSetOp → Match → Prop
  | .minimalMatches, m => ∀ m' ∈ c.range, Inside m'.pair m.pair → m' = m
  | .maximalMatches, m => ∀ m' ∈ c.range, Inside m.pair m'.pair → m' = m
  | .leftMaximalMatches, m => ShortestLine c m ∧ ∀ m', ShortestLine c m' → m'.stop = m.stop → m.start ≤ m'.start
  | _, m => m ∈ greedyDisjoint c.range

theorem Selects.congr {c' : CorpusList} {keep keep' : Match → Prop} (h : Selects c' c keep)
    (heq : ∀ m ∈ c.range, (keep m ↔ keep' m)) : Selects c' c keep' :=
  ⟨h.sublist, fun m => by rw [h.mem_iff, and_congr_right (heq m)], h.targets, h.keywords⟩

theorem selects_minimal (h : Ordered c) : Selects (rMinimalMatches c) c (KeptBy c .minimalMatches) := by
  have hspec := minimalLoop_spec c.range h.range h.lex
  refine (selects_of_markedFrom h (markedFrom_minimalLoop _) hspec.2).congr fun m hm => ?_
  rw [KeptBy, forall_mem_map]
  refine forall₂_congr fun m' hm' => ⟨fun hall hin => h.eq_of_pair hm' hm (hall hin), fun hall hin => ?_⟩
  rw [hall hin]

theorem selects_maximal (h : Ordered c) : Selects (rMaximalMatches c) c (KeptBy c .maximalMatches) := by
  have hspec := maximalLoop_spec 0 c.range h.scanned (by rw [h.keptPairs]; exact h.sorted)
  rw [h.keptPairs] at hspec
  refine (selects_of_markedFrom h (markedFrom_maximalLoop _) hspec.2).congr fun m hm => ?_
  rw [KeptBy, CorpusList.pairs, forall_mem_map]
  refine forall₂_congr fun m' hm' => ⟨fun hall hin => h.eq_of_pair hm' hm (hall hin), fun hall hin => ?_⟩
  rw [hall hin]

theorem selects_shortestLines (h : Ordered c) : Selects (shortestLines c) c (ShortestLine c) := by
  have hspec := sameStartLoop_spec c.range h.range h.lex
  refine (selects_of_markedFrom h (markedFrom_markLoop _ _ _) hspec.2).congr fun m hm => ?_
  rw [forall_mem_map, ShortestLine, and_iff_right hm]
  rfl

theorem selects_leftMaximal (h : Ordered c) : Selects (rLeftMaximalMatches c) c (KeptBy c .leftMaximalMatches) := by
  have h1 := selects_shortestLines h
  have hord1 := shortestLines_ordered h
  have hspec := sameEndLoop_spec 0 (shortestLines c).range hord1.scanned
    (by rw [hord1.keptPairs]; exact shortestLines_start_lt h)
  rw [hord1.keptPairs] at hspec
  have h2 := selects_of_markedFrom hord1 (markedFrom_markLoop _ _ _) hspec.2
  refine ⟨h2.sublist.trans h1.sublist, fun m => ?_, h2.targets.trans h1.targets, h2.keywords.trans h1.keywords⟩
  have hshortest : ∀ m, m ∈ (shortestLines c).range ↔ ShortestLine c m := fun m => by
    rw [h1.mem_iff, and_iff_right_of_imp fun hm => hm.1]
  rw [show rLeftMaximalMatches c = rReduce { shortestLines c with range := sameEndLoop (shortestLines c).range } from rfl]
  rw [sameEndLoop, h2.mem_iff, hshortest, CorpusList.pairs, forall_mem_map, KeptBy]
  refine ⟨fun hkept => ⟨hkept.1.1, hkept.1, fun m' hm' => hkept.2 m' ((hshortest m').mpr hm')⟩, fun hkept => ?_⟩
  exact ⟨hkept.2.1, fun m' hm' => hkept.2.2 m' ((hshortest m').mp hm')⟩

theorem selects_nonOverlapping (h : Ordered c) : Selects (rNonOverlapping c) c (KeptBy c .nonOverlapping) := by
  have hmarked : MarkedFrom c.range (overlapLoop c.range) := markedFrom_markLoop _ _ _
  have hsub : (rNonOverlapping c).range.Sublist c.range := by
    rw [rNonOverlapping, range_rReduce]
    exact filter_kept_sublist hmarked
  refine ⟨hsub, fun m => ?_, targets_rReduce _, keywords_rReduce _⟩
  rw [range_nonOverlapping h] at hsub ⊢
  exact (and_iff_right_of_imp fun hm => hsub.subset hm).symm

/-! ## The filters a second time -/

/-- A selection that keeps every line is the whole result. -/
theorem Selects.range_eq {c' : CorpusList} {keep : Match → Prop} (h : Selects c' c keep) (hc : Ordered c)
    (hall : ∀ m ∈ c.range, keep m) : c'.range = c.range := by
  have hnodup : c.range.Nodup := hc.lex.imp fun hab heq => hab.pair_ne (congrArg Match.pair heq)
  refine h.sublist.eq_of_length_le (hnodup.subperm fun m hm => (h.mem_iff m).mpr ⟨hm, hall m hm⟩).length_le

theorem rReduce_eq_of_range (hl : MarkedFrom c.range l) (h : (rReduce { c with range := l }).range = c.range) :
    rReduce { c with range := l } = c := by
  rw [range_rReduce] at h
  exact rReduce_eq_self hl (congrArg List.length h)

theorem rMinimalMatches_idem (h : Ordered c) : rMinimalMatches (rMinimalMatches c) = rMinimalMatches c := by
  have hsel := selects_minimal h
  have hord := h.of_sublist hsel.sublist
  refine rReduce_eq_of_range (markedFrom_minimalLoop _) ((selects_minimal hord).range_eq hord fun m hm m' hm' => ?_)
  exact ((hsel.mem_iff m).mp hm).2 m' (hsel.sublist.subset hm')

theorem rMaximalMatches_idem (h : Ordered c) : rMaximalMatches (rMaximalMatches c) = rMaximalMatches c := by
  have hsel := selects_maximal h
  have hord := h.of_sublist hsel.sublist
  refine rReduce_eq_of_range (markedFrom_maximalLoop _) ((selects_maximal hord).range_eq hord fun m hm m' hm' => ?_)
  exact ((hsel.mem_iff m).mp hm).2 m' (hsel.sublist.subset hm')

theorem rLeftMaximalMatches_idem (h : Ordered c) : rLeftMaximalMatches (rLeftMaximalMatches c) = rLeftMaximalMatches c := by
  have hsel := selects_leftMaximal h
  set c' := rLeftMaximalMatches c with hc'
  have hord := h.of_sublist hsel.sublist
  have hkept : ∀ m ∈ c'.range, KeptBy c .leftMaximalMatches m := fun m hm => ((hsel.mem_iff m).mp hm).2
  -- the shortest lines of the whole result are so of what is left of it
  have hshort : ∀ m ∈ c'.range, ShortestLine c' m := fun m hm =>
    ⟨hm, fun m' hm' => (hkept m hm).1.2 m' (hsel.sublist.subset hm')⟩
  have hfirst : shortestLines c' = c' :=
    rReduce_eq_of_range (markedFrom_markLoop _ _ _) ((selects_shortestLines hord).range_eq hord hshort)
  have hrange : (rLeftMaximalMatches c').range = c'.range :=
    (selects_leftMaximal hord).range_eq hord fun m hm =>
      ⟨hshort m hm, fun m' hm' => (hkept m hm).2 m' (hkept m' hm'.1).1⟩
  have hsecond : rLeftMaximalMatches c' = rReduce { c' with range := sameEndLoop c'.range } := by
    rw [show rLeftMaximalMatches c' = rReduce { shortestLines c' with range := sameEndLoop (shortestLines c').range } from rfl,
      hfirst]
  rw [hsecond] at hrange ⊢
  exact rReduce_eq_of_range (markedFrom_markLoop _ _ _) hrange

theorem rNonOverlapping_idem (h : Ordered c) : rNonOverlapping (rNonOverlapping c) = rNonOverlapping c := by
  have hord := h.of_sublist (selects_nonOverlapping h).sublist
  have hrange : (rNonOverlapping (rNonOverlapping c)).range = (rNonOverlapping c).range := by
    rw [range_nonOverlapping hord, range_nonOverlapping h, greedyDisjoint_idem]
  exact rReduce_eq_of_range (markedFrom_markLoop _ _ _) hrange

/-- The filters select exactly the lines that their names say, whole and in their order, and remove
nothing when they are applied again. -/
theorem strategyFilters_exact (h : Ordered c) {op : RangeSetOp}
    (hop : op ∈ [.minimalMatches, .maximalMatches, .leftMaximalMatches, .nonOverlapping]) (c2 : CorpusList)
    (restrictor : Option (ℕ → Bool)) :
    Selects (rangeSetop c op c2 restrictor) c (KeptBy c op) ∧
    (op = .nonOverlapping → (rangeSetop c op c2 restrictor).range = greedyDisjoint c.range) ∧
    rangeSetop (rangeSetop c op c2 restrictor) op c2 restrictor = rangeSetop c op c2 restrictor := by
  simp only [mem_cons, not_mem_nil, or_false] at hop
  rcases hop with rfl | rfl | rfl | rfl
  · exact ⟨selects_minimal h, by simp, rMinimalMatches_idem h⟩
  · exact ⟨selects_maximal h, by simp, rMaximalMatches_idem h⟩
  · exact ⟨selects_leftMaximal h, by simp, rLeftMaximalMatches_idem h⟩
  · exact ⟨selects_nonOverlapping h, fun _ => range_nonOverlapping h, rNonOverlapping_idem h⟩

/-- Two ranges with one start, one inside both, and one that overlaps with the longer one. -/
def overlapping : CorpusList :=
  { range := [{ start := 0, stop := 3, target := 1 }, { start := 0, stop := 5 }, { start := 2, stop := 3 },
      { start := 4, stop := 9, target := 7 }], targets := true }

theorem strategyFilters_exact_overlapping :
    (Selects (rangeSetop overlapping .leftMaximalMatches {} none) overlapping (KeptBy overlapping .leftMaximalMatches) ∧
      (RangeSetOp.leftMaximalMatches = .nonOverlapping →
        (rangeSetop overlapping .leftMaximalMatches {} none).range = greedyDisjoint overlapping.range) ∧
      rangeSetop (rangeSetop overlapping .leftMaximalMatches {} none) .leftMaximalMatches {} none =
        rangeSetop overlapping .leftMaximalMatches {} none) ∧
    (rangeSetop overlapping .leftMaximalMatches {} none).range =
      [{ start := 0, stop := 3, target := 1 }, { start := 4, stop := 9, target := 7 }] := by
  refine ⟨strategyFilters_exact ⟨?_, ?_⟩ (by decide) {} none, ?_⟩
  · simp only [overlapping, forall_mem_cons, Match.Range]
    decide
  · simp [overlapping, CorpusList.pairs, Match.pair, PairLt]
  · simp [rangeSetop, rLeftMaximalMatches, range_rReduce, sameStartLoop, sameEndLoop, markLoop, markWhile, overlapping,
      Match.mark, Match.kept]

end CWB
