import CWB.Proofs.StrategyFilters
import CWB.Proofs.TokenQueries
import CWB.Spec.Query

/-! Whole token queries: the simulations from all start positions and initial transitions
find one end each, their lists are united, and the filter of the matching strategy leaves
what the strategy asks for. -/

namespace CWB

open List

variable {C A R : Type}

/-- The order on ranges is strict. -/
theorem PairLt.trans {a b c : ℤ × ℤ} (h : PairLt a b) (h' : PairLt b c) : PairLt a c := by
  unfold PairLt at *
  omega

/-! Match lists. -/

/-- The pairs of a match list. -/
def Matchlist.pairs (ml : Matchlist) : List (ℤ × ℤ) := ml.tab.map Match.pair

/-- A match list as the loop of `simulate_dfa` collects it. -/
structure Collected (ml : Matchlist) : Prop where
  range : ∀ m ∈ ml.tab, m.Range
  sorted : ml.pairs.Pairwise PairLt
  ends : ml.tab ≠ [] → ml.ends = true

/-- Lists of ranges are merged by start and end. -/
theorem setopUnionLoop_pairs (as bs : List Match) (ha : ∀ m ∈ as, m.start ≠ -1) (hb : ∀ m ∈ bs, m.start ≠ -1) :
    setopUnionLoop true as bs = SortedMerge.union (fun m => toLex m.pair) as (bs.map (·, true)) := by
  have hkey : ∀ a b : Match, toLex a.pair < toLex b.pair ↔ a.start < b.start ∨ a.start = b.start ∧ true = true ∧ a.stop < b.stop := by
    intro a b
    rw [Prod.Lex.toLex_lt_toLex]
    simp [Match.pair]
  rw [setopUnionLoop_merge (fun m => toLex m.pair) true as bs fun a _ b _ => ⟨hkey a b, hkey b a⟩, filter_start_ne ha,
    filter_start_ne hb]

variable {m : Match}

theorem range_of_pair {l : List Match} (h : ∀ x ∈ l, x.Range) (hm : m.pair ∈ l.map Match.pair) : m.Range := by
  obtain ⟨x, hx, he⟩ := mem_map.mp hm
  have := h x hx
  simp only [Match.pair, Prod.mk.injEq] at he
  simp only [Match.Range] at this ⊢
  omega

theorem collected_empty : Collected {} :=
  ⟨by simp, by simp [Matchlist.pairs], fun h => absurd rfl h⟩

theorem setopUnion_spec {l1 l2 : Matchlist} (h1 : Collected l1) (h2 : Collected l2) :
    Collected (setopUnion l1 l2) ∧
      ∀ p, p ∈ (setopUnion l1 l2).pairs ↔ p ∈ l1.pairs ∨ p ∈ l2.pairs := by
  unfold setopUnion
  split_ifs with hz2 hz1
  · refine ⟨h1, fun p => ?_⟩
    simp [Matchlist.pairs, hz2]
  · refine ⟨h2, fun p => ?_⟩
    simp [Matchlist.pairs, hz1]
  · have he : (l1.ends && l2.ends) = true := by rw [h1.ends hz1, h2.ends hz2]; rfl
    have hn1 : ∀ m ∈ l1.tab, m.start ≠ -1 := fun m hm => (h1.range m hm).start_ne
    have hn2 : ∀ m ∈ l2.tab, m.start ≠ -1 := fun m hm => (h2.range m hm).start_ne
    have hmem : ∀ p, p ∈ (setopUnionLoop true l1.tab l2.tab).map Match.pair ↔ p ∈ l1.pairs ∨ p ∈ l2.pairs := by
      rw [setopUnionLoop_pairs _ _ hn1 hn2]
      exact SortedMerge.mem_keys_union (fun m => toLex m.pair) l1.tab l2.tab
    have hsorted : ((setopUnionLoop true l1.tab l2.tab).map Match.pair).Pairwise PairLt := by
      have hlex : ∀ {ml : Matchlist}, Collected ml →
          (ml.tab.map fun m => toLex m.pair).Pairwise fun x y => PairLt (ofLex x) (ofLex y) := fun h => h.sorted
      rw [setopUnionLoop_pairs _ _ hn1 hn2]
      exact SortedMerge.pairwise_keys_union (R := fun x y : ℤ ×ₗ ℤ => PairLt (ofLex x) (ofLex y)) (fun _ _ => Prod.Lex.lt_iff.mp)
        (fun _ _ h => (Prod.Lex.lt_iff.mpr h).le) (fun m : Match => toLex m.pair) (hlex h1) (hlex h2)
    rw [he]
    refine ⟨⟨fun m hm => ?_, hsorted, fun _ => rfl⟩, hmem⟩
    rcases (hmem m.pair).mp (mem_map_of_mem hm) with h | h
    · exact range_of_pair h1.range h
    · exact range_of_pair h2.range h

/-- A list of lines that are marked or ranges, reduced. -/
theorem setopReduce_spec (ml : Matchlist) (hr : ∀ m ∈ ml.tab, m.start = -1 ∨ m.Range)
    (hs : (keptPairs ml.tab).Pairwise PairLt) (he : ml.ends = true) :
    Collected (setopReduce ml) ∧ (setopReduce ml).pairs = keptPairs ml.tab := by
  have hfil : ml.tab.filter (fun m => decide (m.start ≠ -1)) = ml.tab.filter Match.kept := by
    refine filter_congr fun m hm => ?_
    rcases hr m hm with h | h
    · simp [Match.kept, h]
    · rw [h.kept]
      simpa using h.start_ne
  have hkr : ∀ m ∈ ml.tab.filter Match.kept, m.Range := by
    intro m hm
    obtain ⟨hm, hk⟩ := mem_filter.mp hm
    rcases hr m hm with h | h
    · simp [Match.kept, h] at hk
    · exact h
  unfold setopReduce
  rw [hfil]
  cases hf : ml.tab.filter Match.kept with
  | nil => exact ⟨collected_empty, by simp [Matchlist.pairs, keptPairs, hf]⟩
  | cons a l =>
    have hpairs : keptPairs ml.tab = (a :: l).map Match.pair := by rw [keptPairs, hf]
    rw [hf] at hkr
    rw [hpairs] at hs
    exact ⟨⟨hkr, hs, fun _ => he⟩, hpairs.symm⟩

variable {ms : List Match}

namespace EvalEnv

variable {env : EvalEnv C A R}

/-! One match list. -/

/-- The ranges of the query corpus are disjoint, sorted and inside the corpus. -/
structure SortedRanges (env : EvalEnv C A R) : Prop where
  range : ∀ r ∈ env.queryCorpus.range, r.Range ∧ r.stop < env.corpus.size
  disjoint : env.queryCorpus.range.Pairwise fun a b => a.stop < b.start

theorem SortedRanges.unique (h : SortedRanges env) {i j : ℕ} {a b : Match} {s : ℤ}
    (hi : env.queryCorpus.range[i]? = some a) (hj : env.queryCorpus.range[j]? = some b)
    (ha : a.start ≤ s ∧ s ≤ a.stop) (hb : b.start ≤ s ∧ s ≤ b.stop) : i = j ∧ a = b := by
  obtain ⟨hil, rfl⟩ := List.getElem?_eq_some_iff.mp hi
  obtain ⟨hjl, rfl⟩ := List.getElem?_eq_some_iff.mp hj
  have hp := pairwise_iff_getElem.mp h.disjoint
  rcases Nat.lt_trichotomy i j with hlt | rfl | hgt
  · have := hp i j hil hjl hlt
    omega
  · exact ⟨rfl, rfl⟩
  · have := hp j i hjl hil hgt
    omega

theorem matches_iff (h : SortedRanges env) {rp : ℕ} {r : Match} {s : ℤ}
    (hr : env.queryCorpus.range[rp]? = some r) (hs : r.start ≤ s ∧ s ≤ r.stop) (first : Option ℕ)
    (e : ℤ) : env.Matches first (s, e) ↔
      env.MatchEnd ⟨rp, min (env.calculateRightboundary s) r.stop, first, s⟩ e := by
  constructor
  · rintro ⟨rp', r', hr', h1, h2, hm⟩
    obtain ⟨rfl, rfl⟩ := h.unique hr hr' hs ⟨h1, h2⟩
    exact hm
  · intro hm
    exact ⟨rp, r, hr, hs.1, hs.2, hm⟩

/-- The end that the simulation reports for a start: the least one, or the greatest. -/
def Best (env : EvalEnv C A R) (first : Option ℕ) (p : ℤ × ℤ) : Prop :=
  env.Matches first p ∧
    ∀ e, env.Matches first (p.1, e) → if env.longest then e ≤ p.2 else p.2 ≤ e

theorem matchEnd_ge (hfinal : env.dfa.final 0 = false) {q : Search} {e : ℤ}
    (h : env.MatchEnd q e) : q.start ≤ e := by
  obtain ⟨ps, ⟨⟨f, hw, hf⟩, -⟩, -, he, -⟩ := h
  cases ps with
  | nil =>
    obtain rfl := Option.some.inj hw
    rw [hfinal] at hf
    cases hf
  | cons p ps =>
    rw [he, length_cons]
    push_cast
    omega

theorem matches_range (hr : SortedRanges env) (hfinal : env.dfa.final 0 = false)
    {first : Option ℕ} {p : ℤ × ℤ} (h : env.Matches first p) : 0 ≤ p.1 ∧ p.1 ≤ p.2 := by
  obtain ⟨rp, r, hrp, h1, -, hm⟩ := h
  obtain ⟨hlt, rfl⟩ := List.getElem?_eq_some_iff.mp hrp
  exact ⟨(hr.range _ (getElem_mem hlt)).1.1.trans h1, matchEnd_ge hfinal hm⟩

/-- What the loop of `simulate` makes of the elements `ms`. -/
structure Found (env : EvalEnv C A R) (p : ℕ) (ms out : List Match) : Prop where
  range : ∀ m ∈ out, m.start = -1 ∨ m.Range
  starts : ((keptPairs out).map Prod.fst).Sublist (ms.map Match.start)
  mem : ∀ x, x ∈ keptPairs out ↔ (∃ m ∈ ms, m.start = x.1) ∧ env.Best (some p) x

theorem Found.nil (p : ℕ) : Found env p [] [] :=
  ⟨by simp, by simp [keptPairs], by simp [keptPairs]⟩

/-- An element without a match is marked. -/
theorem Found.cons_none {p : ℕ} {m' : Match} {out : List Match} (h : Found env p ms out)
    (hm : m'.start = -1) (hno : ∀ e, ¬ env.Best (some p) (m.start, e)) :
    Found env p (m :: ms) (m' :: out) := by
  refine ⟨fun x hx => ?_, ?_, fun x => ?_⟩
  · rcases mem_cons.mp hx with rfl | hx
    · exact .inl hm
    · exact h.range x hx
  · rw [keptPairs_cons_of_start _ hm]
    exact h.starts.cons _
  · rw [keptPairs_cons_of_start _ hm, h.mem]
    constructor
    · rintro ⟨⟨y, hy, hyx⟩, hb⟩
      exact ⟨⟨y, by simp [hy], hyx⟩, hb⟩
    · rintro ⟨⟨y, hy, hyx⟩, hb⟩
      rcases mem_cons.mp hy with rfl | hy
      · exact absurd (show env.Best (some p) (y.start, x.2) by rw [hyx]; exact hb) (hno x.2)
      · exact ⟨⟨y, hy, hyx⟩, hb⟩

theorem Found.cons_some {p : ℕ} {m' : Match} {out : List Match} (h : Found env p ms out)
    (hs : m'.start = m.start) (hr : m'.Range) (hb : env.Best (some p) m'.pair)
    (huniq : ∀ e, env.Best (some p) (m.start, e) → e = m'.stop) :
    Found env p (m :: ms) (m' :: out) := by
  refine ⟨fun x hx => ?_, ?_, fun x => ?_⟩
  · rcases mem_cons.mp hx with rfl | hx
    · exact .inr hr
    · exact h.range x hx
  · rw [keptPairs_cons _ _ hr.kept, map_cons, map_cons,
      show m'.pair.1 = m.start from hs]
    exact h.starts.cons_cons _
  · rw [keptPairs_cons _ _ hr.kept, mem_cons, h.mem]
    constructor
    · rintro (rfl | ⟨⟨y, hy, hyx⟩, hbx⟩)
      · exact ⟨⟨m, by simp, hs.symm⟩, hb⟩
      · exact ⟨⟨y, by simp [hy], hyx⟩, hbx⟩
    · rintro ⟨⟨y, hy, hyx⟩, hbx⟩
      rcases mem_cons.mp hy with rfl | hy
      · refine .inl (Prod.ext (hyx.symm.trans hs.symm) ?_)
        exact huniq x.2 (by rw [hyx]; exact hbx)
      · exact .inr ⟨⟨y, hy, hyx⟩, hbx⟩

theorem best_unique {first : Option ℕ} {s e e' : ℤ} (h : env.Best first (s, e))
    (h' : env.Best first (s, e')) : e = e' := by
  have h1 := h.2 e' h'.1
  have h2 := h'.2 e h.1
  cases hl : env.longest <;> simp only [hl, if_true, Bool.false_eq_true, if_false] at h1 h2 <;> omega

/-- The elements of a match list for the initial transition `p`, with the range pointer
at `rp`: ascending positions where `p` holds, behind all ranges passed so far. -/
structure Pending (env : EvalEnv C A R) (p rp : ℕ) (ms : List Match) : Prop where
  ascending : ms.Pairwise fun a b => a.start < b.start
  holds : ∀ m ∈ ms, 0 ≤ m.start ∧ env.holds p m.start = true
  passed : ∀ m ∈ ms, ∀ j < rp, ∀ r, env.queryCorpus.range[j]? = some r → r.stop < m.start

theorem Pending.tail {p rp : ℕ} (h : Pending env p rp (m :: ms)) :
    Pending env p rp ms :=
  ⟨(pairwise_cons.mp h.ascending).2, fun x hx => h.holds x (by simp [hx]),
    fun x hx => h.passed x (by simp [hx])⟩

/-- No range contains the position: those passed end before it, the others start behind. -/
theorem Pending.no_range {p rp : ℕ} (hr : SortedRanges env) (h : Pending env p rp (m :: ms))
    (hnext : ∀ r, env.queryCorpus.range[rp]? = some r → m.start < r.start) (first : Option ℕ) (e : ℤ) :
    ¬ env.Best first (m.start, e) := by
  rintro ⟨⟨j, r, hj, h1, h2, -⟩, -⟩
  rcases Nat.lt_trichotomy j rp with hlt | rfl | hgt
  · exact absurd (h.passed m (by simp) j hlt r hj) (not_lt.mpr h2)
  · exact absurd (hnext r hj) (not_lt.mpr h1)
  · obtain ⟨hjl, rfl⟩ := List.getElem?_eq_some_iff.mp hj
    have hrp : rp < env.queryCorpus.range.length := by omega
    have := hnext _ (getElem?_eq_getElem hrp)
    have := pairwise_iff_getElem.mp hr.disjoint rp j hrp hjl hgt
    have := (hr.range _ (getElem_mem hrp)).1.2
    simp only at h1
    omega

/-- One element in a loop without cut, the range pointer being inside the corpus. -/
theorem simulate_cons (p : ℕ) {rp : ℕ} (m : Match) {r : Match} (rest : List Match)
    (hget : env.queryCorpus.range[rp]? = some r) (fuel : ℕ) :
    env.simulate (some p) fuel (m :: rest) rp (-1) true =
      if m.start < r.start then
        (env.simulate (some p) fuel rest rp (-1) true).map fun out => (m.mark :: out.1, out.2)
      else if m.start > r.stop then env.simulate (some p) fuel (m :: rest) (rp + 1) (-1) true
      else if min (env.calculateRightboundary m.start) r.stop = -1 then
        (env.simulate (some p) fuel rest rp (-1) true).map fun out =>
          ({ m.mark with target := -1, keyword := -1 } :: out.1, out.2)
      else match env.simulateFrom rp (min (env.calculateRightboundary m.start) r.stop) (some p)
          m.start fuel with
        | none => none
        | some sim => (env.simulate (some p) fuel rest rp (-1) sim.evaluationIsRunning).map
            fun out => (env.finishElement m sim :: out.1, out.2) := by
  obtain ⟨hlt, rfl⟩ := List.getElem?_eq_some_iff.mp hget
  rw [simulate, if_neg (by simp), dif_pos hlt]
  simp only [get_eq_getElem, gt_iff_lt, show ¬ (0 : ℤ) < -1 by decide, and_false, if_false] <;> rfl

/-- The loop of `simulate` finds the best end for each start that has one. -/
theorem simulate_spec (h : env.TokenQuery) (hfinal : env.dfa.final 0 = false)
    (hr : SortedRanges env) {p : ℕ} (hp : p < env.dfa.maxInput) (ms : List Match) (rp : ℕ)
    (hpend : Pending env p rp ms) :
    ∃ out fuel0, (∀ fuel ≥ fuel0, env.simulate (some p) fuel ms rp (-1) true = some (out, true)) ∧
      Found env p ms out := by
  induction hn : ms.length + (env.queryCorpus.range.length - rp) generalizing ms rp with
  | zero =>
    obtain rfl : ms = [] := length_eq_zero_iff.mp (by omega)
    exact ⟨[], 0, fun fuel _ => by rw [simulate], Found.nil p⟩
  | succ n ih =>
  cases ms with
  | nil => exact ⟨[], 0, fun fuel _ => by rw [simulate], Found.nil p⟩
  | cons m rest =>
    simp only [length_cons] at hn
    by_cases hlt : rp < env.queryCorpus.range.length
    · have hget : env.queryCorpus.range[rp]? = some (env.queryCorpus.range.get ⟨rp, hlt⟩) :=
        getElem?_eq_getElem hlt
      generalize env.queryCorpus.range.get ⟨rp, hlt⟩ = r at hget
      have heq := simulate_cons p m rest hget
      by_cases h1 : m.start < r.start
      · -- before the current range
        obtain ⟨out, fuel0, hout, hf⟩ := ih rest rp hpend.tail (by omega)
        refine ⟨m.mark :: out, fuel0, fun fuel hle => ?_, hf.cons_none rfl ?_⟩
        · rw [heq, if_pos h1, hout fuel hle]
          rfl
        · refine hpend.no_range hr (fun r' hr' => ?_) _
          rw [hget] at hr'
          rwa [← Option.some.inj hr']
      · by_cases h2 : m.start > r.stop
        · -- behind it: look at the next range
          obtain ⟨out, fuel0, hout, hf⟩ := ih (m :: rest) (rp + 1) ⟨hpend.ascending, hpend.holds, by
            intro x hx j hj r' hr'
            rcases Nat.lt_succ_iff_lt_or_eq.mp hj with hj | rfl
            · exact hpend.passed x hx j hj r' hr'
            · rw [hget] at hr'
              obtain rfl := Option.some.inj hr'
              rcases mem_cons.mp hx with rfl | hx
              · exact h2
              · exact lt_trans h2 ((pairwise_cons.mp hpend.ascending).1 x hx)⟩
            (by simp only [length_cons]; omega)
          exact ⟨out, fuel0, fun fuel hle => by rw [heq, if_neg h1, if_pos h2, hout fuel hle], hf⟩
        · have hin : r.start ≤ m.start ∧ m.start ≤ r.stop := ⟨not_lt.mp h1, not_lt.mp h2⟩
          have hm0 := hpend.holds m (by simp)
          have hiff := fun e => matches_iff hr hget hin (some p) e
          by_cases hb : min (env.calculateRightboundary m.start) r.stop = -1
          · obtain ⟨out, fuel0, hout, hf⟩ := ih rest rp hpend.tail (by omega)
            refine ⟨_ :: out, fuel0, fun fuel hle => ?_,
              hf.cons_none (show ({ m.mark with target := -1, keyword := -1 } : Match).start = -1 from rfl) ?_⟩
            · rw [heq, if_neg h1, if_neg h2, if_pos hb, hout fuel hle]
              rfl
            · rintro e ⟨hm, -⟩
              rw [hiff, hb] at hm
              have hge := matchEnd_ge hfinal hm
              obtain ⟨-, -, -, -, hle⟩ := hm
              simp only at hge hle
              omega
          · obtain ⟨sim, fuel1, hsim, hev, hrep, hend, -⟩ := simulateFrom_exact env
              ⟨rp, min (env.calculateRightboundary m.start) r.stop, some p, m.start⟩ h hfinal hm0.1
              (by intro f hf; obtain rfl := Option.some.inj hf; exact ⟨hp, hm0.2⟩)
            obtain ⟨out, fuel0, hout, hf⟩ := ih rest rp hpend.tail (by omega)
            refine ⟨env.finishElement m sim :: out, max fuel0 fuel1, fun fuel hle => ?_, ?_⟩
            · rw [heq, if_neg h1, if_neg h2, if_neg hb, hsim fuel (le_trans (le_max_right _ _) hle)]
              dsimp only
              rw [hev, hout fuel (le_trans (le_max_left _ _) hle)]
              rfl
            · by_cases hrp : reports m.start sim = true
              · obtain ⟨hmatch, hbest⟩ := hend hrp
                have hb' : env.Best (some p) (m.start, sim.winner) :=
                  ⟨(hiff _).mpr hmatch, fun e he => hbest e ((hiff e).mp he)⟩
                have hfe : (env.finishElement m sim).start = m.start ∧
                    (env.finishElement m sim).stop = sim.winner := by
                  simp [finishElement, hrp]
                refine hf.cons_some hfe.1 ?_ (by simp only [Match.pair, hfe]; exact hb')
                  fun e he => by rw [hfe.2]; exact best_unique he hb'
                rw [Match.Range, hfe.1, hfe.2]
                exact matches_range hr hfinal hb'.1
              · refine hf.cons_none (by simp [finishElement, hrp]) fun e he => hrp ?_
                exact hrep.mpr ⟨e, (hiff e).mp he.1⟩
    · obtain ⟨out, fuel0, hout, hf⟩ := ih rest rp hpend.tail (by omega)
      refine ⟨m.mark :: out, fuel0, fun fuel hle => ?_, hf.cons_none rfl ?_⟩
      · rw [simulate, if_neg (by simp), dif_neg hlt, hout fuel hle]
        rfl
      · refine hpend.no_range hr (fun r' hr' => ?_) _
        exact absurd (List.getElem?_eq_some_iff.mp hr').1 hlt

/-! All initial transitions. -/

def InCorpus (env : EvalEnv C A R) (i : ℤ) : Prop :=
  ∃ r ∈ env.queryCorpus.range, r.start ≤ i ∧ i ≤ r.stop

/-- The initial match list of a pattern holds exactly the positions of the query corpus
where its constraint is true, in ascending order. -/
def ExactInitial (env : EvalEnv C A R) : Prop :=
  ∀ p < env.dfa.maxInput, ∀ l c t la, env.patternlist p = .pattern l c t la →
    ∃ starts, env.corpus.calculateInitialMatchlist c env.queryCorpus = some starts ∧
      starts.Pairwise (· < ·) ∧
      ∀ i, i ∈ starts ↔ InCorpus env i ∧ (env.corpus.evalBool c RefTab.reset i).1 = true

/-- A path that begins with `p` leaves state 0 over `p`, and `p` holds at its start. -/
theorem matches_first {p : ℕ} {x : ℤ × ℤ} (h : env.Matches (some p) x) :
    InCorpus env x.1 ∧ env.holds p x.1 = true ∧ env.dfa.transTable 0 p ≠ env.dfa.eState ∧
      p < env.dfa.maxInput := by
  obtain ⟨rp, r, hr, h1, h2, ps, ⟨⟨f, hw, -⟩, hread⟩, hfst, -⟩ := h
  obtain ⟨hlt, rfl⟩ := List.getElem?_eq_some_iff.mp hr
  refine ⟨⟨_, getElem_mem hlt, h1, h2⟩, ?_⟩
  have hhead := hfst p rfl
  cases ps with
  | nil => cases hhead
  | cons a ps =>
    obtain rfl : a = p := Option.some.inj hhead
    rw [walk] at hw
    split_ifs at hw with hif
    exact ⟨by simpa using hread 0 a rfl, hif.2, hif.1⟩

theorem matchfirstpattern_spec (h : env.TokenQuery) (hr : SortedRanges env)
    (hx : ExactInitial env) {p : ℕ} (hp : p < env.dfa.maxInput) :
    ∃ starts, env.matchfirstpattern (env.patternlist p) = some starts ∧ starts.Pairwise (· < ·) ∧
      (∀ i ∈ starts, 0 ≤ i ∧ env.holds p i = true) ∧
      ∀ i, InCorpus env i → env.holds p i = true → i ∈ starts := by
  have hcorpus : ∀ i, InCorpus env i → 0 ≤ i ∧ i < env.corpus.size := by
    rintro i ⟨r, hm, h1, h2⟩
    obtain ⟨⟨h3, -⟩, h4⟩ := hr.range r hm
    exact ⟨h3.trans h1, h2.trans_lt h4⟩
  rcases h.elements p hp with ⟨t, he⟩ | ⟨c, t, he⟩
  · refine ⟨_, by rw [he]; rfl, ?_, ?_, ?_⟩
    · rw [pairwise_map]
      exact pairwise_lt_range.imp fun hab => Int.ofNat_lt.mpr hab
    · intro i hi
      obtain ⟨n, -, rfl⟩ := mem_map.mp hi
      exact ⟨Int.natCast_nonneg n, by simp [holds, he]⟩
    · intro i hi _
      obtain ⟨h0, hlt⟩ := hcorpus i hi
      exact mem_map.mpr ⟨i.toNat, mem_range.mpr (by omega), by simpa using h0⟩
  · obtain ⟨starts, hs, hasc, hmem⟩ := hx p hp none c t false he
    have hh : ∀ i, env.holds p i = (env.corpus.evalBool c RefTab.reset i).1 := fun i => by
      simp [holds, he]
    refine ⟨starts, by rw [he]; exact hs, hasc, fun i hi => ?_, fun i hi hhold => ?_⟩
    · obtain ⟨h1, h2⟩ := (hmem i).mp hi
      exact ⟨(hcorpus i h1).1, by rw [hh]; exact h2⟩
    · exact (hmem i).mpr ⟨hi, by rw [← hh]; exact hhold⟩

/-- One initial transition: its reduced match list holds the best end of each start. -/
theorem initial_spec (h : env.TokenQuery) (hfinal : env.dfa.final 0 = false)
    (hr : SortedRanges env) {p : ℕ} (hp : p < env.dfa.maxInput) {starts : List ℤ}
    (hasc : starts.Pairwise (· < ·)) (hh : ∀ i ∈ starts, 0 ≤ i ∧ env.holds p i = true)
    (hall : ∀ i, InCorpus env i → env.holds p i = true → i ∈ starts) (targets keywords : Bool) :
    ∃ out fuel0, (∀ fuel ≥ fuel0, env.simulate (some p) fuel
        (starts.map fun s => ({ start := s, stop := s } : Match)) 0 (-1) true = some (out, true)) ∧
      Collected (setopReduce { tab := out, ends := true, targets, keywords }) ∧
      ∀ x, x ∈ (setopReduce { tab := out, ends := true, targets, keywords }).pairs ↔
        env.Best (some p) x := by
  obtain ⟨out, fuel0, hout, hf⟩ := simulate_spec h hfinal hr hp
    (starts.map fun s => ({ start := s, stop := s } : Match)) 0
    ⟨pairwise_map.mpr hasc, by
      intro m hm
      obtain ⟨i, hi, rfl⟩ := mem_map.mp hm
      exact hh i hi, fun _ _ _ hj => absurd hj (Nat.not_lt_zero _)⟩
  have hsorted : (keptPairs out).Pairwise PairLt := by
    have hst : (starts.map fun s => ({ start := s, stop := s } : Match)).map Match.start = starts := by
      rw [map_map]
      exact map_id starts
    have hsub : ((keptPairs out).map Prod.fst).Sublist starts := hst ▸ hf.starts
    exact (pairwise_map.mp (hasc.sublist hsub)).imp fun hlt => .inl hlt
  obtain ⟨hc, hpairs⟩ := setopReduce_spec { tab := out, ends := true, targets, keywords }
    hf.range hsorted rfl
  refine ⟨out, fuel0, hout, hc, fun x => ?_⟩
  rw [hpairs, hf.mem]
  refine and_iff_right_of_imp fun hb => ?_
  obtain ⟨hin, hhold, -⟩ := matches_first hb.1
  exact ⟨_, mem_map_of_mem (hall x.1 hin hhold), rfl⟩

theorem initialLoop_spec (h : env.TokenQuery) (hfinal : env.dfa.final 0 = false)
    (hr : SortedRanges env) (hx : ExactInitial env) {cut : ℤ} (hcut : cut ≤ 0) (ps : List ℕ)
    (hps : ∀ p ∈ ps, p < env.dfa.maxInput) (total : Matchlist) (hc : Collected total) :
    ∃ total' fuel0, (∀ fuel ≥ fuel0, env.initialLoop cut fuel false ps total = some total') ∧
      Collected total' ∧
      ∀ x, x ∈ total'.pairs ↔ x ∈ total.pairs ∨ ∃ p ∈ ps, env.Best (some p) x := by
  induction ps generalizing total with
  | nil => exact ⟨total, 0, fun _ _ => rfl, hc, by simp⟩
  | cons p ps ih =>
    have hps' : ∀ p ∈ ps, p < env.dfa.maxInput := fun x hx => hps x (by simp [hx])
    -- the transition adds nothing
    have hskip : (∀ x, ¬ env.Best (some p) x) →
        (∀ fuel, env.initialLoop cut fuel false (p :: ps) total
          = env.initialLoop cut fuel false ps total) →
        ∃ total' fuel0, (∀ fuel ≥ fuel0, env.initialLoop cut fuel false (p :: ps) total = some total') ∧
          Collected total' ∧
          ∀ x, x ∈ total'.pairs ↔ x ∈ total.pairs ∨ ∃ p' ∈ p :: ps, env.Best (some p') x := by
      intro hno heq
      obtain ⟨total', fuel0, ht, hct, hm⟩ := ih hps' total hc
      refine ⟨total', fuel0, fun fuel hle => by rw [heq, ht fuel hle], hct, fun x => ?_⟩
      rw [hm]
      simp [hno x]
    by_cases hE : env.dfa.transTable 0 p = env.dfa.eState
    · exact hskip (fun x hb => (matches_first hb.1).2.2.1 hE) fun fuel => by
        rw [initialLoop, if_pos hE]
    · obtain ⟨starts, hst, hasc, hh, hall⟩ := matchfirstpattern_spec h hr hx (hps p (by simp))
      cases starts with
      | nil =>
        refine hskip (fun x hb => ?_) fun fuel => by rw [initialLoop, if_neg hE, hst]
        obtain ⟨hin, hhold, -⟩ := matches_first hb.1
        cases hall x.1 hin hhold
      | cons s starts =>
        obtain ⟨out, fuel1, hout, hred, hmem⟩ := initial_spec h hfinal hr (hps p (by simp)) hasc hh hall
          env.hasTargetIndicator env.hasKeywordIndicator
        obtain ⟨hun, hum⟩ := setopUnion_spec hc hred
        obtain ⟨total', fuel0, ht, hct, hm⟩ := ih hps' _ hun
        refine ⟨total', max fuel0 fuel1, fun fuel hle => ?_, hct, fun x => ?_⟩
        · rw [initialLoop, if_neg hE, hst]
          dsimp only
          rw [if_pos hcut, hout fuel (le_trans (le_max_right _ _) hle)]
          exact ht fuel (le_trans (le_max_left _ _) hle)
        · rw [hm, hum, hmem]
          simp [or_assoc]

/-- With a single initial transition its list is the result; the union would be the same. -/
theorem initialLoop_deterministic (cut : ℤ) (fuel : ℕ) (ps : List ℕ) (total : Matchlist)
    (hle : (ps.filter fun p => decide (env.dfa.transTable 0 p ≠ env.dfa.eState)).length ≤ 1)
    (htot : total = {} ∨ ps.filter (fun p => decide (env.dfa.transTable 0 p ≠ env.dfa.eState)) = []) :
    env.initialLoop cut fuel true ps total = env.initialLoop cut fuel false ps total := by
  induction ps generalizing total with
  | nil => rfl
  | cons p ps ih =>
    by_cases hE : env.dfa.transTable 0 p = env.dfa.eState
    · have hf : (p :: ps).filter (fun p => decide (env.dfa.transTable 0 p ≠ env.dfa.eState))
          = ps.filter fun p => decide (env.dfa.transTable 0 p ≠ env.dfa.eState) := by simp [hE]
      rw [hf] at hle htot
      rw [initialLoop, initialLoop, if_pos hE, if_pos hE, ih total hle htot]
    · have hf : (p :: ps).filter (fun p => decide (env.dfa.transTable 0 p ≠ env.dfa.eState))
          = p :: ps.filter fun p => decide (env.dfa.transTable 0 p ≠ env.dfa.eState) := by simp [hE]
      rw [hf] at hle htot
      have hnil : ps.filter (fun p => decide (env.dfa.transTable 0 p ≠ env.dfa.eState)) = [] :=
        length_eq_zero_iff.mp (by simpa using hle)
      obtain rfl : total = {} := htot.resolve_right (by simp)
      have hun : ∀ ml, setopUnion {} (setopReduce ml) = setopReduce ml := by
        intro ml
        unfold setopUnion setopReduce
        cases ml.tab.filter fun m => decide (m.start ≠ -1) <;> rfl
      rw [initialLoop, initialLoop, if_neg hE, if_neg hE]
      simp only [hun, if_true, Bool.false_eq_true, if_false, ih _ (by rw [hnil]; simp) (.inr hnil)]

theorem setopReduce_collected {ml : Matchlist} (h : Collected ml) :
    Collected (setopReduce ml) ∧ (setopReduce ml).pairs = ml.pairs := by
  by_cases hnil : ml.tab = []
  · have : setopReduce ml = {} := by unfold setopReduce; rw [hnil]; rfl
    rw [this]
    exact ⟨collected_empty, by simp [Matchlist.pairs, hnil]⟩
  · have hk : keptPairs ml.tab = ml.pairs := keptPairs_of_range h.range
    obtain ⟨h1, h2⟩ := setopReduce_spec ml (fun m hm => .inr (h.range m hm))
      (by rw [hk]; exact h.sorted) (h.ends hnil)
    exact ⟨h1, h2.trans hk⟩

/-- `simulate_dfa` collects the best ends for all starts and initial transitions. -/
theorem simulateDfa_spec (h : env.TokenQuery) (hfinal : env.dfa.final 0 = false)
    (hr : SortedRanges env) (hx : ExactInitial env) {cut : ℤ} (hcut : cut ≤ 0) :
    ∃ res fuel0, (∀ fuel ≥ fuel0, env.simulateDfa cut false fuel = some res) ∧ Ordered res ∧
      ∀ x, x ∈ res.pairs ↔ ∃ p, env.Best (some p) x := by
  have hf : ¬ env.dfa.final 0 = true := by simp [hfinal]
  by_cases hsize : env.queryCorpus.size = 0
  · have hnil : env.queryCorpus.range = [] := length_eq_zero_iff.mp hsize
    refine ⟨env.queryCorpus, 0, fun fuel _ => by rw [simulateDfa, if_neg hf, if_pos hsize],
      ⟨by simp [hnil], by simp [CorpusList.pairs, hnil]⟩, fun x => ?_⟩
    refine iff_of_false (by simp [CorpusList.pairs, hnil]) ?_
    rintro ⟨p, hb⟩
    obtain ⟨⟨r, hm, -⟩, -⟩ := matches_first hb.1
    rw [hnil] at hm
    cases hm
  · obtain ⟨total, fuel0, ht, hc, hmem⟩ := initialLoop_spec h hfinal hr hx hcut
      (List.range env.dfa.maxInput) (fun p hp => mem_range.mp hp) {} collected_empty
    obtain ⟨hc', hp'⟩ := setopReduce_collected hc
    refine ⟨setCorpusMatchlists env.queryCorpus (setopReduce total) false, fuel0, fun fuel hle => ?_,
      ⟨hc'.range, hc'.sorted⟩, fun x => ?_⟩
    · have hloop : ∀ d : Bool, (d = true → ((List.range env.dfa.maxInput).filter fun p =>
          decide (env.dfa.transTable 0 p ≠ env.dfa.eState)).length = 1) →
          env.initialLoop cut fuel d (List.range env.dfa.maxInput) {} = some total := by
        intro d hd
        cases d with
        | false => exact ht fuel hle
        | true => rw [initialLoop_deterministic _ _ _ _ (hd rfl).le (.inl rfl), ht fuel hle]
      rw [simulateDfa, if_neg hf, if_neg hsize, hloop _ (fun hd => of_decide_eq_true hd)]
      rfl
    · have : (setCorpusMatchlists env.queryCorpus (setopReduce total) false).pairs = total.pairs := hp'
      rw [this, hmem]
      constructor
      · rintro (h0 | ⟨p, -, hb⟩)
        · cases h0
        · exact ⟨p, hb⟩
      · rintro ⟨p, hb⟩
        exact .inr ⟨p, mem_range.mpr (matches_first hb.1).2.2.2, hb⟩

/-! The strategies. -/

theorem matches_none_iff (hfinal : env.dfa.final 0 = false) (x : ℤ × ℤ) :
    env.Matches none x ↔ ∃ p, env.Matches (some p) x := by
  constructor
  · rintro ⟨rp, r, hr, h1, h2, ps, hacc, -, he, hb⟩
    cases ps with
    | nil =>
      obtain ⟨⟨f, hw, hf⟩, -⟩ := hacc
      obtain rfl := Option.some.inj hw
      rw [hfinal] at hf
      cases hf
    | cons p ps => exact ⟨p, rp, r, hr, h1, h2, p :: ps, hacc, fun f hf => hf, he, hb⟩
  · rintro ⟨p, rp, r, hr, h1, h2, ps, hacc, -, he, hb⟩
    exact ⟨rp, r, hr, h1, h2, ps, hacc, fun f hf => (nomatch hf), he, hb⟩

/-- Each match has a best one with its start and initial transition. -/
theorem exists_best (hr : SortedRanges env) (hfinal : env.dfa.final 0 = false) {first : Option ℕ}
    {x : ℤ × ℤ} (h : env.Matches first x) : ∃ e, env.Best first (x.1, e) ∧
      if env.longest then x.2 ≤ e else e ≤ x.2 := by
  cases hl : env.longest with
  | false =>
    obtain ⟨e, he, hleast⟩ := Int.exists_least_of_bdd (P := fun e => env.Matches first (x.1, e))
      ⟨x.1, fun e he => (matches_range hr hfinal he).2⟩ ⟨x.2, h⟩
    refine ⟨e, ⟨he, fun e' he' => ?_⟩, ?_⟩
    · rw [hl]; exact hleast e' he'
    · exact hleast x.2 h
  | true =>
    obtain ⟨rp, r, hrp, h1, h2, -⟩ := id h
    obtain ⟨e, he, hgreat⟩ := Int.exists_greatest_of_bdd (P := fun e => env.Matches first (x.1, e))
      ⟨r.stop, fun e he => by
        obtain ⟨-, -, -, -, hb⟩ := (matches_iff hr hrp ⟨h1, h2⟩ first e).mp he
        exact hb.trans (min_le_right _ _)⟩ ⟨x.2, h⟩
    refine ⟨e, ⟨he, fun e' he' => ?_⟩, ?_⟩
    · rw [hl]; exact hgreat e' he'
    · exact hgreat x.2 h

section Selection

variable {res : CorpusList} (hr : SortedRanges env) (hfinal : env.dfa.final 0 = false)
  (hmem : ∀ x, x ∈ res.pairs ↔ ∃ p, env.Best (some p) x)

include hr hfinal hmem

omit hr in
theorem collected_matches {x : ℤ × ℤ} (h : x ∈ res.pairs) : env.Matches none x := by
  obtain ⟨p, hb⟩ := (hmem x).mp h
  exact (matches_none_iff hfinal x).mpr ⟨p, hb.1⟩

theorem collected_best {x : ℤ × ℤ} (h : env.Matches none x) :
    ∃ e, (x.1, e) ∈ res.pairs ∧ if env.longest then x.2 ≤ e else e ≤ x.2 := by
  obtain ⟨p, hp⟩ := (matches_none_iff hfinal x).mp h
  obtain ⟨e, hb, hle⟩ := exists_best hr hfinal hp
  exact ⟨e, (hmem _).mpr ⟨p, hb⟩, hle⟩

/-- The minimal ones among the collected matches are minimal among all matches. -/
theorem minimal_collected (hl : env.longest = false) (x : ℤ × ℤ) :
    (x ∈ res.pairs ∧ ∀ y ∈ res.pairs, Inside y x → y = x) ↔
      env.Matches none x ∧ ∀ y, env.Matches none y → Inside y x → y = x := by
  have hbest := fun {x} => collected_best (x := x) hr hfinal hmem
  simp only [hl, Bool.false_eq_true, if_false] at hbest
  constructor
  · rintro ⟨hx, hmin⟩
    refine ⟨collected_matches hfinal hmem hx, fun y hy hin => ?_⟩
    obtain ⟨e, he, hle⟩ := hbest hy
    have := hmin (y.1, e) he ⟨hin.1, hle.trans hin.2⟩
    rw [← this] at hin ⊢
    exact Prod.ext rfl (le_antisymm hin.2 hle)
  · rintro ⟨hx, hmin⟩
    obtain ⟨e, he, hle⟩ := hbest hx
    have := hmin (x.1, e) (collected_matches hfinal hmem he) ⟨le_rfl, hle⟩
    rw [this] at he
    exact ⟨he, fun y hy hin => hmin y (collected_matches hfinal hmem hy) hin⟩

theorem maximal_collected (hl : env.longest = true) (x : ℤ × ℤ) :
    (x ∈ res.pairs ∧ ∀ y ∈ res.pairs, Inside x y → y = x) ↔
      env.Matches none x ∧ ∀ y, env.Matches none y → Inside x y → y = x := by
  have hbest := fun {x} => collected_best (x := x) hr hfinal hmem
  simp only [hl, if_true] at hbest
  constructor
  · rintro ⟨hx, hmax⟩
    refine ⟨collected_matches hfinal hmem hx, fun y hy hin => ?_⟩
    obtain ⟨e, he, hle⟩ := hbest hy
    have := hmax (y.1, e) he ⟨hin.1, hin.2.trans hle⟩
    rw [← this] at hin ⊢
    exact Prod.ext rfl (le_antisymm hle hin.2)
  · rintro ⟨hx, hmax⟩
    obtain ⟨e, he, hle⟩ := hbest hx
    have := hmax (x.1, e) (collected_matches hfinal hmem he) ⟨le_rfl, hle⟩
    rw [this] at he
    exact ⟨he, fun y hy hin => hmax y (collected_matches hfinal hmem hy) hin⟩

theorem shortest_collected (hl : env.longest = false) (x : ℤ × ℤ) :
    Shortest res x ↔ env.LeastEnd none x := by
  have hbest := fun {x} => collected_best (x := x) hr hfinal hmem
  simp only [hl, Bool.false_eq_true, if_false] at hbest
  constructor
  · rintro ⟨hx, hmin⟩
    refine ⟨collected_matches hfinal hmem hx, fun e he => ?_⟩
    obtain ⟨e', he', hle⟩ := hbest he
    exact (hmin _ he' rfl).trans hle
  · rintro ⟨hx, hmin⟩
    obtain ⟨e, he, hle⟩ := hbest hx
    have := hmin e (collected_matches hfinal hmem he)
    obtain rfl : e = x.2 := le_antisymm hle this
    refine ⟨he, fun y hy hy1 => hmin y.2 ?_⟩
    rw [← hy1]
    exact collected_matches hfinal hmem hy

/-- The filter of the strategy leaves what the strategy asks for. -/
theorem applyStrategy_spec (hord : Ordered res) :
    (env.applyStrategy res).pairs.Sublist res.pairs ∧
      ∀ x, x ∈ (env.applyStrategy res).pairs ↔ env.Selected x := by
  unfold applyStrategy Selected
  cases hs : env.matchingStrategy with
  | shortestMatch =>
    have hl : env.longest = false := by simp [longest, hs]
    obtain ⟨hsub, hm⟩ := minimalMatches_spec hord
    exact ⟨hsub, fun x => (hm x).trans (minimal_collected hr hfinal hmem hl x)⟩
  | longestMatch =>
    have hl : env.longest = true := by simp [longest, hs]
    obtain ⟨hsub, hm⟩ := maximalMatches_spec hord
    exact ⟨hsub, fun x => (hm x).trans (maximal_collected hr hfinal hmem hl x)⟩
  | standardMatch =>
    have hl : env.longest = false := by simp [longest, hs]
    have hsh := shortest_collected hr hfinal hmem hl
    obtain ⟨hsub, hm⟩ := leftMaximalMatches_spec hord
    refine ⟨hsub, fun x => (hm x).trans ?_⟩
    rw [hsh]
    refine and_congr_right fun _ => ⟨fun h s hlt hs => ?_, fun h y hy he => ?_⟩
    · exact absurd (h (s, x.2) ((hsh _).mpr hs) rfl) (not_le.mpr hlt)
    · by_contra hlt
      refine h y.1 (not_le.mp hlt) ?_
      rw [← he]
      exact (hsh y).mp hy
  | traditional =>
    have hl : env.longest = false := by simp [longest, hs]
    refine ⟨List.Sublist.refl _, fun x => (hmem x).trans (exists_congr fun p => ?_)⟩
    simp only [Best, LeastEnd, hl, Bool.false_eq_true, if_false]

end Selection

end EvalEnv

/-- The initial match lists of `sampleCorpus` are exact. -/
theorem sampleCorpus_exact {env : EvalEnv ℕ Unit Unit} (tokens : List ℕ) (regions : List (ℤ × ℤ))
    (hc : env.corpus = sampleCorpus tokens regions)
    (hr : ∀ r ∈ env.queryCorpus.range, 0 ≤ r.start ∧ r.stop < tokens.length) : env.ExactInitial := by
  intro p _ l c t la _
  rw [hc]
  refine ⟨_, rfl, ?_, fun i => ?_⟩
  · refine List.Pairwise.filter _ ?_
    rw [pairwise_map]
    exact pairwise_lt_range.imp fun hab => Int.ofNat_lt.mpr hab
  · simp only [sampleCorpus, mem_filter, mem_map, mem_range, Bool.and_eq_true,
      decide_eq_true_eq, any_eq_true, EvalEnv.InCorpus]
    constructor
    · rintro ⟨⟨n, -, rfl⟩, htok, r, hm, h1, h2⟩
      exact ⟨⟨r, hm, h1, h2⟩, Int.natCast_nonneg n, htok⟩
    · rintro ⟨⟨r, hm, h1, h2⟩, h0, htok⟩
      have := (hr r hm).2
      exact ⟨⟨i.toNat, by omega, by simpa using h0⟩, htok, r, hm, h1, h2⟩

theorem pairQuery_sortedRanges : pairQuery.SortedRanges :=
  ⟨by unfold Match.Range; decide, by decide⟩

/-- The query `"b"*` on a corpus of the one word "b". -/
def starQuery : EvalEnv ℕ Unit Unit where
  corpus := sampleCorpus [5] []
  queryCorpus := { type := .system, range := [⟨0, 0, -1, -1⟩] }
  patternlist _ := .pattern none 5 .isNotTarget false
  dfa := {
    maxStates := 1, maxInput := 1, transTable := fun _ _ => 0, eState := 1, final := fun _ => true
    hasStart := by decide, closed := by decide }
  searchContext := .word 100
  matchingStrategy := .longestMatch

end CWB
