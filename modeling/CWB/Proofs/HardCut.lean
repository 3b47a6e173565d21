import CWB.Proofs.Cut

/-! How many matches `cqp_run_query` may return with the option `hard_cut`. The limit holds for each
initial pattern; their matches are united, and nothing reduces the union. -/

namespace CWB

open Option List

variable {C A R : Type}

theorem length_setopUnion (l1 l2 : Matchlist) :
    (setopUnion l1 l2).tab.length ≤ l1.tab.length + l2.tab.length := by
  unfold setopUnion
  split_ifs with h2 h1
  · exact Nat.le_add_right _ _
  · exact Nat.le_add_left _ _
  · exact length_setopUnionLoop _ _ _

variable {cut : ℤ}

namespace EvalEnv

variable {env : EvalEnv C A R} {fuel : ℕ}

/-! The bound for one initial pattern and for all of them. -/

theorem filter_mark (ms : List Match) : ((ms.map Match.mark).filter fun m => m.start ≠ -1) = [] := by
  simp [filter_eq_nil_iff, Match.mark]

/-- With a limit the loop of `simulate` leaves no more matches than that. -/
theorem length_simulate (first : Option ℕ) (fuel : ℕ) (ms : List Match) (rp : ℕ) (running : Bool)
    (hcut : 0 ≤ cut) {out : List Match × Bool} (h : env.simulate first fuel ms rp cut running = some out) :
    ((out.1.filter fun m => m.start ≠ -1).length : ℤ) ≤ cut := by
  induction hn : ms.length + (env.queryCorpus.range.length - rp) generalizing ms rp cut running out with
  | zero =>
    obtain rfl : ms = [] := length_eq_zero_iff.mp (by omega)
    rw [simulate] at h
    obtain rfl := some.inj h
    exact hcut
  | succ n ih =>
  cases ms with
  | nil =>
    rw [simulate] at h
    obtain rfl := some.inj h
    exact hcut
  | cons m rest =>
    simp only [length_cons] at hn
    -- an element that is marked counts for nothing
    have hmark : ∀ (m' : Match) (running : Bool), m'.start = -1 →
        (env.simulate first fuel rest rp cut running).map (fun out => (m' :: out.1, out.2)) = some out →
        ((out.1.filter fun m => m.start ≠ -1).length : ℤ) ≤ cut := by
      intro m' running hm' h
      obtain ⟨out', hout', rfl⟩ := map_eq_some_iff.mp h
      have hle := ih rest rp running hcut hout' (by omega)
      simpa [hm'] using hle
    by_cases hstop : cut = 0 ∨ !running
    · rw [simulate, if_pos hstop] at h
      obtain rfl := some.inj h
      rw [filter_mark]
      exact hcut
    have hne : cut ≠ 0 := fun h0 => hstop (.inl h0)
    obtain rfl : running = true := by
      cases running with
      | true => rfl
      | false => exact absurd (.inr rfl) hstop
    by_cases hlt : rp < env.queryCorpus.range.length
    · rw [simulate_element first m rest (getElem?_eq_getElem hlt) hne] at h
      by_cases hbefore : m.start < env.queryCorpus.range[rp].start
      · rw [if_pos hbefore] at h
        exact hmark _ _ rfl h
      rw [if_neg hbefore] at h
      by_cases hbehind : m.start > env.queryCorpus.range[rp].stop
      · rw [if_pos hbehind] at h
        exact ih (m :: rest) (rp + 1) true hcut h (by simp only [length_cons]; omega)
      rw [if_neg hbehind] at h
      by_cases hb : env.boundary m.start env.queryCorpus.range[rp] = -1
      · rw [if_pos hb] at h
        exact hmark _ _ rfl h
      rw [if_neg hb] at h
      cases hsim : env.simulateFrom rp (env.boundary m.start env.queryCorpus.range[rp]) first m.start fuel with
      | none =>
        rw [hsim] at h
        cases h
      | some sim =>
        rw [hsim] at h
        by_cases hrep : reports m.start sim = true
        · -- a match uses up one of the limit
          have hpos : cut > 0 := lt_of_le_of_ne hcut hne.symm
          dsimp only at h
          rw [if_pos ⟨hrep, hpos⟩] at h
          obtain ⟨out', hout', rfl⟩ := map_eq_some_iff.mp h
          have hle := ih rest rp _ (by omega) hout' (by omega)
          have hone := length_filter_le (fun m : Match => decide (m.start ≠ -1)) [env.finishElement m sim]
          rw [length_singleton] at hone
          rw [← singleton_append, filter_append, length_append]
          omega
        · dsimp only at h
          rw [if_neg fun h => hrep h.1] at h
          exact hmark _ _ (by simp [finishElement, hrep, Match.mark]) h
    · rw [simulate, if_neg hstop, dif_neg hlt] at h
      exact hmark _ _ rfl h

/-- All initial patterns together: each has its own limit. -/
theorem length_initialLoop (hcut : 0 < cut) (deterministic : Bool) (ps : List ℕ) (total : Matchlist)
    {total' : Matchlist} (h : env.initialLoop cut fuel deterministic ps total = some total') :
    (total'.tab.length : ℤ) ≤ total.tab.length +
      (ps.filter fun p => decide (env.dfa.transTable 0 p ≠ env.dfa.eState)).length * cut := by
  induction ps generalizing total with
  | nil =>
    obtain rfl := some.inj h
    simp
  | cons p ps ih =>
    by_cases hE : env.dfa.transTable 0 p = env.dfa.eState
    · rw [initialLoop, if_pos hE] at h
      rw [filter_cons_of_neg (by simpa using hE)]
      exact ih total h
    have hfilter : ((p :: ps).filter fun p => decide (env.dfa.transTable 0 p ≠ env.dfa.eState)).length =
        (ps.filter fun p => decide (env.dfa.transTable 0 p ≠ env.dfa.eState)).length + 1 := by
      rw [filter_cons_of_pos (by simpa using hE), length_cons]
    have hrest : (0 : ℤ) ≤ (ps.filter fun p => decide (env.dfa.transTable 0 p ≠ env.dfa.eState)).length * cut :=
      mul_nonneg (Int.natCast_nonneg _) hcut.le
    rw [hfilter, Nat.cast_add_one, add_mul, one_mul]
    rw [initialLoop, if_neg hE] at h
    cases hst : env.matchfirstpattern (env.patternlist p) with
    | none =>
      rw [hst] at h
      obtain rfl := some.inj h
      omega
    | some starts =>
    cases starts with
    | nil =>
      rw [hst] at h
      have := ih total h
      omega
    | cons s starts =>
      simp only [hst, if_neg (not_le.mpr hcut)] at h
      cases hsim : env.simulate (some p) fuel ((s :: starts).map fun s => ({ start := s, stop := s } : Match)) 0 cut true with
      | none =>
        rw [hsim] at h
        cases h
      | some out =>
        obtain ⟨tab, running⟩ := out
        rw [hsim] at h
        have htab := length_simulate (some p) fuel _ 0 true hcut.le hsim
        dsimp only at h htab
        generalize hml : setopReduce
          { tab, ends := true, targets := env.hasTargetIndicator, keywords := env.hasKeywordIndicator } = ml at h
        have hlen : (ml.tab.length : ℤ) ≤ cut := by
          rw [← hml, tab_setopReduce]
          exact htab
        have hunion := length_setopUnion total ml
        generalize htotal : (if deterministic = true then ml else setopUnion total ml) = next at h
        have hnext : (next.tab.length : ℤ) ≤ total.tab.length + cut := by
          rw [← htotal]
          split_ifs <;> omega
        cases running with
        | true =>
          have := ih next h
          omega
        | false =>
          obtain rfl := some.inj h
          omega

theorem initialLoop_limit (cut : ℤ) (deterministic : Bool) (ps : List ℕ) (total : Matchlist) :
    env.initialLoop (if cut ≤ 0 then -1 else cut) fuel deterministic ps total =
      env.initialLoop cut fuel deterministic ps total := by
  have hlimit : (if (if cut ≤ 0 then -1 else cut) ≤ 0 then -1 else if cut ≤ 0 then -1 else cut) =
      if cut ≤ 0 then -1 else cut := by
    split_ifs <;> omega
  induction ps generalizing total with
  | nil => rfl
  | cons p ps ih => simp only [initialLoop, hlimit, ih]

/-- Without alignment constraints this is the query as it was. -/
theorem cqpRunAlignedQuery_nil (hardCut cut : ℤ) (keepOldRanges : Bool) :
    env.cqpRunAlignedQuery [] hardCut cut keepOldRanges fuel = env.cqpRunQuery hardCut cut keepOldRanges fuel := by
  have hdfa : ∀ cut, env.simulateAlignedDfa [] cut keepOldRanges fuel = env.simulateDfa cut keepOldRanges fuel := by
    intro cut
    unfold simulateAlignedDfa simulateDfa
    simp only [length_nil, gt_iff_lt, lt_irrefl, or_false, initialLoop_limit]
    by_cases hfinal : env.dfa.final 0 = true
    · rw [if_pos hfinal, if_pos hfinal]
    by_cases hsize : env.queryCorpus.size = 0
    · rw [if_neg hfinal, if_neg hfinal, if_pos hsize, if_pos hsize]
    rw [if_neg hfinal, if_neg hfinal, if_neg hsize, if_neg hsize, transCount]
    cases env.initialLoop cut fuel (((List.range env.dfa.maxInput).filter fun p =>
      decide (env.dfa.transTable 0 p ≠ env.dfa.eState)).length = 1) (List.range env.dfa.maxInput) {} <;> rfl
  exact hdfa _

/-- Where no range is kept for the sake of a match, the limits of the initial patterns add up. -/
theorem length_simulateDfa (hcut : 0 < cut) {res : CorpusList} (h : env.simulateDfa cut false fuel = some res) :
    (res.size : ℤ) ≤ env.transCount * cut := by
  have h0 : (0 : ℤ) ≤ env.transCount * cut := mul_nonneg (Int.natCast_nonneg _) hcut.le
  unfold simulateDfa at h
  by_cases hfinal : env.dfa.final 0 = true
  · rw [if_pos hfinal] at h
    obtain rfl := some.inj h
    exact h0
  by_cases hsize : env.queryCorpus.size = 0
  · rw [if_neg hfinal, if_pos hsize] at h
    obtain rfl := some.inj h
    omega
  rw [if_neg hfinal, if_neg hsize] at h
  obtain ⟨total, htotal, rfl⟩ := map_eq_some_iff.mp h
  have hlen := length_initialLoop hcut _ _ _ htotal
  have hreduce : (setopReduce total).tab.length ≤ total.tab.length := by
    rw [tab_setopReduce]
    exact length_filter_le _ _
  have hres : (setCorpusMatchlists env.queryCorpus (setopReduce total) false).size = (setopReduce total).tab.length := rfl
  have hzero : (({} : Matchlist).tab.length : ℤ) = 0 := rfl
  rw [hzero, zero_add] at hlen
  rw [hres]
  exact le_trans (Int.ofNat_le.mpr hreduce) hlen

/-! Queries without an initial pattern find nothing. -/

theorem initialLoop_of_none (cut : ℤ) (deterministic : Bool) (ps : List ℕ) (total : Matchlist)
    (h : ∀ p ∈ ps, env.dfa.transTable 0 p = env.dfa.eState) :
    env.initialLoop cut fuel deterministic ps total = some total := by
  induction ps with
  | nil => rfl
  | cons p ps ih =>
    rw [initialLoop, if_pos (h p mem_cons_self)]
    exact ih fun q hq => h q (mem_cons_of_mem p hq)

theorem checkAlignmentConstraints_nil (alignments : List (AlignmentConstraint C A R)) (running : Bool) :
    checkAlignmentConstraints fuel alignments [] running = some [] := by
  induction alignments generalizing running with
  | nil => rfl
  | cons c cs ih => exact ih running

theorem keepRanges_nil (rs : List Match) : keepRanges rs [] = rs.map Match.mark := by
  induction rs with
  | nil => rw [keepRanges, map_nil]
  | cons r rs ih => rw [keepRanges, map_cons, ih]

theorem size_rReduce (c : CorpusList) : (rReduce c).size = (keptPairs c.range).length := by
  rw [← pairs_rReduce, CorpusList.pairs, length_map]
  rfl

theorem size_of_transCount_eq_zero (hcount : env.transCount = 0) (alignments : List (AlignmentConstraint C A R))
    {keepOldRanges : Bool} {res : CorpusList} (h : env.simulateAlignedDfa alignments cut keepOldRanges fuel = some res) :
    res.size = 0 := by
  have hnone : ∀ p ∈ List.range env.dfa.maxInput, env.dfa.transTable 0 p = env.dfa.eState := by
    have hnil := filter_eq_nil_iff.mp (length_eq_zero_iff.mp hcount)
    exact fun p hp => by simpa using hnil p hp
  unfold simulateAlignedDfa at h
  by_cases hfinal : env.dfa.final 0 = true
  · rw [if_pos hfinal] at h
    obtain rfl := some.inj h
    rfl
  by_cases hsize : env.queryCorpus.size = 0
  · rw [if_neg hfinal, if_pos hsize] at h
    obtain rfl := some.inj h
    exact hsize
  rw [if_neg hfinal, if_neg hsize, initialLoop_of_none _ _ _ _ hnone, bind_some, checkAlignmentConstraints_nil,
    map_some] at h
  obtain rfl := some.inj h
  cases keepOldRanges with
  | false => rfl
  | true =>
    have hkeep : setCorpusMatchlists env.queryCorpus (setopReduce { tab := [] }) true =
        rReduce { env.queryCorpus with range := keepRanges env.queryCorpus.range [], sortidx := none } := rfl
    rw [hkeep, size_rReduce, keepRanges_nil, keptPairs, length_map, length_eq_zero_iff, filter_eq_nil_iff]
    intro m hm
    obtain ⟨r, -, rfl⟩ := mem_map.mp hm
    simp [Match.kept, Match.mark]

end EvalEnv

/-! As many matches as the limits allow: the query `"0" | "1" | ... ` with `k` words, on a corpus in
which each of them occurs `n` times. -/

def alternatives (k n : ℕ) (range : List Match) : EvalEnv ℕ Unit Unit where
  corpus := sampleCorpus ((List.range (k * n)).map (· % k)) []
  queryCorpus := { range }
  patternlist p := .pattern none p .isNotTarget false
  dfa := {
    maxStates := 2, maxInput := k, eState := 2, final := fun s => s == 1
    transTable := fun s _ => if s = 0 then 1 else 2
    hasStart := Nat.two_pos
    closed := by
      intro s _ p _ h
      by_cases hs : s = 0
      · simp [hs]
      · simp [hs] at h }
  searchContext := .word 100
  matchingStrategy := .traditional

section Alternatives

open EvalEnv

variable {k n : ℕ} {range : List Match}

theorem alternatives_transCount : (alternatives k n range).transCount = k := by
  simp [transCount, alternatives]

/-- A step that the first transition alone changes. -/
theorem foldl_eq_of_one {α β : Type} {f : β → α → β} {l : List α} {b b' : β} {a : α} (ha : a ∈ l)
    (hne : ∀ x, x ≠ a → f b x = b) (hstep : f b a = b') (hrest : ∀ x, f b' x = b') : l.foldl f b = b' := by
  have hfix : ∀ l : List α, l.foldl f b' = b' := by
    intro l
    induction l with
    | nil => rfl
    | cons x l ih => rw [foldl_cons, hrest, ih]
  induction l with
  | nil => cases ha
  | cons x l ih =>
    rw [foldl_cons]
    by_cases hx : x = a
    · rw [hx, hstep, hfix]
    · rw [hne x hx]
      exact ih ((mem_cons.mp ha).resolve_left (Ne.symm hx))

theorem alternatives_searching (sim : Sim) : (alternatives k n range).searching sim = decide (sim.winner < 0) := by
  rw [searching, longest, show (alternatives k n range).matchingStrategy = .traditional from rfl]
  exact Bool.or_false _

/-- The simulation for the pattern `p` ends at the token where it starts. -/
theorem alternatives_simulateFrom (n : ℕ) (range : List Match) {p : ℕ} (hp : p < k) {s boundary : ℤ} (hs : 0 ≤ s)
    (hb : s ≤ boundary) (rp fuel : ℕ) :
    ∃ sim, (alternatives k n range).simulateFrom rp boundary (some p) s (fuel + 2) = some sim ∧
      sim.winner = s ∧ sim.evaluationIsRunning = true := by
  -- the start state is active alone
  let start : Sim := { (alternatives k n range).initSim s with targetVector := fun _ => -1, runningStates := 0 }
  have hother : ∀ x, x ≠ p → (alternatives k n range).transitionStep rp boundary (some p) 0 start x = start := by
    intro x hx
    unfold transitionStep
    by_cases hgo : (alternatives k n range).searching start ∧
        (alternatives k n range).dfa.transTable 0 x ≠ (alternatives k n range).dfa.eState ∧
        (alternatives k n range).inRange boundary ((alternatives k n range).patternlist x) (start.reftabVector 0)
          (start.stateVector 0)
    · rw [if_pos hgo]
      exact if_neg (Ne.symm hx)
    · exact if_neg hgo
  -- it takes the transition `p`, and the match is complete
  obtain ⟨won, hwon, hwinner, hvector, htarget, hrunning⟩ : ∃ won : Sim,
      (alternatives k n range).transitionStep rp boundary (some p) 0 start p = won ∧ won.winner = s ∧
        won.stateVector 0 = s ∧ won.targetVector = (fun _ => -1) ∧ won.evaluationIsRunning = true := by
    refine ⟨_, rfl, ?_⟩
    have hinit : start.stateVector 0 = s := by simp [start, initSim]
    have hgo : (alternatives k n range).searching start ∧
        (alternatives k n range).dfa.transTable 0 p ≠ (alternatives k n range).dfa.eState ∧
        (alternatives k n range).inRange boundary ((alternatives k n range).patternlist p) (start.reftabVector 0)
          (start.stateVector 0) := by
      refine ⟨by rw [alternatives_searching]; rfl, by simp [alternatives], ?_⟩
      rw [hinit]
      simp [inRange, alternatives, AVS.effectiveCpos, AVS.isClosing, strictRegionsOk, hb]
    have htake : (alternatives k n range).transitionStep rp boundary (some p) 0 start p =
        (alternatives k n range).takeTransition (.pattern none p .isNotTarget false) (start.stateVector 0) 1
          (start.reftabVector 0) start := by
      unfold transitionStep
      rw [if_pos hgo]
      exact if_pos rfl
    rw [htake, hinit]
    exact ⟨rfl, hinit, rfl, rfl⟩
  have hnot : ¬(alternatives k n range).searching won = true := by
    rw [alternatives_searching, hwinner]
    simpa using hs
  have hafter : ∀ x, (alternatives k n range).transitionStep rp boundary (some p) 0 won x = won := by
    intro x
    unfold transitionStep
    rw [if_neg fun h => hnot h.1]
  have hfirst : (alternatives k n range).stateStep rp boundary (some p)
      { (alternatives k n range).initSim s with targetVector := fun _ => -1 } 0 = won := by
    have hactive : (0 : ℤ) ≤ ((alternatives k n range).initSim s).stateVector 0 := by
      simpa [initSim] using hs
    unfold stateStep
    rw [if_pos ⟨by rw [alternatives_searching]; rfl, by simp [initSim], hactive⟩]
    exact foldl_eq_of_one (mem_range.mpr hp) hother hwon hafter
  have hsecond : (alternatives k n range).stateStep rp boundary (some p) won 1 = won := by
    unfold stateStep
    rw [if_neg fun h => hnot h.1]
  have hcycle : (alternatives k n range).cycle rp boundary (some p) ((alternatives k n range).initSim s) =
      { won with firstTransitionTraversed := true } := by
    have hfold : (List.range 2).foldl ((alternatives k n range).stateStep rp boundary (some p))
        { (alternatives k n range).initSim s with targetVector := fun _ => -1 } = won := by
      rw [show List.range 2 = [0, 1] from rfl, foldl_cons, foldl_cons, foldl_nil, hfirst, hsecond]
    have hswap : (alternatives k n range).swapVectors { won with firstTransitionTraversed := true } =
        { won with firstTransitionTraversed := true } := if_neg hnot
    unfold cycle
    simp only [show (alternatives k n range).dfa.maxStates = 2 from rfl, hfold, hswap]
    refine if_neg fun h => ?_
    have h0 : won.stateVector 0 = won.targetVector 0 := h 0 (show 0 < 2 by decide)
    rw [hvector, htarget] at h0
    have : s = -1 := h0
    omega
  refine ⟨{ won with firstTransitionTraversed := true }, ?_, hwinner, hrunning⟩
  have hstart : (alternatives k n range).searching ((alternatives k n range).initSim s) ∧
      ((alternatives k n range).initSim s).runningStates > 0 :=
    ⟨by rw [alternatives_searching]; rfl, by simp [initSim]⟩
  rw [simulateFrom, runCycles, if_pos hstart, hcycle, runCycles, if_neg fun h => hnot h.1]

/-- The start positions of the pattern `p`: its word is every `k`-th. -/
def alternativeStarts (k n : ℕ) (range : List Match) (p : ℕ) : List ℤ :=
  ((List.range (k * n)).map Int.ofNat).filter fun i =>
    decide (i.toNat % k = p) && range.any fun r => r.start ≤ i && i ≤ r.stop

theorem alternatives_initialStarts {p : ℕ} {starts : List ℤ} :
    (alternatives k n range).InitialStarts p starts ↔ p < k ∧ starts = alternativeStarts k n range p := by
  have hst : (alternatives k n range).matchfirstpattern ((alternatives k n range).patternlist p) =
      some (alternativeStarts k n range p) := by
    have hlen : ((List.range (k * n)).map (· % k)).length = k * n := by simp
    simp only [matchfirstpattern, alternatives, sampleCorpus, alternativeStarts, hlen]
    refine congrArg some (filter_congr fun i hi => ?_)
    obtain ⟨j, hj, rfl⟩ := mem_map.mp hi
    have hlt := mem_range.mp hj
    simp [hlt]
  unfold InitialStarts
  rw [hst, some_inj]
  exact ⟨fun h => ⟨h.1, h.2.2.symm⟩, fun h => ⟨h.1, by simp [alternatives], h.2.symm⟩⟩

theorem mem_alternativeStarts {p : ℕ} {s : ℤ} : s ∈ alternativeStarts k n range p ↔
    ∃ i < k * n, s = (i : ℤ) ∧ i % k = p ∧ ∃ r ∈ range, r.start ≤ s ∧ s ≤ r.stop := by
  unfold alternativeStarts
  rw [mem_filter, List.mem_map]
  refine ⟨?_, ?_⟩
  · rintro ⟨⟨i, hi, rfl⟩, h⟩
    exact ⟨i, mem_range.mp hi, rfl, by simpa using h⟩
  · rintro ⟨i, hi, rfl, hmod, hr⟩
    exact ⟨⟨i, mem_range.mpr hi, rfl⟩, by simpa using ⟨hmod, hr⟩⟩

theorem alternatives_boundary (range : List Match) {i : ℕ} (hi : i < k * n) {r : Match} (hr : i ≤ r.stop) :
    (i : ℤ) ≤ (alternatives k n range).boundary i r := by
  have hsize : (alternatives k n range).corpus.size = k * n := by simp [alternatives, sampleCorpus]
  have hright : (alternatives k n range).calculateRightboundary i = i + min 100 (((k * n : ℕ) : ℤ) - 1 - i) := by
    simp [calculateRightboundary, calculateRanges, show (alternatives k n range).searchContext = .word 100 from rfl, hsize]
  rw [boundary, hright]
  omega

theorem alternatives_completes (hrange : ∀ r ∈ range, r.start ≤ r.stop) : (alternatives k n range).Completes 2 where
  ranges := hrange
  initial p hp _ := by
    refine ⟨_, (alternatives_initialStarts.mpr ⟨hp, rfl⟩).2.2, ?_, fun s hs => ?_⟩
    · exact (pairwise_map.mpr (pairwise_lt_range.imp fun h => Int.ofNat_lt.mpr h)).filter _
    · obtain ⟨i, -, rfl, -⟩ := mem_alternativeStarts.mp hs
      exact Int.natCast_nonneg i
  simulations := by
    intro p starts s rp r hp hs hl _
    obtain ⟨hlt, rfl⟩ := alternatives_initialStarts.mp hp
    obtain ⟨i, hi, rfl, -⟩ := mem_alternativeStarts.mp hs
    obtain ⟨sim, hsim, -, hrunning⟩ := alternatives_simulateFrom n range hlt (Int.natCast_nonneg i)
      (alternatives_boundary range hi hl.stop) rp 0
    exact ⟨sim, hsim, hrunning⟩

theorem alternatives_finds_iff {p : ℕ} {i : ℕ} (hi : i < k * n) {rp : ℕ} {r : Match}
    (hl : (alternatives k n range).LooksAt i rp r) (e : ℤ) :
    (alternatives k n range).Finds p (i, e) ↔ i % k = p ∧ e = i := by
  have hk : 0 < k := Nat.pos_of_ne_zero fun h0 => by simp [h0] at hi
  have hle := alternatives_boundary range hi hl.stop
  have hb : (alternatives k n range).boundary i r ≠ -1 := by omega
  have hstarts : ∀ q, (i : ℤ) ∈ alternativeStarts k n range q ↔ i % k = q := by
    intro q
    rw [mem_alternativeStarts]
    refine ⟨?_, fun h => ⟨i, hi, rfl, h, r, mem_of_getElem? hl.get, hl.start, hl.stop⟩⟩
    rintro ⟨j, -, hj, hmod, -⟩
    rwa [Int.ofNat_inj.mp hj]
  by_cases hmod : i % k = p
  · have hp : p < k := hmod ▸ Nat.mod_lt i hk
    obtain ⟨sim, hsim, hwinner, -⟩ := alternatives_simulateFrom n range hp (Int.natCast_nonneg i) hle rp 0
    rw [finds_iff rfl (alternatives_initialStarts.mpr ⟨hp, rfl⟩) ((hstarts p).mpr hmod) hl hb hsim, hwinner]
    have hreports : reports i sim = true := by simp [reports, hwinner]
    exact ⟨fun h => ⟨hmod, h.2.symm⟩, fun h => ⟨hreports, h.2.symm⟩⟩
  · refine iff_of_false ?_ fun h => hmod h.1
    rintro ⟨-, starts, -, -, -, -, hp, hs, -⟩
    obtain ⟨-, rfl⟩ := alternatives_initialStarts.mp hp
    exact hmod ((hstarts p).mp hs)

/-- The `i`-th token is found if the limit leaves its word one more match than there are rounds before it. -/
theorem alternatives_taken {i : ℕ} (hi : i < k * n) {rp : ℕ} {r : Match} (hl : (alternatives k n range).LooksAt i rp r)
    (hcut : 0 < cut → ((i / k : ℕ) : ℤ) < cut) : Taken (alternatives k n range) cut (i % k) (i, i) := by
  have hk : 0 < k := Nat.pos_of_ne_zero fun h0 => by simp [h0] at hi
  refine ⟨(alternatives_finds_iff hi hl i).mpr ⟨rfl, rfl⟩, fun hpos => lt_of_le_of_lt (Int.ofNat_le.mpr ?_) (hcut hpos)⟩
  -- the matches before it start at earlier occurrences of the same word
  have hbefore : {y | (alternatives k n range).Finds (i % k) y ∧ PairLt y (i, i)} ⊆
      (((List.range (i / k)).map fun q =>
        (((q * k + i % k : ℕ) : ℤ), ((q * k + i % k : ℕ) : ℤ))).toFinset : Set (ℤ × ℤ)) := by
    rintro ⟨s, e⟩ ⟨hfinds, hlt⟩
    obtain ⟨-, starts, rp', r', -, -, hp, hs, hl', -⟩ := id hfinds
    obtain ⟨-, rfl⟩ := alternatives_initialStarts.mp hp
    obtain ⟨j, hj, rfl : s = j, hmod, -⟩ := mem_alternativeStarts.mp hs
    obtain ⟨-, rfl⟩ := (alternatives_finds_iff hj hl' e).mp hfinds
    have hji : j < i := by
      have : (j : ℤ) < i ∨ ((j : ℤ) = i ∧ (j : ℤ) < i) := hlt
      omega
    have hdiv := Nat.div_add_mod j k
    have hdiv' := Nat.div_add_mod i k
    have hq : j / k < i / k := by
      by_contra hle
      have := Nat.mul_le_mul_left k (not_lt.mp hle)
      omega
    have hval : j / k * k + i % k = j := by rw [mul_comm, ← hmod, hdiv]
    simp only [coe_toFinset, Set.mem_ofPred_eq, List.mem_map, mem_range]
    exact ⟨j / k, hq, by rw [hval]⟩
  calc Ranked.rank PairLt ((alternatives k n range).Finds (i % k)) (i, i)
      ≤ _ := Set.ncard_le_ncard hbefore (Finset.finite_toSet _)
    _ ≤ i / k := by
      rw [Set.ncard_coe_finset]
      refine (toFinset_card_le _).trans ?_
      rw [length_map, length_range]

/-- The match list before the constraints on the alignment. -/
theorem alternatives_total (hrange : ∀ r ∈ range, r.start ≤ r.stop) (cut : ℤ) :
    ∃ total, (alternatives k n range).initialLoop cut 2 ((alternatives k n range).transCount = 1)
        (List.range k) {} = some total ∧ Collected total ∧
      ∀ x, x ∈ total.pairs ↔ ∃ p, Taken (alternatives k n range) cut p x := by
  obtain ⟨total, hrun, hcol, hmem⟩ := initialLoop_lists (alternatives_completes hrange) rfl cut (List.range k)
    (fun p hp => mem_range.mp hp) {} collected_empty
  refine ⟨total, initialLoop_any hrun, hcol, fun x => ?_⟩
  rw [hmem]
  refine ⟨?_, ?_⟩
  · rintro (h0 | ⟨p, -, hp⟩)
    · cases h0
    · exact ⟨p, hp⟩
  · rintro ⟨p, hp⟩
    obtain ⟨-, starts, -, -, -, -, hinit, -⟩ := id hp.1
    exact .inr ⟨p, mem_range.mpr hinit.1, hp⟩

/-! A constraint on the alignment that rejects nothing: the aligned corpus is a single token, and the
word that must not occur in it does not. -/

def withoutWord : AlignmentConstraint ℕ Unit Unit where
  env := { alternatives 1 1 [⟨0, 0, -1, -1⟩] with patternlist := fun _ => .pattern none 1 .isNotTarget false }
  cpos2alg _ := some 0
  alg2cpos _ := some (0, 0)
  negated := true

theorem withoutWord_checkMatch (m : Match) : withoutWord.checkMatch 2 m true = some (m, true) := by
  have hrun : (withoutWord.env.simulate none 2 [⟨0, 0, -1, -1⟩] 0 1 true).map
      (fun out => (out.1.any fun x => decide (x.start ≠ -1), out.2)) = some (false, true) := by
    decide +kernel
  obtain ⟨out, hout, hval⟩ := map_eq_some_iff.mp hrun
  obtain ⟨hany, hrunning⟩ := Prod.mk.inj hval
  unfold AlignmentConstraint.checkMatch
  split_ifs with hstart
  · rfl
  · have hregion : withoutWord.alignedRegion m = some (0, 0) := rfl
    have hlist : (List.range ((0 : ℤ) - 0 + 1).toNat).map (fun i : ℕ =>
        ({ start := 0 + (i : ℤ), stop := 0 + (i : ℤ) } : Match)) = [⟨0, 0, -1, -1⟩] := rfl
    simp only [hregion, hlist]
    rw [show withoutWord.env.simulate none 2 [⟨0, 0, -1, -1⟩] 0 1 true = some out from hout, map_some, hany, hrunning]
    rfl

theorem withoutWord_checkMatches (ms : List Match) : withoutWord.checkMatches 2 ms true = some (ms, true) := by
  induction ms with
  | nil => rfl
  | cons m ms ih => simp [AlignmentConstraint.checkMatches, withoutWord_checkMatch, ih]

theorem withoutWord_constraints (eep : ℕ) (ms : List Match) :
    checkAlignmentConstraints 2 (replicate eep withoutWord) ms true = some ms := by
  induction eep with
  | zero => rfl
  | succ eep ih => rw [replicate_succ, checkAlignmentConstraints, withoutWord_checkMatches, bind_some, ih]

theorem alternatives_simulateAligned (hne : range ≠ []) {total : Matchlist} {eep : ℕ} (keepOldRanges : Bool)
    (htotal : (alternatives k n range).initialLoop (if cut ≤ 0 ∨ eep > 0 then -1 else cut) 2
      ((alternatives k n range).transCount = 1) (List.range k) {} = some total) :
    (alternatives k n range).simulateAlignedDfa (replicate eep withoutWord) cut keepOldRanges 2 =
      some (setCorpusMatchlists (alternatives k n range).queryCorpus (setopReduce total) keepOldRanges) := by
  have hfinal : ¬(alternatives k n range).dfa.final 0 = true := by simp [alternatives]
  have hsize : ¬(alternatives k n range).queryCorpus.size = 0 := fun h => hne (length_eq_zero_iff.mp h)
  rw [simulateAlignedDfa, if_neg hfinal, if_neg hsize, length_replicate,
    show (alternatives k n range).dfa.maxInput = k from rfl, htotal, bind_some, withoutWord_constraints, map_some]

/-- A query without kept ranges may find as many matches as its limits leave. -/
theorem exists_matches (hk : 0 < k) (hn : 0 < n) (cut : ℤ) (eep : ℕ) (hlimit : 0 < cut → eep = 0 → (n : ℤ) ≤ cut) :
    ∃ (env : EvalEnv ℕ Unit Unit) (alignments : List (AlignmentConstraint ℕ Unit Unit)) (res : CorpusList),
      env.transCount = k ∧ alignments.length = eep ∧
        env.simulateAlignedDfa alignments cut false 2 = some res ∧ k * n ≤ res.size := by
  have hkn : 0 < k * n := Nat.mul_pos hk hn
  let range : List Match := [⟨0, (k * n : ℕ) - 1, -1, -1⟩]
  have hrange : ∀ r ∈ range, r.start ≤ r.stop := by
    intro r hr
    obtain rfl := mem_singleton.mp hr
    show (0 : ℤ) ≤ (k * n : ℕ) - 1
    omega
  obtain ⟨total, htotal, hcol, hmem⟩ := alternatives_total (k := k) (n := n) hrange
    (if cut ≤ 0 ∨ eep > 0 then -1 else cut)
  have hres := alternatives_simulateAligned (cons_ne_nil _ _) false htotal
  refine ⟨_, _, _, alternatives_transCount, length_replicate, hres, ?_⟩
  -- every token is found
  have hall : ∀ x ∈ (List.range (k * n)).map fun i : ℕ => ((i : ℤ), (i : ℤ)), x ∈ total.pairs := by
    intro x hx
    obtain ⟨i, hi, rfl⟩ := mem_map.mp hx
    have hi := mem_range.mp hi
    have hlooks : (alternatives k n range).LooksAt i 0 ⟨0, (k * n : ℕ) - 1, -1, -1⟩ :=
      ⟨rfl, fun j hj => absurd hj (Nat.not_lt_zero j), Int.natCast_nonneg i, by dsimp only; omega⟩
    refine (hmem _).mpr ⟨_, alternatives_taken hi hlooks fun hpos => ?_⟩
    have hdiv : i / k < n := Nat.div_lt_of_lt_mul hi
    have : (n : ℤ) ≤ if cut ≤ 0 ∨ eep > 0 then -1 else cut := by
      split_ifs at hpos ⊢ with h
      · omega
      · exact hlimit (by omega) (by omega)
    omega
  have hnodup : ((List.range (k * n)).map fun i : ℕ => ((i : ℤ), (i : ℤ))).Nodup :=
    nodup_range.map fun i j h => Int.ofNat_inj.mp (Prod.mk.inj h).1
  have hlen := (hnodup.subperm hall).length_le
  have hsize : (setCorpusMatchlists (alternatives k n range).queryCorpus (setopReduce total) false).size =
      (setopReduce total).pairs.length := by
    rw [Matchlist.pairs, length_map]
    rfl
  rw [length_map, length_range] at hlen
  rw [hsize, (setopReduce_collected hcol).2]
  exact hlen

/-- Of ranges with one start all are kept for the sake of a single match. -/
theorem keepRanges_of_start {rs : List Match} {m : Match} {ms : List Match}
    (h : ∀ r ∈ rs, r.start = m.start ∧ m.start ≤ r.stop ∧ m.stop ≤ r.stop) : keepRanges rs (m :: ms) = rs := by
  induction rs with
  | nil => rw [keepRanges]
  | cons r rs ih =>
    obtain ⟨hstart, hle, hstop⟩ := h r mem_cons_self
    rw [keepRanges, if_pos (by omega), if_neg (by omega), ih fun r' hr' => h r' (mem_cons_of_mem r hr')]

/-- A query with kept ranges may keep any number of them. -/
theorem exists_keptRanges (hk : 0 < k) (hn : 0 < n) (cut : ℤ) (eep : ℕ) :
    ∃ (env : EvalEnv ℕ Unit Unit) (alignments : List (AlignmentConstraint ℕ Unit Unit)) (res : CorpusList),
      env.transCount = k ∧ alignments.length = eep ∧
        env.simulateAlignedDfa alignments cut true 2 = some res ∧ n ≤ res.size := by
  have hkn : 0 < k * n := Nat.mul_pos hk hn
  let range : List Match := (List.range n).map fun i : ℕ => ⟨0, i, -1, -1⟩
  have hform : ∀ r ∈ range, r.start = 0 ∧ 0 ≤ r.stop := by
    intro r hr
    obtain ⟨i, -, rfl⟩ := mem_map.mp hr
    exact ⟨rfl, Int.natCast_nonneg i⟩
  have hrange : ∀ r ∈ range, r.start ≤ r.stop := fun r hr => (hform r hr).1.le.trans (hform r hr).2
  have hget : range[0]? = some ⟨0, 0, -1, -1⟩ := by
    simp [range, hn]
  have hne : range ≠ [] := fun h => by simp [h] at hget
  obtain ⟨total, htotal, hcol, hmem⟩ := alternatives_total (k := k) (n := n) hrange
    (if cut ≤ 0 ∨ eep > 0 then -1 else cut)
  have hres := alternatives_simulateAligned hne true htotal
  refine ⟨_, _, _, alternatives_transCount, length_replicate, hres, ?_⟩
  obtain ⟨hcol', hpairs⟩ := setopReduce_collected hcol
  -- the first token is a match, and no match comes before it
  have hfirst : ((0 : ℤ), (0 : ℤ)) ∈ (setopReduce total).pairs := by
    rw [hpairs]
    have hlooks : (alternatives k n range).LooksAt (0 : ℕ) 0 ⟨0, 0, -1, -1⟩ :=
      ⟨hget, fun j hj => absurd hj (Nat.not_lt_zero j), le_rfl, le_rfl⟩
    exact (hmem _).mpr ⟨_, alternatives_taken hkn hlooks fun hpos => by rw [Nat.zero_div]; exact hpos⟩
  obtain ⟨m, ms, htab, hm⟩ : ∃ m ms, (setopReduce total).tab = m :: ms ∧ m.pair = (0, 0) := by
    cases htab : (setopReduce total).tab with
    | nil =>
      rw [Matchlist.pairs, htab] at hfirst
      cases hfirst
    | cons m ms =>
      refine ⟨m, ms, rfl, ?_⟩
      have hsorted := hcol'.sorted
      have hm := hcol'.range m (by rw [htab]; exact mem_cons_self)
      rw [Matchlist.pairs, htab, map_cons] at hfirst hsorted
      rcases mem_cons.mp hfirst with h | h
      · exact h.symm
      · have hlt : PairLt m.pair (0, 0) := (pairwise_cons.mp hsorted).1 _ h
        unfold Match.Range at hm
        unfold PairLt Match.pair at hlt
        omega
  obtain ⟨hstart, hstop⟩ := Prod.mk.inj hm
  have hkeep : keepRanges range (m :: ms) = range := by
    refine keepRanges_of_start fun r hr => ?_
    have := hform r hr
    omega
  have hset : setCorpusMatchlists (alternatives k n range).queryCorpus (setopReduce total) true =
      rReduce { (alternatives k n range).queryCorpus with range := keepRanges range (setopReduce total).tab, sortidx := none } :=
    rfl
  have hkept : range.filter Match.kept = range := by
    refine filter_eq_self.mpr fun r hr => ?_
    obtain ⟨h0, hle⟩ := hform r hr
    simp [Match.kept, h0, hle]
  rw [hset, htab, hkeep, size_rReduce, keptPairs, hkept, length_map, length_map, length_range]

end Alternatives

/-- The result of a query with `k` initial patterns and `eep` constraints on alignments has at most
`hardCut` entries, whatever the corpus, the automaton and the elements of the query are. -/
def HardCutBounds (hardCut cut : ℤ) (keepOldRanges : Bool) (k eep : ℕ) : Prop :=
  ∀ (C A R : Type) (env : EvalEnv C A R) (alignments : List (AlignmentConstraint C A R)) (fuel : ℕ) (res : CorpusList),
    env.transCount = k → alignments.length = eep →
      env.cqpRunAlignedQuery alignments hardCut cut keepOldRanges fuel = some res → (res.size : ℤ) ≤ hardCut

/-- The bound needs a cut: `hard_cut` replaces a larger one, and the limits of all initial patterns
together must not exceed it. -/
theorem hardCutBounds_iff {hardCut : ℤ} (hpos : 0 < hardCut) (cut : ℤ) (keepOldRanges : Bool) (k eep : ℕ) :
    HardCutBounds hardCut cut keepOldRanges k eep ↔
      k = 0 ∨ (keepOldRanges = false ∧ eep = 0 ∧ 0 < cut ∧ k * min cut hardCut ≤ hardCut) := by
  have heff : 0 < cut → (if hardCut > 0 ∧ hardCut < cut then hardCut else cut) = min cut hardCut := by
    intro _
    split_ifs <;> omega
  refine ⟨fun h => ?_, ?_⟩
  · by_contra hnot
    have hk : 0 < k := Nat.pos_of_ne_zero fun h0 => hnot (.inl h0)
    cases keepOldRanges with
    | true =>
      obtain ⟨env, alignments, res, hcount, hlen, hrun, hsize⟩ := exists_keptRanges hk
        (n := hardCut.toNat + 1) (Nat.succ_pos _) (if hardCut > 0 ∧ hardCut < cut then hardCut else cut) eep
      have := h _ _ _ env alignments 2 res hcount hlen hrun
      omega
    | false =>
      by_cases hlimit : 0 < cut ∧ eep = 0
      · -- each pattern finds as many matches as it may
        have hmany : hardCut < k * min cut hardCut := not_le.mp fun hle => hnot (.inr ⟨rfl, hlimit.2, hlimit.1, hle⟩)
        have hmin : 0 < min cut hardCut := lt_min hlimit.1 hpos
        obtain ⟨env, alignments, res, hcount, hlen, hrun, hsize⟩ := exists_matches hk (n := (min cut hardCut).toNat)
          (by omega) (if hardCut > 0 ∧ hardCut < cut then hardCut else cut) eep fun _ _ => by
            rw [heff hlimit.1, Int.toNat_of_nonneg hmin.le]
        have hle := h _ _ _ env alignments 2 res hcount hlen hrun
        have hcast : ((k * (min cut hardCut).toNat : ℕ) : ℤ) = k * min cut hardCut := by
          rw [Nat.cast_mul, Int.toNat_of_nonneg hmin.le]
        omega
      · obtain ⟨env, alignments, res, hcount, hlen, hrun, hsize⟩ := exists_matches hk (n := hardCut.toNat + 1)
          (Nat.succ_pos _) (if hardCut > 0 ∧ hardCut < cut then hardCut else cut) eep fun h1 h2 => by
            have : 0 < cut := by split_ifs at h1 <;> omega
            exact absurd ⟨this, h2⟩ hlimit
        have hle := h _ _ _ env alignments 2 res hcount hlen hrun
        have hone : hardCut.toNat + 1 ≤ k * (hardCut.toNat + 1) := Nat.le_mul_of_pos_left _ hk
        omega
  · rintro (rfl | ⟨rfl, rfl, hcut, hle⟩) C A R env alignments fuel res hcount hlen hrun
    · rw [EvalEnv.size_of_transCount_eq_zero hcount alignments hrun]
      exact hpos.le
    · obtain rfl := length_eq_zero_iff.mp hlen
      rw [EvalEnv.cqpRunAlignedQuery_nil, EvalEnv.cqpRunQuery, heff hcut] at hrun
      have hsize := EvalEnv.length_simulateDfa (lt_min hcut hpos) hrun
      rw [hcount] at hsize
      exact hsize.trans hle

theorem hardCutBounds_iff_two_patterns : (0 : ℤ) < 10 ∧ (HardCutBounds 10 4 false 2 0 ↔
    2 = 0 ∨ (false = false ∧ 0 = 0 ∧ (0 : ℤ) < 4 ∧ (2 : ℕ) * min (4 : ℤ) 10 ≤ 10)) :=
  ⟨by decide, hardCutBounds_iff (by decide) 4 false 2 0⟩

/-- Without a cut the option does nothing: both tokens of the corpus are found, where one match is allowed. -/
theorem not_hardCutBounds : ¬HardCutBounds 1 0 false 1 0 := by
  intro h
  have hrun : ((alternatives 1 2 [⟨0, 1, -1, -1⟩]).cqpRunAlignedQuery [] 1 0 false 2).map CorpusList.size = some 2 := by
    decide +kernel
  obtain ⟨res, hres, hsize⟩ := map_eq_some_iff.mp hrun
  have hle := h _ _ _ (alternatives 1 2 [⟨0, 1, -1, -1⟩]) [] 2 res alternatives_transCount rfl hres
  rw [hsize] at hle
  exact absurd hle (by decide)

end CWB
