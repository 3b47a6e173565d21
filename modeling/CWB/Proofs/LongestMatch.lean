import CWB.Proofs.SimulationStep
import CWB.Proofs.TokenQueries

/-! The longest strategy. Each accepting transition overwrites the end that is stored; the last one
has read the most tokens unless its run was delayed by zero-width elements, each of which costs a
round without reading a token. -/

namespace CWB

open Function List

variable {C A R : Type}

namespace EvalEnv

variable {env : EvalEnv C A R} {rp : ℕ} {boundary : ℤ} {first : Option ℕ}

/-! ## The record follows the simulation -/

theorem traceTransition_sim (t : Trace) (state p : ℕ) :
    (env.traceTransition rp boundary first state t p).sim = env.transitionStep rp boundary first state t.sim p := by
  unfold traceTransition
  cases env.taken rp boundary first state t.sim p with
  | none => rfl
  | some labels => rfl

theorem traceState_sim (t : Trace) (state : ℕ) :
    (env.traceState rp boundary first t state).sim = env.stateStep rp boundary first t.sim state := by
  have hfold : ∀ (ps : List ℕ) (t : Trace), (ps.foldl (env.traceTransition rp boundary first state) t).sim =
      ps.foldl (env.transitionStep rp boundary first state) t.sim := fun ps => by
    induction ps with
    | nil => exact fun _ => rfl
    | cons p ps ih => exact fun t => (ih _).trans (by rw [traceTransition_sim, foldl_cons])
  unfold traceState stateStep
  split_ifs
  · rw [hfold]
  · rfl

theorem traceCycle_sim (t : Trace) : (env.traceCycle rp boundary first t).sim = env.cycle rp boundary first t.sim := by
  have hfold : ∀ (states : List ℕ) (t : Trace), (states.foldl (env.traceState rp boundary first) t).sim =
      states.foldl (env.stateStep rp boundary first) t.sim := fun states => by
    induction states with
    | nil => exact fun _ => rfl
    | cons state states ih => exact fun t => (ih _).trans (by rw [traceState_sim, foldl_cons])
  unfold traceCycle cycle
  simp only [hfold]

theorem traceCycles_sim {fuel : ℕ} {t : Trace} {sim : Sim} (h : env.runCycles rp boundary first fuel t.sim = some sim) :
    ∃ t', env.traceCycles rp boundary first fuel t = some t' ∧ t'.sim = sim := by
  induction fuel generalizing t with
  | zero => cases h
  | succ fuel ih =>
    unfold runCycles at h
    unfold traceCycles
    split_ifs at h with hgo
    · rw [if_pos hgo]
      exact ih (by rwa [traceCycle_sim])
    · rw [if_neg hgo]
      exact ⟨t, rfl, Option.some.inj h⟩

end EvalEnv

/-! ## Positions and rounds -/

open EvalEnv

namespace Trace

/-- The variables of the simulation belong to this accepting transition. -/
structure Stores (env : EvalEnv C A R) (t : Trace) (last : Accepting) : Prop where
  stop : t.sim.winner = last.stop
  target : env.hasTargetIndicator = true → t.sim.myTarget = last.target
  keyword : env.hasKeywordIndicator = true → t.sim.myKeyword = last.keyword

/-- The query has no zero-width elements. -/
def TokensOnly (env : EvalEnv C A R) : Prop := ∀ p < env.dfa.maxInput, (env.patternlist p).zeroWidth = false

/-- Each round reads a token or passes a zero-width element, and the last accepting transition is
the one that is stored. -/
structure Counts (env : EvalEnv C A R) (start : ℤ) (t : Trace) : Prop where
  position : ∀ s, 0 ≤ t.sim.stateVector s → t.sim.stateVector s = start + t.rounds - t.passed s
  plain : TokensOnly env → (∀ s, t.passed s = 0) ∧ ∀ s, t.targetPassed s = 0
  accepted : ∀ a ∈ t.accepted, a.stop = start + a.round - a.zeroWidths ∧ a.round ≤ t.rounds ∧ (TokensOnly env → a.zeroWidths = 0)
  latest : ∀ last ∈ t.accepted.getLast?, ∀ a ∈ t.accepted, a.round ≤ last.round
  stored : ∀ last ∈ t.accepted.getLast?, t.Stores env last
  unset : t.accepted = [] → t.sim.winner = -1

/-- The same for the vectors that a round fills. -/
def CountsTarget (start : ℤ) (t : Trace) : Prop :=
  ∀ s, 0 ≤ t.sim.targetVector s → t.sim.targetVector s = start + (t.rounds + 1) - t.targetPassed s

variable {env : EvalEnv C A R} {rp : ℕ} {boundary : ℤ} {first : Option ℕ} {start : ℤ} {t : Trace}

theorem Counts.of_sim (h : t.Counts env start) {sim : Sim} (hstate : sim.stateVector = t.sim.stateVector)
    (hwinner : sim.winner = t.sim.winner) (htarget : sim.myTarget = t.sim.myTarget)
    (hkeyword : sim.myKeyword = t.sim.myKeyword) : { t with sim }.Counts env start := by
  refine ⟨fun s hs => ?_, h.plain, h.accepted, h.latest, fun last hlast => ?_, fun hnil => hwinner.trans (h.unset hnil)⟩
  · rw [hstate] at hs ⊢
    exact h.position s hs
  · obtain ⟨hstop, ht, hk⟩ := h.stored last hlast
    exact ⟨hwinner.trans hstop, fun hi => htarget.trans (ht hi), fun hi => hkeyword.trans (hk hi)⟩

/-- The record of a transition: it is not taken, or it adds a point and counts its element. -/
theorem traceTransition_cases (rp : ℕ) (boundary : ℤ) (first : Option ℕ) (hsearch : env.searching t.sim = true) (state p : ℕ) :
    (∃ tables, env.traceTransition rp boundary first state t p = { t with sim := { t.sim with reftabVector := tables } }) ∨
    ∃ tables cfg wins, (∃ n : ℕ, n = (if (env.patternlist p).zeroWidth then 1 else 0) ∧ cfg.cpos = t.sim.stateVector state + 1 - n ∧
      env.traceTransition rp boundary first state t p =
        { t with
          sim := record env { t.sim with reftabVector := tables } cfg wins
          targetPassed := update t.targetPassed cfg.state (t.passed state + n)
          accepted :=
            if wins then t.accepted ++ [⟨t.rounds, t.passed state + n, cfg.cpos - 1, cfg.labels env.targetLabel,
              cfg.labels env.keywordLabel⟩]
            else t.accepted }) := by
  unfold traceTransition taken
  rw [transitionStep_eq_evaluate, if_pos hsearch, if_pos hsearch]
  rcases env.evaluate rp boundary first state t.sim.firstTransitionTraversed (t.sim.stateVector state)
    (t.sim.reftabVector state) p with ⟨_ | labels, table⟩
  · exact .inl ⟨_, rfl⟩
  · right
    let next := env.arrive (env.patternlist p) (t.sim.stateVector state) (env.dfa.transTable state p) labels
    refine ⟨update t.sim.reftabVector state table, next.1, next.2, if (env.patternlist p).zeroWidth then 1 else 0,
      rfl, ?_, ?_⟩
    · simp only [next, arrive]
      split_ifs <;> simp
    · dsimp only
      rw [matchEnd_eq]
      rfl

section Steps

variable (hlongest : env.matchingStrategy = .longestMatch)

include hlongest

theorem searching_longest (sim : Sim) : env.searching sim = true := by
  rw [searching, longest, hlongest]
  exact Bool.or_true _

theorem traceTransition_counts {state p : ℕ} (h : t.Counts env start) (ht : t.CountsTarget start)
    (hactive : 0 ≤ t.sim.stateVector state) (hp : p < env.dfa.maxInput) :
    (env.traceTransition rp boundary first state t p).Counts env start ∧
      (env.traceTransition rp boundary first state t p).CountsTarget start ∧
      (env.traceTransition rp boundary first state t p).sim.stateVector = t.sim.stateVector := by
  have hpos := h.position state hactive
  have hlong : env.longest = true := by
    rw [longest, hlongest]
    rfl
  rcases traceTransition_cases rp boundary first (searching_longest hlongest t.sim) state p with
    ⟨tables, heq⟩ | ⟨tables, cfg, wins, n, hn, hcpos, heq⟩
  · rw [heq]
    exact ⟨h.of_sim rfl rfl rfl rfl, ht, rfl⟩
  · have hplain : TokensOnly env → t.passed state + n = 0 := fun htokens => by
      rw [(h.plain htokens).1, hn, htokens p hp]
      rfl
    rw [heq]
    refine ⟨⟨h.position, fun htokens => ⟨(h.plain htokens).1, fun s => ?_⟩, ?_, ?_, ?_, ?_⟩, ?_, rfl⟩
    · by_cases hstate : s = cfg.state
      · rw [hstate]
        exact (update_self ..).trans (hplain htokens)
      · exact (update_of_ne hstate ..).trans ((h.plain htokens).2 s)
    · cases wins with
      | false => exact h.accepted
      | true =>
        intro a ha
        rcases mem_append.mp ha with ha | ha
        · exact h.accepted a ha
        · rw [mem_singleton.mp ha]
          refine ⟨?_, le_rfl, hplain⟩
          push_cast
          omega
    · cases wins with
      | false => exact h.latest
      | true =>
        intro last hlast a ha
        rw [if_pos rfl] at hlast ha
        rw [getLast?_concat] at hlast
        cases hlast
        rcases mem_append.mp ha with ha | ha
        · exact (h.accepted a ha).2.1
        · rw [mem_singleton.mp ha]
    · cases wins with
      | false => exact fun last hlast => ⟨(h.stored last hlast).stop, (h.stored last hlast).target, (h.stored last hlast).keyword⟩
      | true =>
        intro last hlast
        rw [if_pos rfl, getLast?_concat] at hlast
        cases hlast
        exact ⟨rfl, fun hi => if_pos hi, fun hi => if_pos hi⟩
    · cases wins with
      | false => exact h.unset
      | true => simp
    · intro s hs
      simp only [record, hlong, Bool.or_true, if_true] at hs ⊢
      by_cases hstate : s = cfg.state
      · rw [hstate, update_self, update_self]
        push_cast
        omega
      · rw [update_of_ne hstate] at hs ⊢
        rw [update_of_ne hstate]
        exact ht s hs

theorem traceState_counts (h : t.Counts env start) (ht : t.CountsTarget start) (state : ℕ) :
    (env.traceState rp boundary first t state).Counts env start ∧
      (env.traceState rp boundary first t state).CountsTarget start := by
  have hfold : ∀ ps : List ℕ, (∀ p ∈ ps, p < env.dfa.maxInput) → ∀ t : Trace, t.Counts env start →
      t.CountsTarget start → 0 ≤ t.sim.stateVector state →
      (ps.foldl (env.traceTransition rp boundary first state) t).Counts env start ∧
        (ps.foldl (env.traceTransition rp boundary first state) t).CountsTarget start := fun ps => by
    induction ps with
    | nil => exact fun _ _ h ht _ => ⟨h, ht⟩
    | cons p ps ih =>
      intro hps t h ht hactive
      obtain ⟨h', ht', hvector⟩ := traceTransition_counts hlongest h ht hactive (hps p mem_cons_self)
      exact ih (fun p hp => hps p (mem_cons_of_mem _ hp)) _ h' ht' (by rwa [hvector])
  unfold traceState
  split_ifs with hgo
  · exact hfold _ (fun p hp => mem_range.mp hp) _ (h.of_sim rfl rfl rfl rfl) ht hgo.2.2
  · exact ⟨h, ht⟩

theorem traceCycle_counts (h : t.Counts env start) : (env.traceCycle rp boundary first t).Counts env start := by
  have hfold : ∀ (states : List ℕ) (t : Trace), t.Counts env start → t.CountsTarget start →
      (states.foldl (env.traceState rp boundary first) t).Counts env start ∧
        (states.foldl (env.traceState rp boundary first) t).CountsTarget start := fun states => by
    induction states with
    | nil => exact fun _ h ht => ⟨h, ht⟩
    | cons state states ih =>
      intro t h ht
      obtain ⟨h', ht'⟩ := traceState_counts hlongest h ht state
      exact ih _ h' ht'
  have hclear : { t with sim := { t.sim with targetVector := fun _ => -1 } }.Counts env start := h.of_sim rfl rfl rfl rfl
  obtain ⟨hstates, htarget⟩ := hfold (List.range env.dfa.maxStates) _ hclear fun s hs => absurd hs (by simp)
  have hswap : ∀ sim : Sim, ∃ running evaluation, env.checkFixpoint (env.swapVectors sim) =
      { sim with
        runningStates := running
        stateVector := sim.targetVector
        targetVector := sim.stateVector
        reftabVector := sim.reftabTargetVector
        reftabTargetVector := sim.reftabVector
        evaluationIsRunning := evaluation } := fun sim => by
    rw [swapVectors, if_pos (searching_longest hlongest sim), checkFixpoint]
    split_ifs
    · exact ⟨_, _, rfl⟩
    · exact ⟨_, _, rfl⟩
  unfold traceCycle
  dsimp only
  generalize (List.range env.dfa.maxStates).foldl (env.traceState rp boundary first)
    { t with sim := { t.sim with targetVector := fun _ => -1 } } = filled at hstates htarget ⊢
  obtain ⟨running, evaluation, heq⟩ := hswap { filled.sim with firstTransitionTraversed := true }
  rw [heq]
  refine ⟨fun s hs => ?_, fun htokens => (hstates.plain htokens).symm, fun a ha => ?_, hstates.latest, fun last hlast => ?_,
    hstates.unset⟩
  · have hpos := htarget s hs
    push_cast
    exact hpos
  · obtain ⟨hstop, hround, hplain⟩ := hstates.accepted a ha
    exact ⟨hstop, hround.trans (Nat.le_succ _), hplain⟩
  · exact ⟨(hstates.stored last hlast).stop, (hstates.stored last hlast).target, (hstates.stored last hlast).keyword⟩

end Steps

/-! ## The stored end -/

/-- The end that is stored is that of an accepting transition, with its target and keyword, and no
accepting transition ends behind it; it is unset if there is none. -/
def StoresLongest (env : EvalEnv C A R) (t : Trace) : Prop :=
  (t.accepted = [] → t.sim.winner = -1) ∧
    (t.accepted ≠ [] → ∃ a ∈ t.accepted, t.Stores env a ∧ ∀ b ∈ t.accepted, b.stop ≤ a.stop)

/-- No accepting transition was ahead of the last one by more zero-width elements than rounds. -/
def NotOvertaken (t : Trace) : Prop :=
  ∀ last ∈ t.accepted.getLast?, ∀ a ∈ t.accepted, last.zeroWidths + a.round ≤ a.zeroWidths + last.round

theorem Counts.storesLongest_iff (h : t.Counts env start) : t.StoresLongest env ↔ t.NotOvertaken := by
  refine ⟨fun hs last hlast a ha => ?_, fun hn => ⟨h.unset, fun hne => ?_⟩⟩
  · obtain ⟨b, hb, hstores, hmax⟩ := hs.2 (ne_nil_of_mem ha)
    have hmem := mem_of_getLast? hlast
    have hlate := (h.accepted last hmem).1
    have hearly := (h.accepted a ha).1
    have heq : b.stop = last.stop := hstores.stop.symm.trans (h.stored last hlast).stop
    have hle := hmax a ha
    omega
  · obtain ⟨last, hlast⟩ := Option.isSome_iff_exists.mp (getLast?_isSome.mpr hne)
    have hmem := mem_of_getLast? hlast
    refine ⟨last, hmem, h.stored last hlast, fun b hb => ?_⟩
    have hlate := (h.accepted last hmem).1
    have hearly := (h.accepted b hb).1
    have hle := hn last hlast b hb
    omega

/-- Without zero-width elements no run is delayed. -/
theorem Counts.notOvertaken (h : t.Counts env start) (htokens : TokensOnly env) : t.NotOvertaken := by
  intro last hlast a ha
  have hround := h.latest last hlast a ha
  rw [(h.accepted last (mem_of_getLast? hlast)).2.2 htokens, (h.accepted a ha).2.2 htokens]
  omega

theorem traceCycles_counts (hlongest : env.matchingStrategy = .longestMatch) {fuel : ℕ} {t' : Trace} (h : t.Counts env start)
    (hrun : env.traceCycles rp boundary first fuel t = some t') : t'.Counts env start := by
  induction fuel generalizing t with
  | zero => cases hrun
  | succ fuel ih =>
    unfold traceCycles at hrun
    split_ifs at hrun with hgo
    · exact ih (traceCycle_counts hlongest h) hrun
    · rwa [← Option.some.inj hrun]

theorem initTrace_counts : ({ sim := env.initSim start } : Trace).Counts env start := by
  refine ⟨fun s hs => ?_, fun _ => ⟨fun _ => rfl, fun _ => rfl⟩, fun a ha => absurd ha (not_mem_nil),
    fun last hlast => by simp at hlast, fun last hlast => by simp at hlast, fun _ => rfl⟩
  by_cases h0 : s = 0
  · simp [h0, initSim]
  · simp [initSim, h0] at hs

end Trace

/-- The automaton of `"a" "b" ("c" | </s> </s>)`, where the words have the ids 1, 2 and 3. -/
def overtakenDFA : DFA where
  maxStates := 5
  maxInput := 5
  transTable s p := match s, p with
    | 0, 0 => 1
    | 1, 1 => 2
    | 2, 2 => 4
    | 2, 3 => 3
    | 3, 4 => 4
    | _, _ => 5
  eState := 5
  final s := s == 4
  hasStart := by decide
  closed := by decide

/-- The region of `s` ends at the second token. -/
def overtakenQuery (tokens : List ℕ) : EvalEnv ℕ Unit Unit where
  corpus := sampleCorpus tokens [(0, 1)]
  queryCorpus := { type := .system, range := [⟨0, 2, -1, -1⟩] }
  patternlist p := match p with
    | 3 | 4 => .tag true () none none false none
    | p => .pattern none (p + 1) .isNotTarget false
  dfa := overtakenDFA
  searchContext := .word 100
  matchingStrategy := .longestMatch

end CWB
