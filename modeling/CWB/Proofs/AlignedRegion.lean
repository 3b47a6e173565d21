import CWB.Proofs.AlignmentLookup
import CWB.Proofs.HardCut
import CWB.Proofs.LoopTermination

/-! `check_alignment_constraints`: a match is kept if the sub-query has a match that starts in the aligned region. Where
this match ends does not matter: the simulation goes on to the end of its search context. -/

namespace CWB

open Option List

variable {C A R : Type}

namespace EvalEnv

variable {env : EvalEnv C A R} {rp : ℕ} {boundary : ℤ} {first : Option ℕ}

/-! ### Elements that read one token each -/

section Tokens

variable (htokens : ∀ p < env.dfa.maxInput, (env.patternlist p).zeroWidth = false)

include htokens

theorem not_zeroWidthMove (x y : ℕ × ℤ) : ¬env.ZeroWidthMove rp boundary x y := by
  rintro ⟨p, hp, hzero, -⟩
  rw [htokens p hp] at hzero
  cases hzero

theorem exists_simulateFrom (rp : ℕ) (boundary : ℤ) (first : Option ℕ) (start : ℤ) :
    ∃ fuel sim, env.simulateFrom rp boundary first start fuel = some sim := by
  have hno : ∀ x, ¬Relation.TransGen (env.ZeroWidthMove rp boundary) x x := by
    intro x h
    obtain ⟨y, hmove, -⟩ := Relation.TransGen.head'_iff.mp h
    exact not_zeroWidthMove htokens x y hmove
  exact returns_iff_ends.mpr (ends_of_acyclic hno)

/-- A transition reads the token at its position. -/
theorem leads_next (c : ℤ) (traversed : Bool) :
    Leads env rp boundary first (fun x => x.2 = c) (fun x => x.2 = c + 1) Set.univ traversed := by
  refine ⟨fun _ _ _ _ _ _ _ _ _ => Set.mem_univ _, fun s _ p hp cpos _ rt _ hplace labels _ => ⟨?_, Set.mem_univ _⟩⟩
  change (if (env.patternlist p).zeroWidth then cpos else cpos + 1) = c + 1
  rw [htokens p hp, if_neg Bool.false_ne_true, show cpos = c from hplace]

/-- Nothing is read behind the boundary. -/
theorem not_accepts_behind {q : Search} (hq : q.boundary < q.start) (n : ℕ) (cfg : Config) : ¬env.Accepts q n cfg := by
  rintro ⟨prev, p, hreach, hp, hnext⟩
  have hge := (reach_cpos hreach).1
  have hle := (next_some hnext).2.2.2 (htokens p hp.1)
  omega

end Tokens

theorem stateStep_kept (env : EvalEnv C A R) (rp : ℕ) (boundary : ℤ) (first : Option ℕ) (state : ℕ) (sim : Sim) :
    (env.stateStep rp boundary first sim state).stateVector = sim.stateVector ∧
      (env.stateStep rp boundary first sim state).evaluationIsRunning = sim.evaluationIsRunning := by
  have htransition : ∀ (p : ℕ) (sim : Sim),
      (env.transitionStep rp boundary first state sim p).evaluationIsRunning = sim.evaluationIsRunning := fun p sim => by
    rw [transitionStep_eq_evaluate]
    split_ifs
    · dsimp only
      cases (env.evaluate rp boundary first state sim.firstTransitionTraversed (sim.stateVector state)
        (sim.reftabVector state) p).1 <;> rfl
    · rfl
  have hfold : ∀ (ps : List ℕ) (sim : Sim),
      (ps.foldl (env.transitionStep rp boundary first state) sim).stateVector = sim.stateVector ∧
      (ps.foldl (env.transitionStep rp boundary first state) sim).evaluationIsRunning = sim.evaluationIsRunning := fun ps => by
    induction ps with
    | nil => exact fun _ => ⟨rfl, rfl⟩
    | cons p ps ih =>
      intro sim
      obtain ⟨hstates, hrunning⟩ := ih (env.transitionStep rp boundary first state sim p)
      exact ⟨hstates.trans (transitionStep_stateVector state p), hrunning.trans (htransition p sim)⟩
  unfold EvalEnv.stateStep
  split_ifs
  · exact hfold _ _
  · exact ⟨rfl, rfl⟩

theorem states_kept (env : EvalEnv C A R) (rp : ℕ) (boundary : ℤ) (first : Option ℕ) (states : List ℕ) (sim : Sim) :
    (states.foldl (env.stateStep rp boundary first) sim).stateVector = sim.stateVector ∧
      (states.foldl (env.stateStep rp boundary first) sim).evaluationIsRunning = sim.evaluationIsRunning := by
  induction states generalizing sim with
  | nil => exact ⟨rfl, rfl⟩
  | cons state states ih =>
    obtain ⟨hstates, hrunning⟩ := ih (env.stateStep rp boundary first sim state)
    obtain ⟨hstates', hrunning'⟩ := stateStep_kept env rp boundary first state sim
    exact ⟨hstates.trans hstates', hrunning.trans hrunning'⟩

/-- Before a round all active states stand at the position `c`, and there are some. -/
structure Standing (env : EvalEnv C A R) (c : ℤ) (sim : Sim) : Prop where
  nonneg : 0 ≤ c
  places : ∀ s < env.dfa.maxStates, 0 ≤ sim.stateVector s → sim.stateVector s = c
  active : ∃ s < env.dfa.maxStates, 0 ≤ sim.stateVector s

/-- The vectors before and after a round are never equal, and the states move on together. -/
theorem Standing.cycle (htokens : ∀ p < env.dfa.maxInput, (env.patternlist p).zeroWidth = false) {c : ℤ} {sim : Sim}
    (h : env.Standing c sim) (rp : ℕ) (boundary : ℤ) (first : Option ℕ) :
    (env.cycle rp boundary first sim).evaluationIsRunning = sim.evaluationIsRunning ∧
      (env.GoesOn (env.cycle rp boundary first sim) → env.Standing (c + 1) (env.cycle rp boundary first sim)) := by
  have hleads : Leads env rp boundary first (fun x => x.2 = c) (fun x => x.2 = c + 1) Set.univ sim.firstTransitionTraversed :=
    leads_next htokens c _
  have hhere : ∀ s < env.dfa.maxStates, 0 ≤ sim.stateVector s →
      sim.stateVector s = c ∧ sim.reftabVector s ∈ (Set.univ : Set RefTab) :=
    fun s hs hpos => ⟨h.places s hs hpos, Set.mem_univ _⟩
  refine ⟨?_, fun hgo => ?_⟩
  · have hfilled := between_filled hleads hhere
    obtain ⟨hstates, hrunning⟩ := states_kept env rp boundary first (range env.dfa.maxStates)
      { sim with targetVector := fun _ => -1 }
    unfold EvalEnv.cycle
    dsimp only
    generalize (range env.dfa.maxStates).foldl (env.stateStep rp boundary first)
      { sim with targetVector := fun _ => -1 } = filled at hfilled hstates hrunning ⊢
    obtain ⟨s, hs, hpos⟩ := h.active
    have hmoved : filled.stateVector s ≠ filled.targetVector s := by
      intro heq
      rw [hstates] at heq
      have hnext : filled.targetVector s = c + 1 := (hfilled.there s hs (heq ▸ hpos)).1
      have hplace := h.places s hs hpos
      simp only at heq
      omega
    unfold checkFixpoint
    rw [if_neg]
    · unfold swapVectors
      split_ifs
      · exact hrunning
      · exact hrunning
    · intro hfix
      have hs' := hfix s hs
      unfold swapVectors at hs'
      split_ifs at hs'
      · exact hmoved hs'.symm
      · exact hmoved hs'
  · obtain ⟨hplaces, hrunning, -⟩ := cycle_places hleads hhere hgo.1 hgo.2
    have hactive := hgo.2
    rw [hrunning] at hactive
    exact ⟨by have := h.nonneg; omega, fun s hs hpos => ((hplaces s hs).2 hpos).1,
      exists_active _ env.dfa.maxStates (Int.natCast_pos.mp hactive)⟩

/-- The test for an infinite loop stops no simulation of a query over tokens. -/
theorem simulateFrom_running (htokens : ∀ p < env.dfa.maxInput, (env.patternlist p).zeroWidth = false) {start : ℤ}
    (hstart : 0 ≤ start) {fuel : ℕ} {sim : Sim} (h : env.simulateFrom rp boundary first start fuel = some sim) :
    sim.evaluationIsRunning = true := by
  have hrun : ∀ (fuel : ℕ) (c : ℤ) (sim0 : Sim), (env.GoesOn sim0 → env.Standing c sim0) →
      env.runCycles rp boundary first fuel sim0 = some sim → sim.evaluationIsRunning = sim0.evaluationIsRunning := fun fuel => by
    induction fuel with
    | zero => exact fun _ _ _ h => nomatch h
    | succ fuel ih =>
      intro c sim0 hstanding h
      unfold runCycles at h
      split_ifs at h with hgo
      · obtain ⟨hrunning, hnext⟩ := (hstanding hgo).cycle htokens rp boundary first
        exact (ih (c + 1) _ hnext h).trans hrunning
      · rw [some.inj h]
  refine hrun fuel start (env.initSim start) (fun _ => ⟨hstart, fun s _ hpos => ?_, 0, env.dfa.hasStart, hstart⟩) h
  by_cases hzero : s = 0
  · rw [hzero]
    rfl
  · simp [initSim, hzero] at hpos

/-! ### The loop over the positions of a region -/

theorem simulate_cut_zero (first : Option ℕ) (fuel : ℕ) (ms : List Match) (rp : ℕ) (running : Bool) :
    env.simulate first fuel ms rp 0 running = some (ms.map Match.mark, running) := by
  cases ms with
  | nil => rw [simulate, map_nil]
  | cons m rest => rw [simulate, if_pos (.inl rfl)]

theorem simulate_no_range (first : Option ℕ) (fuel : ℕ) (ms : List Match) {rp : ℕ} (hrp : env.queryCorpus.range.length ≤ rp)
    (cut : ℤ) (running : Bool) : env.simulate first fuel ms rp cut running = some (ms.map Match.mark, running) := by
  induction ms with
  | nil => rw [simulate, map_nil]
  | cons m rest ih =>
    rw [simulate]
    split_ifs with hstop hlt
    · rfl
    · exact absurd hlt (not_lt.mpr hrp)
    · rw [ih]
      rfl

theorem any_mark (ms : List Match) : ((ms.map Match.mark).any fun m => decide (m.start ≠ -1)) = false := by
  simp [Match.mark]

theorem SubQuery.range (h : env.SubQuery) :
    ∃ r, env.queryCorpus.range = [r] ∧ r.start = 0 ∧ r.stop = (env.corpus.size : ℤ) - 1 := by
  obtain ⟨r, rest, hrange, hpair, hrest⟩ := map_eq_cons_iff.mp h.whole
  obtain rfl := map_eq_nil_iff.mp hrest
  exact ⟨r, hrange, congrArg Prod.fst hpair, congrArg Prod.snd hpair⟩

/-- With `cut` 1 the loop finds a match if one starts at one of the positions, and then stops. -/
theorem SubQuery.simulate_one (h : env.SubQuery) (ms : List Match) (hms : ms.Pairwise fun a b => a.start < b.start)
    (hnonneg : ∀ m ∈ ms, 0 ≤ m.start) : ∃ fuel0, ∀ fuel ≥ fuel0, ∃ out, env.simulate none fuel ms 0 1 true = some (out, true) ∧
      ((out.any fun m => decide (m.start ≠ -1)) = true ↔ ∃ m ∈ ms, env.FoundFrom m.start) := by
  obtain ⟨r, hrange, hstart, hstop⟩ := h.range
  have hget : env.queryCorpus.range[0]? = some r := by rw [hrange]; rfl
  induction ms with
  | nil => exact ⟨0, fun fuel _ => ⟨[], by rw [simulate], by simp⟩⟩
  | cons m rest ih =>
    obtain ⟨hfirst, hrest⟩ := pairwise_cons.mp hms
    have h0 := hnonneg m mem_cons_self
    have hone : (1 : ℤ) ≠ 0 := one_ne_zero
    -- an element without a match leaves the question to the others
    have hskip : ∀ m' : Match, m'.start = -1 → ¬env.FoundFrom m.start → (∃ fuel1, ∀ fuel ≥ fuel1,
        env.simulate none fuel (m :: rest) 0 1 true =
          (env.simulate none fuel rest 0 1 true).map fun out => (m' :: out.1, out.2)) →
        ∃ fuel0, ∀ fuel ≥ fuel0, ∃ out, env.simulate none fuel (m :: rest) 0 1 true = some (out, true) ∧
          ((out.any fun x => decide (x.start ≠ -1)) = true ↔ ∃ x ∈ m :: rest, env.FoundFrom x.start) := by
      rintro m' hm' hno ⟨fuel1, hrun⟩
      obtain ⟨fuel0, hout⟩ := ih hrest fun x hx => hnonneg x (mem_cons_of_mem m hx)
      refine ⟨max fuel0 fuel1, fun fuel hle => ?_⟩
      obtain ⟨out, hsim, hany⟩ := hout fuel ((le_max_left _ _).trans hle)
      refine ⟨m' :: out, by rw [hrun fuel ((le_max_right _ _).trans hle), hsim]; rfl, ?_⟩
      rw [any_cons, hm', decide_eq_false (not_not.mpr rfl), Bool.false_or, hany]
      simp [hno]
    by_cases hbehind : m.start > r.stop
    · -- behind the end of the corpus, where all others are as well
      refine ⟨0, fun fuel _ => ⟨(m :: rest).map Match.mark, ?_, ?_⟩⟩
      · rw [simulate_element none m rest hget hone, if_neg (by omega), if_pos hbehind]
        exact simulate_no_range none fuel _ (by rw [hrange]; exact le_rfl) 1 true
      · rw [any_mark]
        refine iff_of_false Bool.false_ne_true ?_
        rintro ⟨x, hx, hlt, -⟩
        rcases mem_cons.mp hx with rfl | hx
        · omega
        · have := hfirst x hx
          omega
    have hbound : env.boundary m.start r = (env.subSearch m.start).boundary := by
      rw [EvalEnv.boundary, hstop]
      rfl
    by_cases hb : env.boundary m.start r = -1
    · refine hskip { m.mark with target := -1, keyword := -1 } rfl (fun hf => hf.2.1 (hbound ▸ hb)) ⟨0, fun fuel _ => ?_⟩
      rw [simulate_element none m rest hget hone, if_neg (by omega), if_neg hbehind, if_pos hb]
    obtain ⟨fuel1, sim, hsim⟩ := exists_simulateFrom h.tokens 0 (env.boundary m.start r) none m.start
    have hrunning := simulateFrom_running h.tokens h0 hsim
    have hmore : ∀ fuel ≥ fuel1, env.simulateFrom 0 (env.boundary m.start r) none m.start fuel = some sim :=
      fun fuel hle => runCycles_mono (q := ⟨0, env.boundary m.start r, none, m.start⟩) hle _ _ hsim
    by_cases hrep : reports m.start sim = true
    · refine ⟨fuel1, fun fuel hle => ⟨env.finishElement m sim :: rest.map Match.mark, ?_, ?_⟩⟩
      · rw [simulate_element none m rest hget hone, if_neg (by omega), if_neg hbehind, if_neg hb, hmore fuel hle]
        dsimp only
        rw [if_pos ⟨hrep, one_pos⟩, hrunning, sub_self, simulate_cut_zero]
        rfl
      · refine iff_of_true ?_ ⟨m, mem_cons_self, by omega, hbound ▸ hb, fuel1, sim, hbound ▸ hsim, hrep⟩
        have hne : m.start ≠ -1 := by omega
        simp [finishElement, hrep, hne]
    · refine hskip (env.finishElement m sim) (by simp [finishElement, hrep, Match.mark]) ?_ ⟨fuel1, fun fuel hle => ?_⟩
      · rintro ⟨-, -, fuel2, sim', hsim', hrep'⟩
        rw [← hbound] at hsim'
        rw [simulateFrom_unique hsim hsim'] at hrep
        exact hrep hrep'
      · rw [simulate_element none m rest hget hone, if_neg (by omega), if_neg hbehind, if_neg hb, hmore fuel hle]
        dsimp only
        rw [if_neg fun h => hrep h.1, hrunning]

/-! ### Matches and runs -/

/-- Where no run disturbs another, a match is found from a position exactly if a run from there is complete. -/
theorem SubQuery.foundFrom_iff (h : env.SubQuery) {used : Set ℕ} {p : ℤ} (hp : 0 ≤ p) (hl : env.LabelDiscipline used)
    (hu : Undisturbed env used (env.subSearch p)) :
    env.FoundFrom p ↔ ∃ n cfg, env.Accepts (env.subSearch p) n cfg := by
  obtain ⟨sim, fuel0, hsim, hrep⟩ := simulateFrom_reports hl (q := env.subSearch p) (fun f hf => nomatch hf) hu hp
  refine ⟨fun ⟨_, _, fuel, sim', hsim', hrep'⟩ => hrep.mp ?_, fun hruns => ?_⟩
  · rw [simulateFrom_unique (hsim fuel0 le_rfl) hsim']
    exact hrep'
  · -- the token at the start is read
    obtain ⟨n, cfg, hacc⟩ := hruns
    have hle : p ≤ (env.subSearch p).boundary := not_lt.mp fun hlt => not_accepts_behind h.tokens hlt n cfg hacc
    have hsize : (env.subSearch p).boundary ≤ env.corpus.size - 1 := min_le_right _ _
    exact ⟨by omega, by omega, fuel0, sim, hsim fuel0 le_rfl, hrep.mpr ⟨n, cfg, hacc⟩⟩

end EvalEnv

/-! ### The constraints -/

namespace AlignedQuery

open Cqi

variable {q : AlignedQuery C A R}

/-- The bead of a position, or none. -/
theorem lookup_cases (hdata : q.data.Ascending) {x : ℤ} (hx : Fits x) :
    (∃ bead ∈ q.data.beads, (bead.1.1 ≤ x ∧ x ≤ bead.1.2) ∧ (q.constraint.cpos2alg x).bind q.constraint.alg2cpos = some bead.2 ∧
      ∀ bead' ∈ q.data.beads, bead'.1.1 ≤ x ∧ x ≤ bead'.1.2 → bead' = bead) ∨
    (q.constraint.cpos2alg x).bind q.constraint.alg2cpos = none ∧ ∀ bead ∈ q.data.beads, ¬(bead.1.1 ≤ x ∧ x ≤ bead.1.2) := by
  have hl := hdata.located hx
  have hcpos : q.constraint.cpos2alg x =
      if (Cqi.clCpos2alg (.align { data := q.data, alignData := true }) x).1 < 0 then none
      else some (Cqi.clCpos2alg (.align { data := q.data, alignData := true }) x).1 := rfl
  by_cases hex : ∃ bead ∈ q.data.beads, bead.1.1 ≤ x ∧ x ≤ bead.1.2
  · obtain ⟨bead, hbead, hin⟩ := hex
    have hat := hl.found bead hbead hin.1 hin.2
    refine .inl ⟨bead, hbead, hin, ?_, fun bead' hbead' hin' => (hl.found bead' hbead' hin'.1 hin'.2).unique hat⟩
    obtain ⟨i, h0, hi, hregion⟩ := hat
    rw [hcpos, hi, if_neg (by omega), bind_some]
    change ((Cqi.clAlg2cpos (.align { data := q.data, alignData := true }) i).1.map fun bead => bead.2.2) = some bead.2
    rw [hregion]
    rfl
  · have hnone : ∀ bead ∈ q.data.beads, ¬(bead.1.1 ≤ x ∧ x ≤ bead.1.2) := fun bead hbead hin => hex ⟨bead, hbead, hin⟩
    refine .inr ⟨?_, hnone⟩
    rw [hcpos]
    rcases hl.missed hnone with hneg | hno
    · rw [if_pos hneg]
      rfl
    · split_ifs
      · rfl
      · rw [bind_some]
        change ((Cqi.clAlg2cpos (.align { data := q.data, alignData := true }) _).1.map fun bead => bead.2.2) = none
        rw [hno]
        rfl

theorem alignedRegion_eq (c : AlignmentConstraint C A R) (m : Match) :
    c.alignedRegion m = ((c.cpos2alg m.start).bind c.alg2cpos).bind fun s => ((c.cpos2alg m.stop).bind c.alg2cpos).bind fun t =>
      if t.2 < s.1 ∨ t.2 < 0 ∨ s.1 < 0 then none else some (s.1, t.2) := by
  unfold AlignmentConstraint.alignedRegion
  simp only [bind_eq_bind, bind_assoc]

/-- The aligned region, and what it is that the match is kept for. -/
theorem passes_cases (hdata : q.data.Ascending) {m : Match} (hstart : Fits m.start) (hstop : Fits m.stop) :
    (q.constraint.alignedRegion m = none ∧ ¬q.Passes m) ∨
      ∃ as ae, q.constraint.alignedRegion m = some (as, ae) ∧ 0 ≤ as ∧ as ≤ ae ∧
        (q.Passes m ↔ ((∃ p, as ≤ p ∧ p ≤ ae ∧ q.env.FoundFrom p) ↔ q.negated = false)) := by
  rw [alignedRegion_eq]
  rcases lookup_cases hdata hstart with ⟨s, hs, hins, hregion, huniq⟩ | ⟨hregion, hno⟩
  · rcases lookup_cases hdata hstop with ⟨t, ht, hint, hregion', huniq'⟩ | ⟨hregion', hno⟩
    · rw [hregion, hregion', bind_some, bind_some]
      by_cases hbad : t.2.2 < s.2.1 ∨ t.2.2 < 0 ∨ s.2.1 < 0
      · refine .inl ⟨if_pos hbad, ?_⟩
        rintro ⟨s', hs', t', ht', hins', hint', h0, hle, -⟩
        obtain rfl := huniq s' hs' hins'
        obtain rfl := huniq' t' ht' hint'
        omega
      · refine .inr ⟨s.2.1, t.2.2, if_neg hbad, by omega, by omega, ?_⟩
        refine ⟨?_, fun h => ⟨s, hs, t, ht, hins, hint, by omega, by omega, h⟩⟩
        rintro ⟨s', hs', t', ht', hins', hint', -, -, h⟩
        obtain rfl := huniq s' hs' hins'
        obtain rfl := huniq' t' ht' hint'
        exact h
    · refine .inl ⟨by rw [hregion, hregion']; rfl, ?_⟩
      rintro ⟨-, -, t', ht', -, hint', -⟩
      exact hno t' ht' hint'
  · refine .inl ⟨by rw [hregion]; rfl, ?_⟩
    rintro ⟨s', hs', -, -, hins', -⟩
    exact hno s' hs' hins'

open Classical in
/-- A match that is kept, or marked. -/
noncomputable def kept (q : AlignedQuery C A R) (m : Match) : Match := if m.start = -1 ∨ q.Passes m then m else m.mark

theorem checkMatch_exact (hq : q.env.SubQuery) (hdata : q.data.Ascending) (m : Match)
    (hm : m.start ≠ -1 → Fits m.start ∧ Fits m.stop) :
    ∃ fuel0, ∀ fuel ≥ fuel0, q.constraint.checkMatch fuel m true = some (q.kept m, true) := by
  unfold kept AlignmentConstraint.checkMatch
  by_cases hmark : m.start = -1
  · exact ⟨0, fun fuel _ => by rw [if_pos hmark, if_pos (.inl hmark)]⟩
  obtain ⟨hstart, hstop⟩ := hm hmark
  simp only [if_neg hmark]
  rcases passes_cases hdata hstart hstop with ⟨hregion, hpass⟩ | ⟨as, ae, hregion, h0, hle, hpass⟩
  · exact ⟨0, fun fuel _ => by rw [hregion, if_neg (not_or.mpr ⟨hmark, hpass⟩)]⟩
  rw [hregion]
  dsimp only
  generalize hlist : ((range (ae - as + 1).toNat).map fun i : ℕ => ({ start := as + i, stop := as + i } : Match)) = ms
  have hascending : ms.Pairwise fun a b => a.start < b.start := by
    rw [← hlist]
    refine pairwise_map.mpr (pairwise_lt_range.imp fun hlt => ?_)
    dsimp only
    omega
  have hmem : ∀ p, (∃ x ∈ ms, x.start = p) ↔ as ≤ p ∧ p ≤ ae := by
    intro p
    rw [← hlist]
    refine ⟨?_, fun hp => ⟨⟨as + ((p - as).toNat : ℕ), as + ((p - as).toNat : ℕ), -1, -1⟩, ?_, by dsimp only; omega⟩⟩
    · rintro ⟨x, hx, rfl⟩
      obtain ⟨i, hi, rfl⟩ := mem_map.mp hx
      have := mem_range.mp hi
      dsimp only
      omega
    · exact mem_map.mpr ⟨(p - as).toNat, mem_range.mpr (by omega), rfl⟩
  obtain ⟨fuel0, hrun⟩ := hq.simulate_one ms hascending fun x hx => h0.trans ((hmem x.start).mp ⟨x, hx, rfl⟩).1
  refine ⟨fuel0, fun fuel hfuel => ?_⟩
  obtain ⟨out, hout, hany⟩ := hrun fuel hfuel
  have hfound : (∃ x ∈ ms, q.env.FoundFrom x.start) ↔ ∃ p, as ≤ p ∧ p ≤ ae ∧ q.env.FoundFrom p := by
    refine ⟨fun ⟨x, hx, hf⟩ => ⟨x.start, ((hmem _).mp ⟨x, hx, rfl⟩).1, ((hmem _).mp ⟨x, hx, rfl⟩).2, hf⟩, ?_⟩
    rintro ⟨p, hle, hge, hf⟩
    obtain ⟨x, hx, rfl⟩ := (hmem p).mpr ⟨hle, hge⟩
    exact ⟨x, hx, hf⟩
  change (q.env.simulate none fuel ms 0 1 true).map _ = _
  rw [hout, map_some]
  change some (if (out.any fun x => decide (x.start ≠ -1)) = q.negated then m.mark else m, true) = _
  have hdiffer : ∀ b n : Bool, (b = true ↔ n = false) ↔ ¬b = n := by decide
  rw [← hfound, ← hany, hdiffer] at hpass
  by_cases hpasses : q.Passes m
  · rw [if_pos (.inr hpasses : m.start = -1 ∨ q.Passes m), if_neg (hpass.mp hpasses)]
  · rw [if_neg (not_or.mpr ⟨hmark, hpasses⟩), if_pos (not_not.mp fun h => hpasses (hpass.mpr h))]

theorem kept_start {m : Match} (h : m.start ≠ -1 → Fits m.start ∧ Fits m.stop) :
    (q.kept m).start ≠ -1 → Fits (q.kept m).start ∧ Fits (q.kept m).stop := by
  unfold kept
  split_ifs
  · exact h
  · exact fun hne => absurd rfl hne

theorem checkMatches_exact (hq : q.env.SubQuery) (hdata : q.data.Ascending) (ms : List Match)
    (hms : ∀ m ∈ ms, m.start ≠ -1 → Fits m.start ∧ Fits m.stop) :
    ∃ fuel0, ∀ fuel ≥ fuel0, q.constraint.checkMatches fuel ms true = some (ms.map q.kept, true) := by
  induction ms with
  | nil => exact ⟨0, fun fuel _ => rfl⟩
  | cons m ms ih =>
    obtain ⟨fuel1, hfirst⟩ := checkMatch_exact hq hdata m (hms m mem_cons_self)
    obtain ⟨fuel2, hrest⟩ := ih fun x hx => hms x (mem_cons_of_mem m hx)
    refine ⟨max fuel1 fuel2, fun fuel hle => ?_⟩
    rw [AlignmentConstraint.checkMatches, hfirst fuel ((le_max_left _ _).trans hle), bind_some,
      hrest fuel ((le_max_right _ _).trans hle)]
    rfl

end AlignedQuery

open Classical in
/-- The constraints mark the matches that do not pass all of them, and a sub-query is found from a position exactly if
one of its runs from there is complete. -/
theorem checkAlignmentConstraints_exact (qs : List (AlignedQuery C A R)) (hqs : ∀ q ∈ qs, q.env.SubQuery ∧ q.data.Ascending)
    (ms : List Match) (hms : ∀ m ∈ ms, m.start ≠ -1 → (0 ≤ m.start ∧ m.start < 2 ^ 31) ∧ 0 ≤ m.stop ∧ m.stop < 2 ^ 31) :
    (∃ fuel0, ∀ fuel ≥ fuel0, checkAlignmentConstraints fuel (qs.map AlignedQuery.constraint) ms true =
      some (ms.map fun m => if m.start = -1 ∨ ∀ q ∈ qs, q.Passes m then m else m.mark)) ∧
    ∀ q ∈ qs, ∀ used p, 0 ≤ p → q.env.LabelDiscipline used → EvalEnv.Undisturbed q.env used (q.env.subSearch p) →
      (q.env.FoundFrom p ↔ ∃ n cfg, q.env.Accepts (q.env.subSearch p) n cfg) := by
  refine ⟨?_, fun q hq used p hp hl hu => (hqs q hq).1.foundFrom_iff hp hl hu⟩
  induction qs generalizing ms with
  | nil => exact ⟨0, fun fuel _ => by simp [checkAlignmentConstraints]⟩
  | cons q qs ih =>
    obtain ⟨hq, hdata⟩ := hqs q mem_cons_self
    obtain ⟨fuel1, hfirst⟩ := AlignedQuery.checkMatches_exact hq hdata ms hms
    obtain ⟨fuel2, hrest⟩ := ih (fun q' hq' => hqs q' (mem_cons_of_mem q hq')) (ms.map q.kept) fun m' hm' => by
      obtain ⟨m, hm, rfl⟩ := mem_map.mp hm'
      exact AlignedQuery.kept_start (hms m hm)
    refine ⟨max fuel1 fuel2, fun fuel hle => ?_⟩
    rw [map_cons, checkAlignmentConstraints, hfirst fuel ((le_max_left _ _).trans hle), bind_some,
      hrest fuel ((le_max_right _ _).trans hle), List.map_map]
    congr 1
    refine map_congr_left fun m _ => ?_
    simp only [Function.comp_apply, AlignedQuery.kept, forall_mem_cons]
    by_cases hmark : m.start = -1
    · simp [hmark]
    by_cases hpass : q.Passes m
    · simp [hmark, hpass]
    · simp [hmark, hpass, Match.mark]

/-- The sub-query `[] "b"` on a corpus whose first word is aligned on its own. -/
def pairAligned : AlignedQuery ℕ Unit Unit where
  env := pairQuery
  data := .xalign [((0, 0), (0, 0))]
  negated := false

theorem pairAligned_subQuery : pairAligned.env.SubQuery ∧ pairAligned.data.Ascending := by
  refine ⟨⟨by decide, fun p hp => ?_, by decide⟩, by decide, by decide⟩
  rcases pairQuery_tokenQuery.elements p hp with ⟨_, he⟩ | ⟨_, _, he⟩
  · exact congrArg AVS.zeroWidth he
  · exact congrArg AVS.zeroWidth he

open Classical in
theorem checkAlignmentConstraints_exact_pair :
    (∃ fuel0, ∀ fuel ≥ fuel0, checkAlignmentConstraints fuel ([pairAligned].map AlignedQuery.constraint) [⟨0, 0, -1, -1⟩] true =
      some ([⟨0, 0, -1, -1⟩].map fun m : Match => if m.start = -1 ∨ ∀ q ∈ [pairAligned], q.Passes m then m else m.mark)) ∧
    ∀ q ∈ [pairAligned], ∀ used p, 0 ≤ p → q.env.LabelDiscipline used →
      EvalEnv.Undisturbed q.env used (q.env.subSearch p) →
        (q.env.FoundFrom p ↔ ∃ n cfg, q.env.Accepts (q.env.subSearch p) n cfg) :=
  checkAlignmentConstraints_exact [pairAligned] (by
    intro q hq
    obtain rfl := mem_singleton.mp hq
    exact pairAligned_subQuery) [⟨0, 0, -1, -1⟩] (by decide)

/-- The match of the sub-query may end behind the aligned region: here it starts at the only word of the region and ends at
the next one. -/
theorem checkAlignmentConstraints_not_inside :
    ¬∀ (q : AlignedQuery ℕ Unit Unit) (m : Match) (fuel : ℕ), q.env.SubQuery → q.data.Ascending → q.negated = false →
      m.start ≠ -1 → checkAlignmentConstraints fuel [q.constraint] [m] true = some [m] →
        ∃ s ∈ q.data.beads, ∃ t ∈ q.data.beads, (s.1.1 ≤ m.start ∧ m.start ≤ s.1.2) ∧ (t.1.1 ≤ m.stop ∧ m.stop ≤ t.1.2) ∧
          ∃ p e, s.2.1 ≤ p ∧ e ≤ t.2.2 ∧ q.env.Matches none (p, e) := by
  intro hall
  have hkept : checkAlignmentConstraints 4 [pairAligned.constraint] [⟨0, 0, -1, -1⟩] true = some [⟨0, 0, -1, -1⟩] := by
    decide +kernel
  obtain ⟨s, hs, t, ht, -, -, p, e, hp, he, hmatch⟩ := hall pairAligned ⟨0, 0, -1, -1⟩ 4 pairAligned_subQuery.1
    pairAligned_subQuery.2 rfl (by decide) hkept
  obtain rfl := mem_singleton.mp hs
  obtain rfl := mem_singleton.mp ht
  obtain ⟨_, _, -, -, -, ps, ⟨⟨f, hwalk, hfinal⟩, -⟩, -, hend, -⟩ := hmatch
  -- an accepting path has two transitions
  have hlen : ps.length ≤ 1 := by
    simp only at hend hp he
    omega
  obtain rfl : f = 2 := by simpa [pairAligned, pairQuery, pairDFA] using hfinal
  rcases ps with _ | ⟨a, _ | ⟨b, ps⟩⟩
  · cases some.inj hwalk
  · unfold EvalEnv.walk at hwalk
    split_ifs at hwalk with hgo
    have hstate : (if 0 = a ∧ 0 < 2 then 0 + 1 else 3) = 2 := some.inj hwalk
    split_ifs at hstate <;> omega
  · simp only [length_cons] at hlen
    omega

end CWB
