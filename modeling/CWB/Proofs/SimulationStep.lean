import CWB.Proofs.Simulation

/-! One round of the simulation, without any assumption about the labels or about runs that meet:
what is stored for the states that a round reaches comes from a transition out of a state that was
active before it. -/

namespace CWB

open Function List

variable {C A R : Type}

namespace EvalEnv

variable {env : EvalEnv C A R} {rp : ℕ} {boundary : ℤ} {first : Option ℕ}

/-- A transition is tested, and then taken or not. -/
theorem transitionStep_eq_evaluate (env : EvalEnv C A R) (rp : ℕ) (boundary : ℤ) (first : Option ℕ) (state : ℕ) (sim : Sim)
    (p : ℕ) : env.transitionStep rp boundary first state sim p =
      if env.searching sim then
        let result := env.evaluate rp boundary first state sim.firstTransitionTraversed (sim.stateVector state)
          (sim.reftabVector state) p
        let sim' := { sim with reftabVector := update sim.reftabVector state result.2 }
        match result.1 with
        | none => sim'
        | some labels =>
          record env sim' (env.arrive (env.patternlist p) (sim.stateVector state) (env.dfa.transTable state p) labels).1
            (env.arrive (env.patternlist p) (sim.stateVector state) (env.dfa.transTable state p) labels).2
      else sim := by
  have hkeep : { sim with reftabVector := update sim.reftabVector state (sim.reftabVector state) } = sim := by
    rw [update_eq_self]
  by_cases hs : env.searching sim = true
  · rw [if_pos hs]
    unfold transitionStep evaluate
    simp only [hs, true_and]
    by_cases hc : env.dfa.transTable state p ≠ env.dfa.eState ∧
        env.inRange boundary (env.patternlist p) (sim.reftabVector state) (sim.stateVector state) = true
    · rw [if_pos hc, if_pos hc]
      -- only the start state of the first round with an initial transition skips the test
      rcases state with _ | state
      · rcases first with _ | q
        · generalize env.evalConstraint rp (env.patternlist p) _ (sim.reftabVector 0) = result
          rcases result with ⟨_ | labels, table⟩
          · rfl
          · exact takeTransition_eq ..
        · obtain ⟨_, _, _, _, _, _, _, _, traversed, _⟩ := sim
          cases traversed with
          | false =>
            by_cases heq : q = p
            · simp only [if_pos heq, takeTransition_eq, update_eq_self]
            · simp only [if_neg heq, update_eq_self]
          | true =>
            dsimp only
            generalize env.evalConstraint rp (env.patternlist p) _ _ = result
            rcases result with ⟨_ | labels, table⟩
            · rfl
            · exact takeTransition_eq ..
      · generalize env.evalConstraint rp (env.patternlist p) _ (sim.reftabVector (state + 1)) = result
        rcases result with ⟨_ | labels, table⟩
        · rfl
        · exact takeTransition_eq ..
    · rw [if_neg hc, if_neg hc]
      exact hkeep.symm
  · rw [if_neg hs]
    exact if_neg fun h => hs h.1

theorem evaluate_cases {state : ℕ} {traversed : Bool} {cpos : ℤ} {rt labels : RefTab} {p : ℕ}
    (h : (env.evaluate rp boundary first state traversed cpos rt p).1 = some labels) :
    env.dfa.transTable state p ≠ env.dfa.eState ∧ env.inRange boundary (env.patternlist p) rt cpos = true ∧
      (traversed = false ∧ labels = env.skipConstraint (env.patternlist p) ((env.patternlist p).effectiveCpos cpos) rt ∨
        (env.evalConstraint rp (env.patternlist p) ((env.patternlist p).effectiveCpos cpos) rt).1 = some labels) := by
  unfold evaluate at h
  dsimp only at h
  split_ifs at h with hgo
  · refine ⟨hgo.1, hgo.2, ?_⟩
    rcases state with _ | state
    · rcases first with _ | q
      · exact .inr h
      · cases traversed with
        | false =>
          change (if q = p then some _ else none) = some labels at h
          split_ifs at h
          exact .inl ⟨rfl, (Option.some.inj h).symm⟩
        | true => exact .inr h
    · exact .inr h

theorem evaluate_kept (env : EvalEnv C A R) (rp : ℕ) (boundary : ℤ) (first : Option ℕ) (state : ℕ) (traversed : Bool)
    (cpos : ℤ) (rt : RefTab) (p : ℕ) :
    (env.evaluate rp boundary first state traversed cpos rt p).2 = rt ∨
      (env.evaluate rp boundary first state traversed cpos rt p).2 =
        (env.evalConstraint rp (env.patternlist p) ((env.patternlist p).effectiveCpos cpos) rt).2 := by
  unfold evaluate
  dsimp only
  split_ifs
  · rcases state with _ | state
    · rcases first with _ | q
      · exact .inr rfl
      · cases traversed with
        | false => exact .inl rfl
        | true => exact .inr rfl
    · exact .inr rfl
  · exact .inl rfl

/-! ## What a round reaches -/

section Round

variable (env rp boundary first)
variable (P Q : ℕ × ℤ → Prop) (T : Set RefTab) (traversed : Bool)

/-- During a round: the active states are at places of `P`, those that have been reached at places
of `Q`, all with tables from `T`. -/
structure Between (sim : Sim) : Prop where
  here : ∀ s < env.dfa.maxStates, 0 ≤ sim.stateVector s → P (s, sim.stateVector s) ∧ sim.reftabVector s ∈ T
  there : ∀ s < env.dfa.maxStates, 0 ≤ sim.targetVector s → Q (s, sim.targetVector s) ∧ sim.reftabTargetVector s ∈ T
  unset : ∀ s, -1 ≤ sim.targetVector s
  traversed : sim.firstTransitionTraversed = traversed

/-- Transitions lead from `P` to `Q` and keep the tables in `T`. -/
structure Leads : Prop where
  kept : ∀ s < env.dfa.maxStates, ∀ p < env.dfa.maxInput, ∀ cpos ≥ 0, ∀ rt ∈ T, P (s, cpos) →
    (env.evaluate rp boundary first s traversed cpos rt p).2 ∈ T
  taken : ∀ s < env.dfa.maxStates, ∀ p < env.dfa.maxInput, ∀ cpos ≥ 0, ∀ rt ∈ T, P (s, cpos) →
    ∀ labels, (env.evaluate rp boundary first s traversed cpos rt p).1 = some labels →
      Q (env.arrive (env.patternlist p) cpos (env.dfa.transTable s p) labels).1.place ∧
        (env.arrive (env.patternlist p) cpos (env.dfa.transTable s p) labels).1.labels ∈ T

variable {env rp boundary first P Q T traversed} {sim : Sim}

theorem transitionStep_stateVector (state p : ℕ) :
    (env.transitionStep rp boundary first state sim p).stateVector = sim.stateVector := by
  rw [transitionStep_eq_evaluate]
  split_ifs
  · dsimp only
    cases (env.evaluate rp boundary first state sim.firstTransitionTraversed (sim.stateVector state)
      (sim.reftabVector state) p).1 with
    | none => rfl
    | some labels => rfl
  · rfl

theorem Between.transitionStep (hl : Leads env rp boundary first P Q T traversed) (h : Between env P Q T traversed sim) {state p : ℕ}
    (hs : state < env.dfa.maxStates) (hp : p < env.dfa.maxInput) (hactive : 0 ≤ sim.stateVector state) :
    Between env P Q T traversed (env.transitionStep rp boundary first state sim p) := by
  obtain ⟨hplace, htable⟩ := h.here state hs hactive
  have hkept := hl.kept state hs p hp _ hactive _ htable hplace
  have htaken := hl.taken state hs p hp _ hactive _ htable hplace
  rw [← h.traversed] at hkept htaken
  rw [transitionStep_eq_evaluate]
  split_ifs
  · dsimp only
    revert hkept htaken
    generalize env.evaluate rp boundary first state sim.firstTransitionTraversed (sim.stateVector state) (sim.reftabVector state) p = result
    intro hkept htaken
    have hhere : ∀ s < env.dfa.maxStates, 0 ≤ sim.stateVector s → P (s, sim.stateVector s) ∧
        update sim.reftabVector state result.2 s ∈ T := fun s hlt hpos => by
      refine ⟨(h.here s hlt hpos).1, ?_⟩
      by_cases heq : s = state
      · rwa [heq, update_self]
      · rw [update_of_ne heq]
        exact (h.here s hlt hpos).2
    obtain ⟨_ | labels, table⟩ := result
    · exact ⟨hhere, h.there, h.unset, h.traversed⟩
    · obtain ⟨hnext, hlabels⟩ := htaken labels rfl
      have hcpos : 0 ≤ (env.arrive (env.patternlist p) (sim.stateVector state) (env.dfa.transTable state p) labels).1.cpos := by
        unfold arrive
        dsimp only
        split_ifs
        · exact hactive
        · omega
      dsimp only
      generalize env.arrive (env.patternlist p) (sim.stateVector state) (env.dfa.transTable state p) labels = arrived
        at hnext hlabels hcpos ⊢
      refine ⟨hhere, fun s hlt hpos => ?_, fun s => ?_, h.traversed⟩
      · unfold EvalEnv.record at hpos ⊢
        dsimp only at hpos ⊢
        by_cases heq : s = arrived.1.state
        · subst heq
          rw [update_self]
          split_ifs at hpos ⊢
          · rw [update_self]
            exact ⟨hnext, hlabels⟩
          · exact ⟨(h.there _ hlt hpos).1, hlabels⟩
        · rw [update_of_ne heq]
          split_ifs at hpos ⊢
          · rw [update_of_ne heq] at hpos ⊢
            exact h.there s hlt hpos
          · exact h.there s hlt hpos
      · unfold EvalEnv.record
        dsimp only
        split_ifs
        · by_cases heq : s = arrived.1.state
          · rw [heq, update_self]
            omega
          · rw [update_of_ne heq]
            exact h.unset s
        · exact h.unset s
  · exact h

theorem Between.stateStep (hl : Leads env rp boundary first P Q T traversed) (h : Between env P Q T traversed sim) {state : ℕ}
    (hs : state < env.dfa.maxStates) : Between env P Q T traversed (env.stateStep rp boundary first sim state) := by
  have hfold : ∀ ps : List ℕ, (∀ p ∈ ps, p < env.dfa.maxInput) → ∀ sim : Sim, Between env P Q T traversed sim →
      0 ≤ sim.stateVector state → Between env P Q T traversed (ps.foldl (env.transitionStep rp boundary first state) sim) := fun ps => by
    induction ps with
    | nil => exact fun _ _ h _ => h
    | cons p ps ih =>
      intro hps sim h hactive
      apply ih (fun p hp => hps p (mem_cons_of_mem _ hp)) _ (h.transitionStep hl hs (hps p mem_cons_self) hactive)
      rwa [transitionStep_stateVector]
  unfold EvalEnv.stateStep
  split_ifs with hgo
  · exact hfold _ (fun p hp => mem_range.mp hp) _ ⟨h.here, h.there, h.unset, h.traversed⟩ hgo.2.2
  · exact h

/-- The loop over the states fills the cleared target vector. -/
theorem between_filled (hl : Leads env rp boundary first P Q T sim.firstTransitionTraversed)
    (hhere : ∀ s < env.dfa.maxStates, 0 ≤ sim.stateVector s → P (s, sim.stateVector s) ∧ sim.reftabVector s ∈ T) :
    Between env P Q T sim.firstTransitionTraversed
      ((range env.dfa.maxStates).foldl (env.stateStep rp boundary first) { sim with targetVector := fun _ => -1 }) := by
  have hfold : ∀ states : List ℕ, (∀ s ∈ states, s < env.dfa.maxStates) → ∀ sim' : Sim,
      Between env P Q T sim.firstTransitionTraversed sim' →
      Between env P Q T sim.firstTransitionTraversed (states.foldl (env.stateStep rp boundary first) sim') := fun states => by
    induction states with
    | nil => exact fun _ _ h => h
    | cons state states ih =>
      intro hstates sim' h
      exact ih (fun s hs => hstates s (mem_cons_of_mem _ hs)) _ (h.stateStep hl (hstates state mem_cons_self))
  exact hfold (range env.dfa.maxStates) (fun s hs => mem_range.mp hs) { sim with targetVector := fun _ => -1 }
    ⟨hhere, fun s _ hpos => absurd hpos (by simp), fun _ => le_rfl, rfl⟩

theorem cycle_places (hl : Leads env rp boundary first P Q T sim.firstTransitionTraversed)
    (hhere : ∀ s < env.dfa.maxStates, 0 ≤ sim.stateVector s → P (s, sim.stateVector s) ∧ sim.reftabVector s ∈ T)
    (hsearch : env.searching (env.cycle rp boundary first sim) = true)
    (hrunning : (env.cycle rp boundary first sim).runningStates > 0) :
    (∀ s < env.dfa.maxStates, -1 ≤ (env.cycle rp boundary first sim).stateVector s ∧
      (0 ≤ (env.cycle rp boundary first sim).stateVector s →
        Q (s, (env.cycle rp boundary first sim).stateVector s) ∧ (env.cycle rp boundary first sim).reftabVector s ∈ T)) ∧
      (env.cycle rp boundary first sim).runningStates = env.active (env.cycle rp boundary first sim).stateVector ∧
      (env.cycle rp boundary first sim).firstTransitionTraversed = true := by
  have hfilled := between_filled hl hhere
  unfold cycle at hsearch hrunning ⊢
  dsimp only at hsearch hrunning ⊢
  generalize (range env.dfa.maxStates).foldl (env.stateStep rp boundary first)
    { sim with targetVector := fun _ => -1 } = filled at hfilled hsearch hrunning ⊢
  have hwinner : ∀ sim' : Sim, (env.checkFixpoint (env.swapVectors sim')).winner = sim'.winner := fun sim' => by
    unfold checkFixpoint swapVectors
    split_ifs <;> rfl
  have hgo : env.searching { filled with firstTransitionTraversed := true } = true := by
    unfold searching at hsearch ⊢
    rwa [hwinner] at hsearch
  unfold checkFixpoint at hrunning ⊢
  split_ifs at hrunning ⊢ with hfix
  · exact absurd hrunning (lt_irrefl 0)
  · rw [swapVectors, if_pos hgo]
    exact ⟨fun s hs => ⟨hfilled.unset s, hfilled.there s hs⟩, rfl, rfl⟩

end Round

end EvalEnv

end CWB
