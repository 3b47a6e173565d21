import Mathlib
import CWB.Library.Loops
import CWB.Proofs.SimulationStep
import CWB.Proofs.TokenQueries

/-! Queries with tags, anchors and lookahead. A state has one cell in the state vector, so
of two runs that reach it in the same cycle at different positions only one goes on. -/

namespace CWB

variable {C A R : Type}

namespace EvalEnv

/-- The simulation ends and reports a match exactly if some run is complete. -/
def ReportsRuns (env : EvalEnv C A R) (q : Search) : Prop :=
  ∃ sim fuel0,
    (∀ fuel ≥ fuel0, env.simulateFrom q.rp q.boundary q.first q.start fuel = some sim) ∧
    (reports q.start sim = true ↔ ∃ n cfg, env.Accepts q n cfg)

end EvalEnv

/-- The automaton of `<s> "b"`. -/
def tagQuery : EvalEnv ℕ Unit Unit where
  corpus := sampleCorpus [5, 7] [(0, 1)]
  queryCorpus := { type := .system, range := [⟨0, 1, -1, -1⟩] }
  patternlist p := if p = 0 then .tag false () none none false none
    else .pattern none 5 .isNotTarget false
  dfa := pairDFA
  searchContext := .word 100
  matchingStrategy := .standardMatch

theorem tagQuery_labelDiscipline : tagQuery.LabelDiscipline ∅ where
  keeps _ _ _ := rfl
  reads _ _ _ _ _ := rfl
  rdat _ h := nomatch h
  regions h := nomatch h

theorem tagQuery_next {q : Search} {cfg cfg' : Config} {p : ℕ} {wins : Bool}
    (h : tagQuery.next q cfg p = some (cfg', wins)) :
    cfg'.state = cfg.state + 1 ∧ cfg.state < 2 ∧ wins = (cfg'.state == 2) ∧
      cfg'.cpos = cfg.cpos + cfg.state := by
  obtain ⟨hs, hE, hc, -⟩ := EvalEnv.next_some h
  have htrans : cfg.state = p ∧ cfg.state < 2 := by
    by_contra hno
    rw [hs] at hE
    exact hE (if_neg hno)
  have hst : cfg'.state = cfg.state + 1 := hs.trans (if_pos htrans)
  refine ⟨hst, htrans.2, ?_, ?_⟩
  · simp only [EvalEnv.next] at h
    split_ifs at h
    obtain ⟨rt, -, ha⟩ := Option.map_eq_some_iff.mp h
    have hw : wins = (tagQuery.arrive (tagQuery.patternlist p) cfg.cpos
      (tagQuery.dfa.transTable cfg.state p) rt).2 := by rw [ha]
    have hfinal : ∀ avs cpos t rt, (tagQuery.checkWinner avs cpos t rt).1 = tagQuery.dfa.final t := by
      intro avs cpos t rt
      unfold EvalEnv.checkWinner
      cases tagQuery.dfa.final t <;> rfl
    rw [hw, hs]
    exact hfinal (tagQuery.patternlist p) cfg.cpos _ (tagQuery.setTarget _ cfg.cpos rt)
  · obtain ⟨rfl, hlt⟩ := htrans
    rw [hc]
    rcases Nat.le_one_iff_eq_zero_or_eq_one.mp (Nat.lt_succ_iff.mp hlt) with h0 | h1
    · simp [tagQuery, h0, AVS.zeroWidth]
    · simp [tagQuery, h1, AVS.zeroWidth, AVS.lookahead]

theorem tagQuery_reach {q : Search} {n : ℕ} {cfg : Config} (h : tagQuery.Reach q n cfg) :
    cfg.state = n ∧ cfg.cpos = q.start + (n - 1 : ℕ) := by
  induction h with
  | init => simp [EvalEnv.initConfig]
  | @step n cfg cfg' p wins _ _ hn ih =>
    obtain ⟨hs, hlt, -, hc⟩ := tagQuery_next hn
    refine ⟨by omega, ?_⟩
    rw [hc, ih.2, ih.1]
    omega

theorem tagQuery_undisturbed (q : Search) : tagQuery.Undisturbed ∅ q where
  apart n a b ha hb hs :=
    ⟨hs, by rw [(tagQuery_reach ha).2, (tagQuery_reach hb).2], fun l hl => absurd hl (Set.notMem_empty l)⟩
  acyclic x hx := by
    have hstep : ∀ a b, tagQuery.Moves q a b → a.1 < b.1 := by
      rintro _ _ ⟨n, cfg, p, cfg', wins, -, -, hn, rfl, rfl⟩
      have := (tagQuery_next hn).1
      simp only [Config.place]
      omega
    have hlt : ∀ y, Relation.TransGen (tagQuery.Moves q) x y → x.1 < y.1 := by
      intro y hy
      induction hy with
      | single hm => exact hstep _ _ hm
      | tail _ hm ih => exact ih.trans (hstep _ _ hm)
    exact absurd (hlt x hx) (lt_irrefl _)
  nonempty n cfg := by
    rintro ⟨prev, p, hr, -, hn⟩
    obtain ⟨hs, -, hw, hc⟩ := tagQuery_next hn
    obtain ⟨hn', hcp⟩ := tagQuery_reach hr
    have h2 : cfg.state = 2 := by simpa using hw.symm
    rw [hc, hcp]
    omega

/-- The query `[] (<s> | []) "b"` on three tokens, the second of which opens a region and
is the word "b": the run over the tag and the run over the token meet in state 2. -/
def meetDFA : DFA where
  maxStates := 4
  maxInput := 4
  transTable s p := match s, p with
    | 0, 0 => 1
    | 1, 1 => 2
    | 1, 2 => 2
    | 2, 3 => 3
    | _, _ => 4
  eState := 4
  final s := s == 3
  hasStart := by decide
  closed := by decide

def meetQuery : EvalEnv ℕ Unit Unit where
  corpus := sampleCorpus [7, 5, 6] [(1, 2)]
  queryCorpus := { type := .system, range := [⟨0, 2, -1, -1⟩] }
  patternlist p := match p with
    | 1 => .tag false () none none false none
    | 3 => .pattern none 5 .isNotTarget false
    | _ => .matchAll none .isNotTarget false
  dfa := meetDFA
  searchContext := .word 100
  matchingStrategy := .standardMatch

end CWB

/-! Termination of the main loop of `simulate`. A round depends on the positions and label tables
of the active states only. There are finitely many of these, so that the loop ends unless they come
back; the test for equal vectors finds this only if it happens from one round to the next. -/

namespace CWB

variable {C A R : Type} {a b : Sim}

namespace EvalEnv

variable (env : EvalEnv C A R) (rp : ℕ) (boundary : ℤ) (first : Option ℕ) (start : ℤ)

/-- The main loop enters another round. -/
def GoesOn (sim : Sim) : Prop := env.searching sim = true ∧ sim.runningStates > 0

/-- The same states are active at the same positions with the same labels. -/
structure Alike (a b : Sim) : Prop where
  states : ∀ s < env.dfa.maxStates, a.stateVector s = b.stateVector s
  labels : ∀ s < env.dfa.maxStates, 0 ≤ a.stateVector s → a.reftabVector s = b.reftabVector s
  winner : a.winner < 0 ↔ b.winner < 0
  running : a.runningStates = b.runningStates
  traversed : a.firstTransitionTraversed = b.firstTransitionTraversed

/-- A loop state comes back in a later round that the loop enters. -/
def StateRecurs : Prop :=
  Loops.Recurs env.GoesOn (env.cycle rp boundary first) env.Alike (env.initSim start)

/-- A zero-width element that holds for some labels leads from one state to another at the same
position. -/
def ZeroWidthMove (x y : ℕ × ℤ) : Prop :=
  ∃ p < env.dfa.maxInput, (env.patternlist p).zeroWidth = true ∧ env.dfa.transTable x.1 p ≠ env.dfa.eState ∧
    y = (env.dfa.transTable x.1 p, x.2) ∧ ∃ rt, env.inRange boundary (env.patternlist p) rt x.2 = true ∧
      (env.evalConstraint rp (env.patternlist p) ((env.patternlist p).effectiveCpos x.2) rt).1.isSome = true

/-- Constraints delete labels and set none. -/
def DeletesOnly : Prop :=
  ∀ c rt cpos l, (env.corpus.evalBool c rt cpos).2 l = rt l ∨ (env.corpus.evalBool c rt cpos).2 l = -1

variable {env rp boundary first start}

theorem returns_iff_ends : (∃ fuel sim, env.simulateFrom rp boundary first start fuel = some sim) ↔
    Loops.Ends env.GoesOn (env.cycle rp boundary first) (env.initSim start) := by
  unfold simulateFrom
  generalize env.initSim start = sim
  refine ⟨fun h => ?_, fun h => ?_⟩
  · obtain ⟨fuel, sim', h⟩ := h
    induction fuel generalizing sim with
    | zero => cases h
    | succ fuel ih =>
      unfold runCycles at h
      split_ifs at h with hgo
      · obtain ⟨n, hn⟩ := ih _ h
        exact ⟨n + 1, hn⟩
      · exact ⟨0, hgo⟩
  · obtain ⟨n, hn⟩ := h
    induction n generalizing sim with
    | zero => exact ⟨1, sim, if_neg hn⟩
    | succ n ih =>
      by_cases hgo : env.GoesOn sim
      · obtain ⟨fuel, sim', h⟩ := ih _ hn
        exact ⟨fuel + 1, sim', (if_pos hgo).trans h⟩
      · exact ⟨1, sim, if_neg hgo⟩

/-! ## A round depends on the loop state only -/

/-- Loop states that are alike also in what the round has reached so far. -/
structure AlikeWithin (env : EvalEnv C A R) (a b : Sim) : Prop extends Alike env a b where
  targets : ∀ s, a.targetVector s = b.targetVector s
  targetLabels : ∀ s, 0 ≤ a.targetVector s → a.reftabTargetVector s = b.reftabTargetVector s

theorem Alike.symm (h : env.Alike a b) : env.Alike b a :=
  ⟨fun s hs => (h.states s hs).symm, fun s hs hpos => (h.labels s hs (by rwa [h.states s hs])).symm, h.winner.symm,
    h.running.symm, h.traversed.symm⟩

theorem Alike.trans {c : Sim} (h : env.Alike a b) (h' : env.Alike b c) : env.Alike a c :=
  ⟨fun s hs => (h.states s hs).trans (h'.states s hs),
    fun s hs hpos => (h.labels s hs hpos).trans (h'.labels s hs (by rwa [← h.states s hs])),
    h.winner.trans h'.winner, h.running.trans h'.running, h.traversed.trans h'.traversed⟩

theorem Alike.searching (h : env.Alike a b) : env.searching a = env.searching b := by
  unfold EvalEnv.searching
  rw [decide_eq_decide.mpr h.winner]

theorem Alike.goesOn (h : env.Alike a b) : env.GoesOn a ↔ env.GoesOn b := by
  unfold GoesOn
  rw [h.searching, h.running]

theorem AlikeWithin.record (h : env.AlikeWithin a b) (cfg : Config) (wins : Bool) :
    env.AlikeWithin (env.record a cfg wins) (env.record b cfg wins) := by
  unfold EvalEnv.record
  refine ⟨⟨h.states, h.labels, ?_, h.running, h.traversed⟩, fun s => ?_, fun s hs => ?_⟩
  · cases wins with
    | false => exact h.winner
    | true => exact Iff.rfl
  · dsimp only
    split_ifs
    · by_cases heq : s = cfg.state
      · rw [heq, Function.update_self, Function.update_self]
      · rw [Function.update_of_ne heq, Function.update_of_ne heq]
        exact h.targets s
    · exact h.targets s
  · dsimp only at hs ⊢
    by_cases heq : s = cfg.state
    · rw [heq, Function.update_self, Function.update_self]
    · rw [Function.update_of_ne heq, Function.update_of_ne heq]
      split_ifs at hs
      · rw [Function.update_of_ne heq] at hs
        exact h.targetLabels s hs
      · exact h.targetLabels s hs

theorem AlikeWithin.transitionStep (h : env.AlikeWithin a b) {state : ℕ} (hs : state < env.dfa.maxStates)
    (hactive : 0 ≤ a.stateVector state) (p : ℕ) :
    env.AlikeWithin (env.transitionStep rp boundary first state a p) (env.transitionStep rp boundary first state b p) := by
  have hresult : env.evaluate rp boundary first state b.firstTransitionTraversed (b.stateVector state) (b.reftabVector state) p =
      env.evaluate rp boundary first state a.firstTransitionTraversed (a.stateVector state) (a.reftabVector state) p := by
    rw [h.states state hs, h.labels state hs hactive, h.traversed]
  rw [transitionStep_eq_evaluate, transitionStep_eq_evaluate, hresult, ← h.searching, ← h.states state hs]
  split_ifs
  · have hkept : ∀ table : RefTab, env.AlikeWithin
        { a with reftabVector := Function.update a.reftabVector state table }
        { b with reftabVector := Function.update b.reftabVector state table } := fun table => by
      refine ⟨⟨h.states, fun s hlt hpos => ?_, h.winner, h.running, h.traversed⟩, h.targets, h.targetLabels⟩
      dsimp only
      by_cases heq : s = state
      · rw [heq, Function.update_self, Function.update_self]
      · rw [Function.update_of_ne heq, Function.update_of_ne heq]
        exact h.labels s hlt hpos
    dsimp only
    rcases env.evaluate rp boundary first state a.firstTransitionTraversed (a.stateVector state)
      (a.reftabVector state) p with ⟨_ | labels, table⟩
    · exact hkept table
    · exact (hkept table).record _ _
  · exact h

theorem AlikeWithin.stateStep (h : env.AlikeWithin a b) {state : ℕ} (hs : state < env.dfa.maxStates) :
    env.AlikeWithin (env.stateStep rp boundary first a state) (env.stateStep rp boundary first b state) := by
  have hfold : ∀ (ps : List ℕ) (a b : Sim), env.AlikeWithin a b → 0 ≤ a.stateVector state →
      env.AlikeWithin (ps.foldl (env.transitionStep rp boundary first state) a)
        (ps.foldl (env.transitionStep rp boundary first state) b) := fun ps => by
    induction ps with
    | nil => exact fun _ _ h _ => h
    | cons p ps ih =>
      intro a b h hactive
      apply ih _ _ (h.transitionStep hs hactive p)
      rwa [transitionStep_stateVector]
  unfold EvalEnv.stateStep
  rw [← h.searching, ← h.running, ← h.states state hs]
  split_ifs with hgo
  · exact hfold _ _ _ ⟨⟨h.states, h.labels, h.winner, rfl, h.traversed⟩, h.targets, h.targetLabels⟩ hgo.2.2
  · exact h

theorem Alike.cycle (rp : ℕ) (boundary : ℤ) (first : Option ℕ) (h : env.Alike a b) :
    env.Alike (env.cycle rp boundary first a) (env.cycle rp boundary first b) := by
  have hfold : ∀ states : List ℕ, (∀ s ∈ states, s < env.dfa.maxStates) → ∀ a b : Sim, env.AlikeWithin a b →
      env.AlikeWithin (states.foldl (env.stateStep rp boundary first) a) (states.foldl (env.stateStep rp boundary first) b) :=
    fun states => by
      induction states with
      | nil => exact fun _ _ _ h => h
      | cons state states ih =>
        intro hstates a b h
        exact ih (fun s hs => hstates s (List.mem_cons_of_mem _ hs)) _ _ (h.stateStep (hstates state List.mem_cons_self))
  have hfilled := hfold (List.range env.dfa.maxStates) (fun s hs => List.mem_range.mp hs)
    { a with targetVector := fun _ => -1 } { b with targetVector := fun _ => -1 }
    ⟨⟨h.states, h.labels, h.winner, h.running, h.traversed⟩, fun _ => rfl, fun s hpos => absurd hpos (by simp)⟩
  unfold EvalEnv.cycle
  dsimp only
  generalize (List.range env.dfa.maxStates).foldl (env.stateStep rp boundary first)
    { a with targetVector := fun _ => -1 } = a at hfilled ⊢
  generalize (List.range env.dfa.maxStates).foldl (env.stateStep rp boundary first)
    { b with targetVector := fun _ => -1 } = b at hfilled ⊢
  have hdone : env.AlikeWithin { a with firstTransitionTraversed := true } { b with firstTransitionTraversed := true } :=
    ⟨⟨hfilled.states, hfilled.labels, hfilled.winner, hfilled.running, rfl⟩, hfilled.targets, hfilled.targetLabels⟩
  have hcheck : ∀ a b : Sim, env.Alike a b → (∀ s < env.dfa.maxStates, a.targetVector s = b.targetVector s) →
      env.Alike (env.checkFixpoint a) (env.checkFixpoint b) := fun a b h htargets => by
    unfold checkFixpoint
    have hfix : (∀ s < env.dfa.maxStates, a.stateVector s = a.targetVector s) ↔
        ∀ s < env.dfa.maxStates, b.stateVector s = b.targetVector s :=
      forall₂_congr fun s hs => by rw [h.states s hs, htargets s hs]
    simp only [hfix]
    split_ifs
    · exact ⟨h.states, h.labels, h.winner, rfl, h.traversed⟩
    · exact h
  unfold swapVectors
  rw [← hdone.searching]
  split_ifs
  · refine hcheck _ _ ⟨fun s _ => hdone.targets s, fun s _ => hdone.targetLabels s, hdone.winner, ?_, hdone.traversed⟩ hdone.states
    rw [show a.targetVector = b.targetVector from funext hdone.targets]
  · exact hcheck _ _ hdone.toAlike fun s _ => hdone.targets s

/-! ## Finitely many loop states -/

variable (env start boundary) in
/-- The last position that a run from `start` can reach. -/
def lastPlace : ℤ := max start (boundary + 1)

variable (env) in
/-- The labels that an evaluation can set. -/
def setLabels : Set ℕ :=
  {env.targetLabel, env.keywordLabel, env.matchLabel, env.matchendLabel} ∪
    ⋃ p ∈ Set.Iio env.dfa.maxInput, {l | (env.patternlist p).label = some l ∨ (env.patternlist p).rightBoundary = some l}

/-- The end of the region that the start tag of an element refers to. -/
def regionEnd (env : EvalEnv C A R) (avs : AVS C A R) (cpos : ℤ) : ℤ :=
  match avs with
  | .tag _ attr .. => (env.corpus.cpos2struc attr cpos).elim (-1) fun struc => (env.corpus.struc2cpos attr struc).2
  | .matchAll .. | .pattern .. | .anchor .. => -1

variable (env start boundary) in
/-- The values that an evaluation can give to labels. -/
def labelValues : Set ℤ :=
  Set.Icc (start - 1) (lastPlace boundary start) ∪
    ⋃ p ∈ Set.Iio env.dfa.maxInput, env.regionEnd (env.patternlist p) '' Set.Icc (start - 1) (lastPlace boundary start)

variable (env start boundary) in
def tables : Set RefTab := {rt | ∀ l, rt l = -1 ∨ l ∈ env.setLabels ∧ rt l ∈ env.labelValues boundary start}

theorem finite_tables : (env.tables boundary start).Finite := by
  have hlabels : env.setLabels.Finite := by
    have hoption : ∀ o : Option ℕ, {l | o = some l}.Finite := fun o =>
      o.toFinset.finite_toSet.subset fun l hl => Option.mem_toFinset.mpr hl
    exact Set.Finite.union (Set.toFinite _) ((Set.finite_Iio _).biUnion fun p _ => (hoption _).union (hoption _))
  have hvalues : (env.labelValues boundary start).Finite :=
    (Set.finite_Icc _ _).union ((Set.finite_Iio _).biUnion fun p _ => (Set.finite_Icc _ _).image _)
  have := hlabels.to_subtype
  let restrict : RefTab → env.setLabels → ℤ := fun rt l => rt l
  apply Set.Finite.of_finite_image (f := restrict)
  · apply (Set.Finite.pi' fun _ => hvalues.insert (-1)).subset
    rintro _ ⟨rt, hrt, rfl⟩ l
    rcases hrt l with hunset | hset
    · exact Set.mem_insert_iff.mpr (.inl hunset)
    · exact Set.mem_insert_of_mem _ hset.2
  · intro rt hrt rt' hrt' heq
    funext l
    by_cases hl : l ∈ env.setLabels
    · exact congrFun heq ⟨l, hl⟩
    · rw [(hrt l).resolve_right fun h => hl h.1, (hrt' l).resolve_right fun h => hl h.1]

theorem tables_set {rt : RefTab} (h : rt ∈ env.tables boundary start) {ref : ℕ} {cpos : ℤ} (href : ref ∈ env.setLabels)
    (hcpos : cpos ∈ env.labelValues boundary start) : rt.set ref cpos ∈ env.tables boundary start := by
  intro l
  unfold RefTab.set
  by_cases heq : l = ref
  · rw [heq, Function.update_self]
    exact .inr ⟨href, hcpos⟩
  · rw [Function.update_of_ne heq]
    exact h l

theorem tables_unset {rt : RefTab} (h : rt ∈ env.tables boundary start) (ref : ℕ) : rt.set ref (-1) ∈ env.tables boundary start := by
  intro l
  unfold RefTab.set
  by_cases heq : l = ref
  · rw [heq, Function.update_self]
    exact .inl rfl
  · rw [Function.update_of_ne heq]
    exact h l

theorem tables_setLabel {rt : RefTab} (h : rt ∈ env.tables boundary start) {label : Option ℕ} {cpos : ℤ}
    (hlabel : ∀ l, label = some l → l ∈ env.setLabels) (hcpos : cpos ∈ env.labelValues boundary start) :
    rt.setLabel label cpos ∈ env.tables boundary start := by
  cases label with
  | none => exact h
  | some ref => exact tables_set h (hlabel ref rfl) hcpos

theorem tables_delete (hdelete : env.DeletesOnly)
    {rt : RefTab} (h : rt ∈ env.tables boundary start) (c : C) (cpos : ℤ) :
    (env.corpus.evalBool c rt cpos).2 ∈ env.tables boundary start := by
  intro l
  rcases hdelete c rt cpos l with heq | heq
  · rw [heq]
    exact h l
  · exact .inl heq

section Evaluation

variable {p : ℕ} (hp : p < env.dfa.maxInput) {cpos : ℤ} (hcpos : cpos ∈ Set.Icc (start - 1) (lastPlace boundary start))
variable {rt : RefTab} (h : rt ∈ env.tables boundary start)

include hp

theorem label_mem_setLabels {l : ℕ} (hl : (env.patternlist p).label = some l ∨ (env.patternlist p).rightBoundary = some l) :
    l ∈ env.setLabels :=
  .inr (Set.mem_biUnion (Set.mem_Iio.mpr hp) hl)

include hcpos

theorem regionEnd_mem_labelValues : env.regionEnd (env.patternlist p) cpos ∈ env.labelValues boundary start :=
  .inr (Set.mem_biUnion (Set.mem_Iio.mpr hp) ⟨cpos, hcpos, rfl⟩)

include h

theorem skipConstraint_mem_tables : env.skipConstraint (env.patternlist p) cpos rt ∈ env.tables boundary start := by
  have hlabelled := tables_setLabel h (fun l hl => label_mem_setLabels hp (.inl hl)) (.inl hcpos)
  have hend := regionEnd_mem_labelValues hp hcpos
  have hright : ∀ l, (env.patternlist p).rightBoundary = some l → l ∈ env.setLabels := fun l hl => label_mem_setLabels hp (.inr hl)
  unfold skipConstraint
  revert hlabelled hend hright
  rcases env.patternlist p with _ | _ | ⟨_ | _, attr, _, _, _, rightBoundary⟩ | _
  · exact fun h _ _ => h
  · exact fun h _ _ => h
  · intro hlabelled hend hright
    unfold regionEnd at hend
    dsimp only at hend ⊢
    split
    · rename_i hstruc
      rw [hstruc] at hend
      exact tables_setLabel hlabelled hright hend
    · exact hlabelled
  · exact fun h _ _ => h
  · exact fun h _ _ => h

variable (hdelete : env.DeletesOnly)

include hdelete

theorem evalConstraint_mem_tables (rp : ℕ) : (env.evalConstraint rp (env.patternlist p) cpos rt).2 ∈ env.tables boundary start ∧
    ∀ labels, (env.evalConstraint rp (env.patternlist p) cpos rt).1 = some labels → labels ∈ env.tables boundary start := by
  have hvalue : cpos ∈ env.labelValues boundary start := .inl hcpos
  have hend := regionEnd_mem_labelValues hp hcpos
  have hlabel : ∀ l, (env.patternlist p).label = some l → l ∈ env.setLabels := fun l hl => label_mem_setLabels hp (.inl hl)
  have hright : ∀ l, (env.patternlist p).rightBoundary = some l → l ∈ env.setLabels := fun l hl => label_mem_setLabels hp (.inr hl)
  unfold evalConstraint
  revert hend hlabel hright
  rcases env.patternlist p with _ | ⟨label, constraint, _, _⟩ | ⟨_ | _, attr, _, _, _, rightBoundary⟩ | _
  · intro _ hlabel _
    refine ⟨h, fun labels heq => ?_⟩
    cases heq
    exact tables_setLabel h hlabel hvalue
  · intro _ hlabel _
    have hkept := tables_delete hdelete h constraint cpos
    dsimp only
    split_ifs
    · refine ⟨hkept, fun labels heq => ?_⟩
      cases heq
      exact tables_setLabel hkept hlabel hvalue
    · exact ⟨hkept, fun labels heq => by cases heq⟩
  · intro hend _ hright
    unfold regionEnd at hend
    dsimp only at hend ⊢
    cases hstruc : env.corpus.cpos2struc attr cpos with
    | none => exact ⟨h, fun labels heq => by cases heq⟩
    | some struc =>
      rw [hstruc] at hend
      dsimp only
      split_ifs
      · refine ⟨h, fun labels heq => ?_⟩
        cases heq
        exact tables_setLabel h hright hend
      · refine ⟨h, fun labels heq => ?_⟩
        cases heq
        exact h
      · exact ⟨h, fun labels heq => by cases heq⟩
  · intro _ _ hright
    dsimp only
    cases env.corpus.cpos2struc attr cpos with
    | none => exact ⟨h, fun labels heq => by cases heq⟩
    | some struc =>
      dsimp only
      refine iteInduction (motive := fun result : Option RefTab × RefTab => result.2 ∈ env.tables boundary start ∧
        ∀ labels, result.1 = some labels → labels ∈ env.tables boundary start) (fun _ => ?_) fun _ => ?_
      · refine ⟨h, fun labels heq => ?_⟩
        cases heq
        split_ifs
        · cases rightBoundary with
          | none => exact h
          | some ref => exact tables_unset h ref
        · exact h
      · exact ⟨h, fun labels heq => by cases heq⟩
  · intro _ _ _
    dsimp only
    split_ifs
    · refine ⟨h, fun labels heq => ?_⟩
      cases heq
      exact h
    · exact ⟨h, fun labels heq => by cases heq⟩

end Evaluation

/-- A place that the loop can reach: a state of the automaton and a position in the range. -/
def InReach (env : EvalEnv C A R) (boundary start : ℤ) (x : ℕ × ℤ) : Prop :=
  x.1 < env.dfa.maxStates ∧ x.2 ∈ Set.Icc start (lastPlace boundary start)

section Arrival

variable {s p : ℕ} {cpos : ℤ} {rt : RefTab}

/-- A token in the range moves the run by one, a zero-width element by none. -/
theorem arrive_within (hs : s < env.dfa.maxStates) (hp : p < env.dfa.maxInput) (htarget : env.dfa.transTable s p ≠ env.dfa.eState)
    (hcpos : cpos ∈ Set.Icc start (lastPlace boundary start)) (hrange : env.inRange boundary (env.patternlist p) rt cpos = true)
    (labels : RefTab) :
    env.InReach boundary start (env.arrive (env.patternlist p) cpos (env.dfa.transTable s p) labels).1.place := by
  refine ⟨env.dfa.closed s hs p hp htarget, ?_⟩
  change (if (env.patternlist p).zeroWidth then cpos else cpos + 1) ∈ Set.Icc start (lastPlace boundary start)
  split_ifs with hzero
  · exact hcpos
  · have hplain : (env.patternlist p).lookahead = false ∧ (env.patternlist p).isClosing = false := by
      revert hzero
      rcases env.patternlist p with ⟨_, _, lookahead⟩ | ⟨_, _, _, lookahead⟩ | _ | _
      · exact fun h => ⟨Bool.eq_false_iff.mpr h, rfl⟩
      · exact fun h => ⟨Bool.eq_false_iff.mpr h, rfl⟩
      · exact fun h => absurd rfl h
      · exact fun h => absurd rfl h
    simp only [inRange, AVS.effectiveCpos, hplain.1, hplain.2, Bool.false_eq_true, if_false, Bool.false_and, Bool.or_false,
      Bool.and_eq_true, decide_eq_true_eq] at hrange
    have hlast := le_max_right start (boundary + 1)
    unfold lastPlace at hcpos ⊢
    exact ⟨by have := hcpos.1; omega, by omega⟩

theorem effectiveCpos_mem (hcpos : cpos ∈ Set.Icc start (lastPlace boundary start)) (avs : AVS C A R) :
    avs.effectiveCpos cpos ∈ Set.Icc (start - 1) (lastPlace boundary start) := by
  obtain ⟨hfrom, hto⟩ := hcpos
  unfold AVS.effectiveCpos
  split_ifs
  · exact ⟨by omega, by omega⟩
  · exact ⟨by omega, hto⟩

theorem arrive_mem_tables
    (hdelete : env.DeletesOnly)
    (hcpos : cpos ∈ Set.Icc start (lastPlace boundary start)) (avs : AVS C A R) (target : ℕ) {labels : RefTab}
    (h : labels ∈ env.tables boundary start) :
    (env.arrive avs cpos target labels).1.labels ∈ env.tables boundary start := by
  have htarget : env.setTarget avs cpos labels ∈ env.tables boundary start := by
    have hvalue : avs.effectiveCpos cpos ∈ env.labelValues boundary start := .inl (effectiveCpos_mem hcpos avs)
    unfold setTarget
    split
    · exact h
    · exact tables_set h (.inl (by simp)) hvalue
    · exact tables_set h (.inl (by simp)) hvalue
  change (env.checkWinner avs cpos target (env.setTarget avs cpos labels)).2 ∈ env.tables boundary start
  unfold checkWinner
  split_ifs
  · cases env.gconstraint with
    | none => exact htarget
    | some g =>
      -- the label `matchend` is unset again after the constraint
      intro l
      dsimp only
      unfold RefTab.set
      by_cases heq : l = env.matchendLabel
      · rw [heq, Function.update_self]
        exact .inl rfl
      · rw [Function.update_of_ne heq]
        rcases hdelete g (Function.update (env.setTarget avs cpos labels) env.matchendLabel (matchEnd avs cpos)) (-1) l with
          hkept | hunset
        · rw [hkept, Function.update_of_ne heq]
          exact htarget l
        · exact .inl hunset
  · exact htarget

end Arrival

theorem leads_within (hdelete : env.DeletesOnly)
    (traversed : Bool) : Leads env rp boundary first (env.InReach boundary start) (env.InReach boundary start)
      (env.tables boundary start) traversed := by
  refine ⟨fun s hs p hp cpos _ rt h hplace => ?_, fun s hs p hp cpos _ rt h hplace labels hlabels => ?_⟩
  · have hcpos := effectiveCpos_mem hplace.2 (env.patternlist p)
    rcases evaluate_kept env rp boundary first s traversed cpos rt p with heq | heq
    · rwa [heq]
    · rw [heq]
      exact (evalConstraint_mem_tables hp hcpos h hdelete rp).1
  · have hcpos := effectiveCpos_mem hplace.2 (env.patternlist p)
    obtain ⟨htarget, hrange, hlabels⟩ := evaluate_cases hlabels
    refine ⟨arrive_within hs hp htarget hplace.2 hrange labels, arrive_mem_tables hdelete hplace.2 _ _ ?_⟩
    rcases hlabels with ⟨-, rfl⟩ | hlabels
    · exact skipConstraint_mem_tables hp hcpos h
    · exact (evalConstraint_mem_tables hp hcpos h hdelete rp).2 labels hlabels

/-- What the loop can hold when it enters a round. -/
structure Bounded (env : EvalEnv C A R) (boundary start : ℤ) (sim : Sim) : Prop where
  states : ∀ s < env.dfa.maxStates, sim.stateVector s ∈ insert (-1) (Set.Icc start (lastPlace boundary start))
  tables : ∀ s < env.dfa.maxStates, 0 ≤ sim.stateVector s → sim.reftabVector s ∈ env.tables boundary start
  running : sim.runningStates ∈ Set.Icc 0 (env.dfa.maxStates : ℤ)

theorem bounded_iterate
    (hdelete : env.DeletesOnly)
    {n : ℕ} (hrun : Loops.Running env.GoesOn (env.cycle rp boundary first) (env.initSim start) n) :
    env.Bounded boundary start ((env.cycle rp boundary first)^[n] (env.initSim start)) := by
  have hlast : start ≤ lastPlace boundary start := le_max_left _ _
  induction n with
  | zero =>
    refine ⟨fun s _ => ?_, fun s _ hpos => ?_, ⟨by simp [initSim], ?_⟩⟩
    · by_cases hs : s = 0
      · simp [initSim, hs, hlast]
      · simp [initSim, hs]
    · by_cases hs : s = 0
      · rw [hs]
        exact tables_set (fun _ => .inl rfl) (.inl (by simp)) (.inl ⟨by omega, hlast⟩)
      · simp [initSim, hs] at hpos
    · have := env.dfa.hasStart
      simp only [Function.iterate_zero, id, initSim]
      omega
  | succ n ih =>
    obtain ⟨hstates, htables, -⟩ := ih fun k hk => hrun k (Nat.le_succ_of_le hk)
    have hgo := hrun (n + 1) le_rfl
    rw [Function.iterate_succ_apply'] at hgo ⊢
    have hleads : ∀ traversed, Leads env rp boundary first (env.InReach boundary start) (env.InReach boundary start)
        (env.tables boundary start) traversed := leads_within hdelete
    obtain ⟨hnext, hrunning, -⟩ := cycle_places (hleads _)
      (fun s hs hpos => ⟨⟨hs, (hstates s hs).resolve_left fun h => by rw [h] at hpos; omega⟩, htables s hs hpos⟩) hgo.1 hgo.2
    refine ⟨fun s hs => ?_, fun s hs hpos => ((hnext s hs).2 hpos).2, ?_⟩
    · obtain ⟨hunset, hplace⟩ := hnext s hs
      by_cases hpos : 0 ≤ (env.cycle rp boundary first ((env.cycle rp boundary first)^[n] (env.initSim start))).stateVector s
      · exact .inr (hplace hpos).1.2
      · exact .inl (by omega)
    · rw [hrunning]
      have hcount : env.active (env.cycle rp boundary first ((env.cycle rp boundary first)^[n] (env.initSim start))).stateVector ≤
          env.dfa.maxStates := (List.length_filter_le _ _).trans_eq List.length_range
      exact ⟨by omega, by omega⟩

/-- Loop states by their part that matters. -/
def code (env : EvalEnv C A R) (sim : Sim) : (Fin env.dfa.maxStates → ℤ × RefTab) × ℤ × Bool × Bool :=
  (fun s => (sim.stateVector s, if 0 ≤ sim.stateVector s then sim.reftabVector s else RefTab.reset), sim.runningStates,
    decide (sim.winner < 0), sim.firstTransitionTraversed)

theorem ends_iff_not_recurs
    (hdelete : env.DeletesOnly) :
    Loops.Ends env.GoesOn (env.cycle rp boundary first) (env.initSim start) ↔ ¬env.StateRecurs rp boundary first start := by
  refine ⟨fun hends hrec => hrec.not_ends (fun _ _ h => h.cycle _ _ _) (fun _ _ h => h.goesOn) hends, fun hno => ?_⟩
  by_contra hends
  apply hno
  have hfinite : {c : (Fin env.dfa.maxStates → ℤ × RefTab) × ℤ × Bool × Bool |
      c.1 ∈ {f | ∀ s, f s ∈ insert (-1) (Set.Icc start (lastPlace boundary start)) ×ˢ env.tables boundary start} ∧
        c.2 ∈ Set.Icc (0 : ℤ) env.dfa.maxStates ×ˢ (Set.univ : Set (Bool × Bool))}.Finite :=
    (Set.Finite.pi' fun _ => ((Set.finite_Icc _ _).insert _).prod finite_tables).prod ((Set.finite_Icc _ _).prod Set.finite_univ)
  apply Loops.recurs_of_not_ends env.code hfinite _ _ hends
  · intro n hrun
    obtain ⟨hstates, htables, hrunning⟩ := bounded_iterate hdelete hrun
    refine ⟨fun s => ⟨hstates s s.2, ?_⟩, hrunning, Set.mem_univ _⟩
    dsimp only [code]
    split_ifs with hpos
    · exact htables s s.2 hpos
    · exact fun _ => .inl rfl
  · intro n m _ _ heq
    obtain ⟨hentries, hrest⟩ := Prod.mk.inj heq
    obtain ⟨hrunning, hrest⟩ := Prod.mk.inj hrest
    obtain ⟨hwinner, htraversed⟩ := Prod.mk.inj hrest
    have hentry := fun s (hs : s < env.dfa.maxStates) => Prod.mk.inj (congrFun hentries ⟨s, hs⟩)
    refine ⟨fun s hs => (hentry s hs).1, fun s hs hpos => ?_, decide_eq_decide.mp hwinner, hrunning, htraversed⟩
    have hlabels := (hentry s hs).2
    dsimp only at hlabels
    rwa [← (hentry s hs).1, if_pos hpos, if_pos hpos] at hlabels

/-! ## Zero-width cycles -/

section Acyclic

variable (env rp boundary) in
/-- A run moves over a zero-width element or a token. -/
def PlaceMove (x y : ℕ × ℤ) : Prop := env.ZeroWidthMove rp boundary x y ∨ y.2 = x.2 + 1

theorem transGen_placeMove {x y : ℕ × ℤ} (h : Relation.TransGen (env.PlaceMove rp boundary) x y) :
    x.2 ≤ y.2 ∧ (x.2 = y.2 → Relation.TransGen (env.ZeroWidthMove rp boundary) x y) := by
  have hstep : ∀ {x y : ℕ × ℤ}, env.PlaceMove rp boundary x y → x.2 ≤ y.2 ∧ (x.2 = y.2 → env.ZeroWidthMove rp boundary x y) :=
    fun {x y} h => by
      rcases h with hmove | hmove
      · have heq : y.2 = x.2 := by
          obtain ⟨_, -, -, -, rfl, -⟩ := hmove
          rfl
        exact ⟨heq.ge, fun _ => hmove⟩
      · exact ⟨by omega, fun heq => by omega⟩
  induction h with
  | single h => exact ⟨(hstep h).1, fun heq => .single ((hstep h).2 heq)⟩
  | tail _ h ih =>
    obtain ⟨hle, hmove⟩ := hstep h
    exact ⟨ih.1.trans hle, fun heq => (ih.2 (by omega)).tail (hmove (by omega))⟩

variable (env boundary start) in
/-- The places that the loop can reach. -/
noncomputable def box : Finset (ℕ × ℤ) := Finset.range env.dfa.maxStates ×ˢ Finset.Icc start (lastPlace boundary start)

theorem mem_box {x : ℕ × ℤ} : x ∈ env.box boundary start ↔ env.InReach boundary start x := by
  unfold box InReach
  rw [Finset.mem_product, Finset.mem_range, Finset.mem_Icc, Set.mem_Icc]

theorem leads_walk (n : ℕ) : Leads env rp boundary first (Acyclic.Walk (env.PlaceMove rp boundary) (env.box boundary start) n)
    (Acyclic.Walk (env.PlaceMove rp boundary) (env.box boundary start) (n + 1)) Set.univ true := by
  refine ⟨fun _ _ _ _ _ _ _ _ _ => Set.mem_univ _, fun s hs p hp cpos _ rt _ hwalk labels hlabels => ⟨?_, Set.mem_univ _⟩⟩
  have hplace : env.InReach boundary start (s, cpos) := by
    cases hwalk with
    | nil hx => exact mem_box.mp hx
    | cons _ _ hy => exact mem_box.mp hy
  obtain ⟨htarget, hrange, hlabels⟩ := evaluate_cases hlabels
  have hholds := hlabels.resolve_left fun h => by cases h.1
  apply hwalk.cons _ (mem_box.mpr (arrive_within hs hp htarget hplace.2 hrange labels))
  change env.PlaceMove rp boundary (s, cpos) (env.dfa.transTable s p, if (env.patternlist p).zeroWidth then cpos else cpos + 1)
  split_ifs with hzero
  · exact .inl ⟨p, hp, hzero, htarget, rfl, rt, hrange, Option.isSome_iff_exists.mpr ⟨labels, hholds⟩⟩
  · exact .inr rfl

/-- After `n + 1` rounds each active state is the end of a walk of `n` moves. -/
structure Walked (env : EvalEnv C A R) (rp : ℕ) (boundary start : ℤ) (n : ℕ) (sim : Sim) : Prop where
  places : ∀ s < env.dfa.maxStates, 0 ≤ sim.stateVector s →
    Acyclic.Walk (env.PlaceMove rp boundary) (env.box boundary start) n (s, sim.stateVector s)
  running : sim.runningStates = env.active sim.stateVector
  traversed : sim.firstTransitionTraversed = true

theorem walked_iterate (hrun : ∀ n, env.GoesOn ((env.cycle rp boundary first)^[n] (env.initSim start))) (n : ℕ) :
    env.Walked rp boundary start n ((env.cycle rp boundary first)^[n + 1] (env.initSim start)) := by
  have hgo := hrun (n + 1)
  induction n with
  | zero =>
    rw [Function.iterate_succ_apply'] at hgo ⊢
    have hstart : ∀ s < env.dfa.maxStates, 0 ≤ (env.initSim start).stateVector s →
        env.InReach boundary start (s, (env.initSim start).stateVector s) ∧ (env.initSim start).reftabVector s ∈ Set.univ :=
      fun s hs hpos => by
        refine ⟨⟨hs, ?_⟩, Set.mem_univ _⟩
        by_cases hzero : s = 0
        · rw [hzero]
          exact ⟨le_rfl, le_max_left _ _⟩
        · simp [initSim, hzero] at hpos
    have hleads : Leads env rp boundary first (env.InReach boundary start)
        (Acyclic.Walk (env.PlaceMove rp boundary) (env.box boundary start) 0) Set.univ false := by
      refine ⟨fun _ _ _ _ _ _ _ _ _ => Set.mem_univ _, fun s hs p hp cpos _ rt _ hplace labels hlabels => ⟨?_, Set.mem_univ _⟩⟩
      obtain ⟨htarget, hrange, -⟩ := evaluate_cases hlabels
      exact .nil (mem_box.mpr (arrive_within hs hp htarget hplace.2 hrange labels))
    obtain ⟨hnext, hrunning, htraversed⟩ := cycle_places hleads hstart hgo.1 hgo.2
    exact ⟨fun s hs hpos => ((hnext s hs).2 hpos).1, hrunning, htraversed⟩
  | succ n ih =>
    obtain ⟨hplaces, -, htraversed⟩ := ih (hrun (n + 1))
    rw [Function.iterate_succ_apply'] at hgo ⊢
    obtain ⟨hnext, hrunning, htraversed⟩ := cycle_places (htraversed ▸ leads_walk n)
      (fun s hs hpos => ⟨hplaces s hs hpos, Set.mem_univ _⟩) hgo.1 hgo.2
    exact ⟨fun s hs hpos => ((hnext s hs).2 hpos).1, hrunning, htraversed⟩

theorem ends_of_acyclic (hno : ∀ x, ¬Relation.TransGen (env.ZeroWidthMove rp boundary) x x) :
    Loops.Ends env.GoesOn (env.cycle rp boundary first) (env.initSim start) := by
  have hcycle : ∀ x, ¬Relation.TransGen (env.PlaceMove rp boundary) x x := fun x h => hno x ((transGen_placeMove h).2 rfl)
  by_contra hends
  have hrun : ∀ n, env.GoesOn ((env.cycle rp boundary first)^[n] (env.initSim start)) := fun n => by
    by_contra hn
    exact hends ⟨n, hn⟩
  obtain ⟨hplaces, hrunning, -⟩ := walked_iterate hrun (env.box boundary start).card
  have hactive := (hrun ((env.box boundary start).card + 1)).2
  rw [hrunning] at hactive
  obtain ⟨s, hs, hpos⟩ := exists_active _ env.dfa.maxStates (Int.natCast_pos.mp hactive)
  exact lt_irrefl _ ((hplaces s hs hpos).lt_card hcycle)

end Acyclic

end EvalEnv

/-- The automaton of `(<s> </s>)+ "x"`. -/
def emptyRegionsDFA : DFA where
  maxStates := 4
  maxInput := 3
  transTable s p := match s, p with
    | 0, 0 | 2, 0 => 1
    | 1, 1 => 2
    | 2, 2 => 3
    | _, _ => 4
  eState := 4
  final s := s == 3
  hasStart := by decide
  closed := by decide

/-- Each of the two tokens is a region of `s`, so that one ends where the next begins. -/
def emptyRegionsQuery : EvalEnv ℕ Unit Unit where
  corpus := sampleCorpus [1, 1] [(0, 0), (1, 1)]
  queryCorpus := { type := .system, range := [⟨0, 1, -1, -1⟩] }
  patternlist p := match p with
    | 0 => .tag false () none none false none
    | 1 => .tag true () none none false none
    | _ => .pattern none 9 .isNotTarget false
  dfa := emptyRegionsDFA
  searchContext := .word 100
  matchingStrategy := .standardMatch

/-- The loop state in which the run stands in the state `s` at the second token. -/
def emptyRegionsSim (s : ℕ) : Sim where
  stateVector := Function.update (fun _ => -1) s 1
  targetVector := fun _ => -1
  reftabVector := fun _ => RefTab.reset.set 2 1
  reftabTargetVector := fun _ => RefTab.reset.set 2 1
  runningStates := 1
  winner := -1
  myTarget := -1
  myKeyword := -1
  firstTransitionTraversed := true
  evaluationIsRunning := true

end CWB
