import CWB.Spec.CorpusList

/-! The evaluation environment of `cqp/eval.h` and the simulation of the query
automaton in `cqp/eval.c` (`eval_constraint` and `simulate`). The constraint
evaluator and the corpus library are parameters. Label tables and state vectors
are functions of the label or state number, -1 standing for an unset cell. -/

namespace CWB

abbrev RefTab := ℕ → ℤ

def RefTab.reset : RefTab := fun _ => -1

def RefTab.set (rt : RefTab) (ref : ℕ) (cpos : ℤ) : RefTab := Function.update rt ref cpos

/-- Set a label that may be NULL. -/
def RefTab.setLabel (rt : RefTab) (label : Option ℕ) (cpos : ℤ) : RefTab :=
  match label with
  | none => rt
  | some ref => rt.set ref cpos

/-- The automaton of `regex2dfa`. State 0 is the start; the error state has no row. -/
structure DFA where
  maxStates : ℕ
  maxInput : ℕ
  transTable : ℕ → ℕ → ℕ
  eState : ℕ
  final : ℕ → Bool
  hasStart : 0 < maxStates
  closed : ∀ s < maxStates, ∀ p < maxInput, transTable s p ≠ eState → transTable s p < maxStates

inductive TargetNature where
  | isNotTarget | isTarget | isKeyword
deriving Repr, DecidableEq

inductive AnchorField where
  | matchField | matchEndField | targetField | keywordField
deriving Repr, DecidableEq

inductive MatchingStrategy where
  | traditional | shortestMatch | standardMatch | longestMatch
deriving Repr, DecidableEq

/-- The element of a query that a transition of the automaton stands for
(`C`: constraint trees, `A`: structural attributes, `R`: compiled regexes). -/
inductive AVS (C A R : Type) where
  | matchAll (label : Option ℕ) (target : TargetNature) (lookahead : Bool)
  | pattern (label : Option ℕ) (constraint : C) (target : TargetNature) (lookahead : Bool)
  | tag (isClosing : Bool) (attr : A) (constraint : Option String) (rx : Option R)
      (negated : Bool) (rightBoundary : Option ℕ)
  | anchor (field : AnchorField) (isClosing : Bool)

/-- `search_context`, the `within` clause of the query. -/
inductive Context (A : Type) where
  | word (size : ℤ)
  | structure (attrib : A) (size : ℤ)

/-- What the evaluation asks of the corpus library and of the constraint evaluator.
`evalBool` also returns the label table, from which it may delete labels. -/
structure Corpus (C A R : Type) where
  size : ℕ
  evalBool : C → RefTab → ℤ → Bool × RefTab
  cpos2struc : A → ℤ → Option ℕ
  struc2cpos : A → ℕ → ℤ × ℤ
  struc2str : A → ℕ → Option String
  maxStruc : A → ℕ
  regexMatch : R → String → Bool
  /-- `calculate_initial_matchlist`, `none` for failure -/
  calculateInitialMatchlist : C → CorpusList → Option (List ℤ)

structure EvalEnv (C A R : Type) where
  corpus : Corpus C A R
  queryCorpus : CorpusList
  patternlist : ℕ → AVS C A R
  gconstraint : Option C := none
  dfa : DFA
  hasTargetIndicator : Bool := false
  hasKeywordIndicator : Bool := false
  targetLabel : ℕ := 0
  keywordLabel : ℕ := 1
  matchLabel : ℕ := 2
  matchendLabel : ℕ := 3
  /-- the labels flagged `LAB_RDAT`, `LAB_DEFINED` and `LAB_USED` -/
  rdatLabels : List ℕ := []
  searchContext : Context A
  matchingStrategy : MatchingStrategy
  strictRegions : Bool := false

variable {C A R : Type}

namespace AVS

def lookahead : AVS C A R → Bool
  | matchAll _ _ l | pattern _ _ _ l => l
  | tag .. | anchor .. => false

/-- Tags, anchors and lookahead constraints read no token. -/
def zeroWidth : AVS C A R → Bool
  | c@(matchAll ..) | c@(pattern ..) => c.lookahead
  | tag .. | anchor .. => true

def isClosing : AVS C A R → Bool
  | matchAll .. | pattern .. => false
  | tag c .. | anchor _ c => c

def label : AVS C A R → Option ℕ
  | matchAll l .. | pattern l .. => l
  | tag .. | anchor .. => none

def target : AVS C A R → TargetNature
  | matchAll _ t _ | pattern _ _ t _ => t
  | tag .. | anchor .. => .isNotTarget

/-- A closing tag or anchor refers to the token before the current position. -/
def effectiveCpos (c : AVS C A R) (cpos : ℤ) : ℤ := if c.isClosing then cpos - 1 else cpos

end AVS

namespace EvalEnv

variable (env : EvalEnv C A R)

def longest : Bool := env.matchingStrategy == .longestMatch

/-- The annotation of a region against the constraint of a start tag. A region
without annotation fails, which a negated tag turns into success. -/
def tagValueOk (attr : A) (struc : ℕ) (constraint : Option String) (rx : Option R)
    (negated : Bool) : Bool :=
  match constraint with
  | none => true
  | some text =>
    let result := match env.corpus.struc2str attr struc with
      | none => false
      | some val => match rx with
        | some rx => env.corpus.regexMatch rx val
        | none => text == val
    if negated then !result else result

def anchorCpos (field : AnchorField) (rp : ℕ) : ℤ :=
  let line := env.queryCorpus.range.getD rp ⟨-1, -1, -1, -1⟩
  match field with
  | .matchField => line.start
  | .matchEndField => line.stop
  | .targetField => line.target
  | .keywordField => line.keyword

/-- `eval_constraint`: the label table of the target state, if the element holds at
`corppos`, and the table of the current state, from which labels may be deleted. -/
def evalConstraint (rp : ℕ) (avs : AVS C A R) (corppos : ℤ) (labelrefs : RefTab) :
    Option RefTab × RefTab :=
  match avs with
  | .tag false attr constraint rx negated rightBoundary =>
    match env.corpus.cpos2struc attr corppos with
    | none => (none, labelrefs)
    | some struc =>
      let (start, stop) := env.corpus.struc2cpos attr struc
      if corppos = start ∧ env.tagValueOk attr struc constraint rx negated then
        (some (if env.strictRegions then labelrefs.setLabel rightBoundary stop else labelrefs),
          labelrefs)
      else (none, labelrefs)
  | .tag true attr _ _ _ rightBoundary =>
    match env.corpus.cpos2struc attr corppos with
    | none => (none, labelrefs)
    | some struc =>
      let (_, stop) := env.corpus.struc2cpos attr struc
      let regionOk : Bool := match env.strictRegions, rightBoundary with
        | true, some ref => !(labelrefs ref < 0 || corppos ≠ labelrefs ref)
        | _, _ => true
      if corppos = stop ∧ regionOk then
        (some (if env.strictRegions then labelrefs.setLabel rightBoundary (-1) else labelrefs),
          labelrefs)
      else (none, labelrefs)
  | .anchor field _ =>
    let anchor := env.anchorCpos field rp
    if anchor ≥ 0 ∧ anchor = corppos then (some labelrefs, labelrefs) else (none, labelrefs)
  | .pattern label constraint _ _ =>
    let (result, labelrefs) := env.corpus.evalBool constraint labelrefs corppos
    if result then (some (labelrefs.setLabel label corppos), labelrefs) else (none, labelrefs)
  | .matchAll label _ _ => (some (labelrefs.setLabel label corppos), labelrefs)

/-- In strict regions mode no token behind the end of an open region is read. -/
def strictRegionsOk (labelrefs : RefTab) (effectiveCpos : ℤ) : Bool :=
  !env.strictRegions ||
    env.rdatLabels.all fun ref => !(labelrefs ref ≥ 0 && effectiveCpos > labelrefs ref)

def inRange (boundary : ℤ) (avs : AVS C A R) (labelrefs : RefTab) (cpos : ℤ) : Bool :=
  let effective := avs.effectiveCpos cpos
  (effective ≤ boundary || (avs.lookahead && effective = boundary + 1)) &&
    env.strictRegionsOk labelrefs effective

/-- The first transition from the start state: its element is known to hold, since the
initial matchlist was built from it, so only the labels are set. -/
def skipConstraint (avs : AVS C A R) (corppos : ℤ) (labelrefs : RefTab) : RefTab :=
  let labelrefs := labelrefs.setLabel avs.label corppos
  match avs with
  | .tag false attr _ _ _ rightBoundary =>
    match env.strictRegions, env.corpus.cpos2struc attr corppos with
    | true, some struc => labelrefs.setLabel rightBoundary (env.corpus.struc2cpos attr struc).2
    | _, _ => labelrefs
  | _ => labelrefs

def setTarget (avs : AVS C A R) (cpos : ℤ) (labelrefs : RefTab) : RefTab :=
  match avs.target with
  | .isNotTarget => labelrefs
  | .isTarget => labelrefs.set env.targetLabel (avs.effectiveCpos cpos)
  | .isKeyword => labelrefs.set env.keywordLabel (avs.effectiveCpos cpos)

/-- The end of a match whose last transition leaves from `cpos`. -/
def matchEnd (avs : AVS C A R) (cpos : ℤ) : ℤ := if avs.zeroWidth then cpos - 1 else cpos

/-- Is the match complete in `target`? The global constraint sees the label `matchend`,
which is deleted again. -/
def checkWinner (avs : AVS C A R) (cpos : ℤ) (target : ℕ) (labelrefs : RefTab) :
    Bool × RefTab :=
  if env.dfa.final target then
    match env.gconstraint with
    | none => (true, labelrefs)
    | some g =>
      let (ok, labelrefs) :=
        env.corpus.evalBool g (labelrefs.set env.matchendLabel (matchEnd avs cpos)) (-1)
      (ok, labelrefs.set env.matchendLabel (-1))
  else (false, labelrefs)

end EvalEnv

/-- The variables of the simulation for one start position. -/
structure Sim where
  stateVector : ℕ → ℤ
  targetVector : ℕ → ℤ
  reftabVector : ℕ → RefTab
  reftabTargetVector : ℕ → RefTab
  runningStates : ℤ
  winner : ℤ
  myTarget : ℤ
  myKeyword : ℤ
  firstTransitionTraversed : Bool
  evaluationIsRunning : Bool

namespace EvalEnv

variable (env : EvalEnv C A R)

/-- No winner yet, or the strategy asks for a longer one. -/
def searching (sim : Sim) : Bool := sim.winner < 0 || env.longest

/-- The part of the transition loop after the element has been found to hold. -/
def takeTransition (avs : AVS C A R) (cpos : ℤ) (target : ℕ) (labelrefs : RefTab)
    (sim : Sim) : Sim :=
  let (wins, labelrefs) := env.checkWinner avs cpos target (env.setTarget avs cpos labelrefs)
  let sim := { sim with reftabTargetVector := Function.update sim.reftabTargetVector target labelrefs }
  let sim := if wins then
    { sim with
      winner := matchEnd avs cpos
      myTarget := if env.hasTargetIndicator then labelrefs env.targetLabel else sim.myTarget
      myKeyword := if env.hasKeywordIndicator then labelrefs env.keywordLabel else sim.myKeyword }
    else sim
  if !wins || env.longest then
    { sim with targetVector :=
        Function.update sim.targetVector target (if avs.zeroWidth then cpos else cpos + 1) }
  else sim

/-- The body of the loop over the transitions `p` of an active state. `first` is
`start_transition`, `none` for -1. -/
def transitionStep (rp : ℕ) (boundary : ℤ) (first : Option ℕ) (state : ℕ) (sim : Sim) (p : ℕ) :
    Sim :=
  let cpos := sim.stateVector state
  let target := env.dfa.transTable state p
  let avs := env.patternlist p
  let labelrefs := sim.reftabVector state
  if env.searching sim ∧ target ≠ env.dfa.eState ∧ env.inRange boundary avs labelrefs cpos then
    match state, first, sim.firstTransitionTraversed with
    | 0, some q, false =>
      if q = p then
        env.takeTransition avs cpos target
          (env.skipConstraint avs (avs.effectiveCpos cpos) labelrefs) sim
      else sim
    | _, _, _ =>
      let (result, labelrefs) := env.evalConstraint rp avs (avs.effectiveCpos cpos) labelrefs
      let sim := { sim with reftabVector := Function.update sim.reftabVector state labelrefs }
      match result with
      | none => sim
      | some labelrefs => env.takeTransition avs cpos target labelrefs sim
  else sim

/-- The body of the loop over the states. -/
def stateStep (rp : ℕ) (boundary : ℤ) (first : Option ℕ) (sim : Sim) (state : ℕ) : Sim :=
  if env.searching sim ∧ sim.runningStates > 0 ∧ sim.stateVector state ≥ 0 then
    (List.range env.dfa.maxInput).foldl (env.transitionStep rp boundary first state)
      { sim with runningStates := sim.runningStates - 1 }
  else sim

def active (v : ℕ → ℤ) : ℕ := ((List.range env.dfa.maxStates).filter fun s => v s ≥ 0).length

/-- The end of a cycle: the vectors are swapped if the search goes on. -/
def swapVectors (sim : Sim) : Sim :=
  if env.searching sim then
    { sim with
      runningStates := env.active sim.targetVector
      stateVector := sim.targetVector
      targetVector := sim.stateVector
      reftabVector := sim.reftabTargetVector
      reftabTargetVector := sim.reftabVector }
  else sim

/-- The test for an infinite loop: equal vectors stop the whole evaluation. -/
def checkFixpoint (sim : Sim) : Sim :=
  if ∀ s < env.dfa.maxStates, sim.stateVector s = sim.targetVector s then
    { sim with runningStates := 0, evaluationIsRunning := false }
  else sim

/-- One pass of the main loop of `simulate`. -/
def cycle (rp : ℕ) (boundary : ℤ) (first : Option ℕ) (sim : Sim) : Sim :=
  let sim := { sim with targetVector := fun _ => -1 }
  let sim := (List.range env.dfa.maxStates).foldl (env.stateStep rp boundary first) sim
  env.checkFixpoint (env.swapVectors { sim with firstTransitionTraversed := true })

/-- The main loop; `none` if it is still running when the fuel is used up. -/
def runCycles (rp : ℕ) (boundary : ℤ) (first : Option ℕ) : ℕ → Sim → Option Sim
  | 0, _ => none
  | fuel + 1, sim =>
    if env.searching sim ∧ sim.runningStates > 0 then
      runCycles rp boundary first fuel (env.cycle rp boundary first sim)
    else some sim

/-- The vectors before the first cycle: only the start state is active. -/
def initSim (start : ℤ) : Sim where
  stateVector := Function.update (fun _ => -1) 0 start
  targetVector := fun _ => -1
  reftabVector := Function.update (fun _ => RefTab.reset) 0 (RefTab.reset.set env.matchLabel start)
  reftabTargetVector := fun _ => RefTab.reset
  runningStates := 1
  winner := -1
  myTarget := -1
  myKeyword := -1
  firstTransitionTraversed := false
  evaluationIsRunning := true

/-- The simulation from one element of the matchlist. -/
def simulateFrom (rp : ℕ) (boundary : ℤ) (first : Option ℕ) (start : ℤ) (fuel : ℕ) : Option Sim :=
  env.runCycles rp boundary first fuel (env.initSim start)

/-- Is the result of the simulation a match? Empty matches are ignored. -/
def reports (start : ℤ) (sim : Sim) : Bool := sim.winner ≥ 0 && sim.winner ≥ start

end EvalEnv

end CWB
