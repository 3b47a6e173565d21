import CWB.Spec.Eval

/-! What a query means: the runs of its automaton over the corpus from one start
position. A run carries its own position and label table, and takes any transition
whose element holds there; nothing is shared between runs. -/

namespace CWB

/-- One point of a run: the state, the token it will read next and its labels. -/
structure Config where
  state : ℕ
  cpos : ℤ
  labels : RefTab

def Config.place (cfg : Config) : ℕ × ℤ := (cfg.state, cfg.cpos)

/-- A start position with the range it lies in, its right boundary and, unless all
initial transitions are tried at once, the initial transition it was found for. -/
structure Search where
  rp : ℕ
  boundary : ℤ
  first : Option ℕ
  start : ℤ

variable {C A R : Type}

namespace EvalEnv

variable (env : EvalEnv C A R) (q : Search)

/-- The next point of a run whose element held with the table `labels`, and whether the
run is then complete. -/
def arrive (avs : AVS C A R) (cpos : ℤ) (target : ℕ) (labels : RefTab) : Config × Bool :=
  let (wins, labels) := env.checkWinner avs cpos target (env.setTarget avs cpos labels)
  (⟨target, if avs.zeroWidth then cpos else cpos + 1, labels⟩, wins)

/-- A run goes on over the transition `p`. -/
def next (cfg : Config) (p : ℕ) : Option (Config × Bool) :=
  let avs := env.patternlist p
  let target := env.dfa.transTable cfg.state p
  if target ≠ env.dfa.eState ∧ env.inRange q.boundary avs cfg.labels cfg.cpos then
    (env.evalConstraint q.rp avs (avs.effectiveCpos cfg.cpos) cfg.labels).1.map
      (env.arrive avs cfg.cpos target)
  else none

def initConfig : Config := ⟨0, q.start, RefTab.reset.set env.matchLabel q.start⟩

/-- The transitions a run may take after `n` others. -/
def allowed (n p : ℕ) : Prop := p < env.dfa.maxInput ∧ (n = 0 → ∀ f, q.first = some f → p = f)

/-- The points that runs of `n` transitions lead to. -/
inductive Reach : ℕ → Config → Prop
  | init : Reach 0 (env.initConfig q)
  | step {n : ℕ} {cfg cfg' : Config} {p : ℕ} {wins : Bool} (h : Reach n cfg)
      (ha : env.allowed q n p) (hn : env.next q cfg p = some (cfg', wins)) : Reach (n + 1) cfg'

/-- A run of `n + 1` transitions is complete at `cfg`. -/
def Accepts (n : ℕ) (cfg : Config) : Prop :=
  ∃ prev p, env.Reach q n prev ∧ env.allowed q n p ∧ env.next q prev p = some (cfg, true)

/-- Some run moves from one state and position to another. -/
def Moves (x y : ℕ × ℤ) : Prop :=
  ∃ n cfg p cfg' wins, env.Reach q n cfg ∧ env.allowed q n p ∧
    env.next q cfg p = some (cfg', wins) ∧ cfg.place = x ∧ cfg'.place = y

/-! Queries over tokens only have a plainer meaning: a sequence of transitions is read
off the corpus, one token each. -/

/-- Does the element of transition `p` hold at `cpos`, no label being set? -/
def holds (p : ℕ) (cpos : ℤ) : Bool :=
  match env.patternlist p with
  | .matchAll .. => true
  | .pattern _ c _ _ => (env.corpus.evalBool c RefTab.reset cpos).1
  | .tag .. | .anchor .. => false

/-- No tags, anchors, lookahead, labels or global constraint. -/
structure TokenQuery : Prop where
  elements : ∀ p < env.dfa.maxInput, (∃ t, env.patternlist p = .matchAll none t false) ∨
    ∃ c t, env.patternlist p = .pattern none c t false
  unlabelled : ∀ c rt cpos,
    env.corpus.evalBool c rt cpos = ((env.corpus.evalBool c RefTab.reset cpos).1, rt)
  noRdat : env.rdatLabels = []
  noGconstraint : env.gconstraint = none

/-- The state that a sequence of transitions leads to. -/
def walk : ℕ → List ℕ → Option ℕ
  | s, [] => some s
  | s, p :: ps =>
    if p < env.dfa.maxInput ∧ env.dfa.transTable s p ≠ env.dfa.eState then
      walk (env.dfa.transTable s p) ps
    else none

/-- The transitions `ps` form an accepting path over the tokens from `start` on. -/
def AcceptingPath (start : ℤ) (ps : List ℕ) : Prop :=
  (∃ f, env.walk 0 ps = some f ∧ env.dfa.final f = true) ∧
    ∀ (i : ℕ) (p : ℕ), ps[i]? = some p → env.holds p (start + i) = true

/-- `e` is the last token of an accepting path that starts, where asked for, with the
initial transition and stays within the boundary. -/
def MatchEnd (e : ℤ) : Prop :=
  ∃ ps, env.AcceptingPath q.start ps ∧ (∀ f, q.first = some f → ps.head? = some f) ∧
    e = q.start + ps.length - 1 ∧ e ≤ q.boundary

end EvalEnv

end CWB

/-! The simulation of `cqp/eval.c` with a record of the accepting transitions that it takes. The
record counts for each active state the zero-width elements on the way to it; the variables of the
simulation are those of `simulate`. -/

namespace CWB

variable {C A R : Type}

namespace EvalEnv

variable (env : EvalEnv C A R)

/-- The test of the transition `p` from a state at `cpos`: the label table with which it is taken,
and the table that the state keeps. -/
def evaluate (rp : ℕ) (boundary : ℤ) (first : Option ℕ) (state : ℕ) (traversed : Bool) (cpos : ℤ) (labelrefs : RefTab)
    (p : ℕ) : Option RefTab × RefTab :=
  let avs := env.patternlist p
  if env.dfa.transTable state p ≠ env.dfa.eState ∧ env.inRange boundary avs labelrefs cpos then
    match state, first, traversed with
    | 0, some q, false =>
      (if q = p then some (env.skipConstraint avs (avs.effectiveCpos cpos) labelrefs) else none, labelrefs)
    | _, _, _ => env.evalConstraint rp avs (avs.effectiveCpos cpos) labelrefs
  else (none, labelrefs)

/-- The transition `p` of an active state with the label table with which it is taken. -/
def taken (rp : ℕ) (boundary : ℤ) (first : Option ℕ) (state : ℕ) (sim : Sim) (p : ℕ) : Option RefTab :=
  if env.searching sim then
    (env.evaluate rp boundary first state sim.firstTransitionTraversed (sim.stateVector state) (sim.reftabVector state) p).1
  else none

end EvalEnv

/-- An accepting transition: the rounds before it, the zero-width elements of the query that its
run has passed, the end of the match and the values of the target and keyword labels. -/
structure Accepting where
  round : ℕ
  zeroWidths : ℕ
  stop : ℤ
  target : ℤ
  keyword : ℤ

structure Trace where
  sim : Sim
  rounds : ℕ := 0
  /-- the zero-width elements on the way to the states of `stateVector` -/
  passed : ℕ → ℕ := fun _ => 0
  targetPassed : ℕ → ℕ := fun _ => 0
  accepted : List Accepting := []

namespace EvalEnv

variable (env : EvalEnv C A R) (rp : ℕ) (boundary : ℤ) (first : Option ℕ)

def traceTransition (state : ℕ) (t : Trace) (p : ℕ) : Trace :=
  let sim := env.transitionStep rp boundary first state t.sim p
  match env.taken rp boundary first state t.sim p with
  | none => { t with sim }
  | some labels =>
    let avs := env.patternlist p
    let cpos := t.sim.stateVector state
    let (cfg, wins) := env.arrive avs cpos (env.dfa.transTable state p) labels
    let passed := t.passed state + if avs.zeroWidth then 1 else 0
    { t with
      sim
      targetPassed := Function.update t.targetPassed cfg.state passed
      accepted :=
        if wins then
          t.accepted ++ [⟨t.rounds, passed, matchEnd avs cpos, cfg.labels env.targetLabel, cfg.labels env.keywordLabel⟩]
        else t.accepted }

def traceState (t : Trace) (state : ℕ) : Trace :=
  if env.searching t.sim ∧ t.sim.runningStates > 0 ∧ t.sim.stateVector state ≥ 0 then
    (List.range env.dfa.maxInput).foldl (env.traceTransition rp boundary first state)
      { t with sim := { t.sim with runningStates := t.sim.runningStates - 1 } }
  else t

def traceCycle (t : Trace) : Trace :=
  let t := { t with sim := { t.sim with targetVector := fun _ => -1 } }
  let t := (List.range env.dfa.maxStates).foldl (env.traceState rp boundary first) t
  { sim := env.checkFixpoint (env.swapVectors { t.sim with firstTransitionTraversed := true })
    rounds := t.rounds + 1
    passed := t.targetPassed
    targetPassed := t.passed
    accepted := t.accepted }

def traceCycles : ℕ → Trace → Option Trace
  | 0, _ => none
  | fuel + 1, t =>
    if env.searching t.sim ∧ t.sim.runningStates > 0 then traceCycles fuel (env.traceCycle rp boundary first t) else some t

def traceFrom (start : ℤ) (fuel : ℕ) : Option Trace := env.traceCycles rp boundary first fuel { sim := env.initSim start }

end EvalEnv

end CWB
