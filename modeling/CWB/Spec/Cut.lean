import CWB.Library.Ranked
import CWB.Spec.Query

/-! What a query with `cut` sees of the matches of its automaton. The simulation stops
after `n` matches of each initial pattern, and only then the matching strategy deletes
matches; `CutSafe` says when the matches left out make no difference. -/

namespace CWB

variable {C A R : Type}

/-- What the filter of a matching strategy leaves of a set of matches. -/
def Keeps (strategy : MatchingStrategy) (X : Set (ℤ × ℤ)) (x : ℤ × ℤ) : Prop :=
  match strategy with
  | .traditional => x ∈ X
  | .shortestMatch => x ∈ X ∧ ∀ y ∈ X, Inside y x → y = x
  | .longestMatch => x ∈ X ∧ ∀ y ∈ X, Inside x y → y = x
  | .standardMatch => (x ∈ X ∧ ∀ y ∈ X, y.1 = x.1 → x.2 ≤ y.2) ∧
      ∀ y, (y ∈ X ∧ ∀ z ∈ X, z.1 = y.1 → y.2 ≤ z.2) → y.2 = x.2 → x.1 ≤ y.1

namespace EvalEnv

variable (env : EvalEnv C A R)

/-- `starts` are the start positions for the initial transition `p`. -/
def InitialStarts (p : ℕ) (starts : List ℤ) : Prop :=
  p < env.dfa.maxInput ∧ env.dfa.transTable 0 p ≠ env.dfa.eState ∧
    env.matchfirstpattern (env.patternlist p) = some starts

/-- The range a start position lies in: the first one that does not end before it. -/
structure LooksAt (s : ℤ) (rp : ℕ) (r : Match) : Prop where
  get : env.queryCorpus.range[rp]? = some r
  passed : ∀ j < rp, ∀ r', env.queryCorpus.range[j]? = some r' → r'.stop < s
  start : r.start ≤ s
  stop : s ≤ r.stop

/-- The right boundary of the simulation from `s` inside the range `r`. -/
def boundary (s : ℤ) (r : Match) : ℤ := min (env.calculateRightboundary s) r.stop

/-- The automaton, started at `x.1` for the initial transition `p`, finds the end `x.2`.
A query that matches the empty string is refused and finds nothing. -/
def Finds (p : ℕ) (x : ℤ × ℤ) : Prop :=
  env.dfa.final 0 = false ∧ ∃ starts rp r sim fuel, env.InitialStarts p starts ∧ x.1 ∈ starts ∧
    env.LooksAt x.1 rp r ∧ env.boundary x.1 r ≠ -1 ∧
    env.simulateFrom rp (env.boundary x.1 r) (some p) x.1 fuel = some sim ∧
    reports x.1 sim = true ∧ sim.winner = x.2

/-- all matches of the automaton -/
def Raw : Set (ℤ × ℤ) := {x | ∃ p, env.Finds p x}

/-- the first `n` matches of each initial pattern -/
def Early (n : ℕ) : Set (ℤ × ℤ) := {x | ∃ p, env.Finds p x ∧ Ranked.rank PairLt (env.Finds p) x < n}

/-- The position of a match among those that the strategy keeps of all matches. -/
noncomputable def place (x : ℤ × ℤ) : ℕ :=
  Ranked.rank PairLt (Keeps env.matchingStrategy env.Raw) x

/-- The first `n` matches that the strategy selects are selected from the early ones as
well, and an early match that it deletes only for the sake of later ones comes behind them. -/
def CutSafe (n : ℕ) : Prop :=
  (∀ x, Keeps env.matchingStrategy env.Raw x → env.place x < n →
    Keeps env.matchingStrategy (env.Early n) x) ∧
  ∀ x, Keeps env.matchingStrategy (env.Early n) x → ¬Keeps env.matchingStrategy env.Raw x →
    n ≤ env.place x

/-- The query is evaluated without interruption: every initial pattern has a list of start
positions in ascending order, and the infinite-loop check stops no simulation. -/
structure Completes (fuel : ℕ) : Prop where
  ranges : ∀ r ∈ env.queryCorpus.range, r.start ≤ r.stop
  initial : ∀ p < env.dfa.maxInput, env.dfa.transTable 0 p ≠ env.dfa.eState →
    ∃ starts, env.matchfirstpattern (env.patternlist p) = some starts ∧
      starts.Pairwise (· < ·) ∧ ∀ s ∈ starts, 0 ≤ s
  simulations : ∀ p starts s rp r, env.InitialStarts p starts → s ∈ starts → env.LooksAt s rp r →
    env.boundary s r ≠ -1 →
    ∃ sim, env.simulateFrom rp (env.boundary s r) (some p) s fuel = some sim ∧
      sim.evaluationIsRunning = true

end EvalEnv

end CWB

/-! `cqp_run_query` with the option `hard_cut`, for queries with any number of alignment
constraints: `check_alignment_constraints` evaluates a constraint on the region that is aligned to a
match, in an environment of its own. -/

namespace CWB

variable {C A R : Type}

/-- An alignment constraint, with `cl_cpos2alg` and `cl_alg2cpos` on its alignment attribute, `none`
for an error; of a bead the bounds in the aligned corpus are used. -/
structure AlignmentConstraint (C A R : Type) where
  env : EvalEnv C A R
  cpos2alg : ℤ → Option ℤ
  alg2cpos : ℤ → Option (ℤ × ℤ)
  negated : Bool := false

namespace AlignmentConstraint

variable (c : AlignmentConstraint C A R)

/-- The region `as .. ae` from the bead of the start of a match to that of its end. -/
def alignedRegion (m : Match) : Option (ℤ × ℤ) := do
  let alg1 ← c.cpos2alg m.start
  let (as, _) ← c.alg2cpos alg1
  let alg2 ← c.cpos2alg m.stop
  let (_, ae) ← c.alg2cpos alg2
  if ae < as ∨ ae < 0 ∨ as < 0 then none else some (as, ae)

/-- One match and `EvaluationIsRunning`. Every position of the aligned region may be an initial
matchpoint, and one match is enough. -/
def checkMatch (fuel : ℕ) (m : Match) (running : Bool) : Option (Match × Bool) :=
  if m.start = -1 then some (m, running)
  else match c.alignedRegion m with
    | none => some (m.mark, running)
    | some (as, ae) =>
      let matchlist := (List.range (ae - as + 1).toNat).map fun i : ℕ =>
        ({ start := as + i, stop := as + i } : Match)
      (c.env.simulate none fuel matchlist 0 1 running).map fun out =>
        (if out.1.any (fun x => x.start ≠ -1) = c.negated then m.mark else m, out.2)

def checkMatches (fuel : ℕ) : List Match → Bool → Option (List Match × Bool)
  | [], running => some ([], running)
  | m :: ms, running =>
    (c.checkMatch fuel m running).bind fun out =>
      (checkMatches fuel ms out.2).map fun out' => (out.1 :: out'.1, out'.2)

end AlignmentConstraint

/-- `check_alignment_constraints` marks the matches that some constraint rejects. -/
def checkAlignmentConstraints (fuel : ℕ) :
    List (AlignmentConstraint C A R) → List Match → Bool → Option (List Match)
  | [], ms, _ => some ms
  | c :: cs, ms, running =>
    (c.checkMatches fuel ms running).bind fun out => checkAlignmentConstraints fuel cs out.1 out.2

namespace EvalEnv

variable (env : EvalEnv C A R)

/-- `trans_count`, the number of alternative initial patterns. -/
def transCount : ℕ :=
  ((List.range env.dfa.maxInput).filter fun p => env.dfa.transTable 0 p ≠ env.dfa.eState).length

/-- `simulate_dfa`. A query with alignment constraints (`eep > 0`) runs to completion whatever the
cut, since they remove an unpredictable number of matches. -/
def simulateAlignedDfa (alignments : List (AlignmentConstraint C A R)) (cut : ℤ)
    (keepOldRanges : Bool) (fuel : ℕ) : Option CorpusList :=
  if env.dfa.final 0 then some (setCorpusMatchlists env.queryCorpus {} false)
  else if env.queryCorpus.size = 0 then some env.queryCorpus
  else
    (env.initialLoop (if cut ≤ 0 ∨ alignments.length > 0 then -1 else cut) fuel (env.transCount = 1)
        (List.range env.dfa.maxInput) {}).bind fun total =>
      (checkAlignmentConstraints fuel alignments total.tab true).map fun tab =>
        setCorpusMatchlists env.queryCorpus (setopReduce { total with tab := tab }) keepOldRanges

def cqpRunAlignedQuery (alignments : List (AlignmentConstraint C A R)) (hardCut cut : ℤ)
    (keepOldRanges : Bool) (fuel : ℕ) : Option CorpusList :=
  env.simulateAlignedDfa alignments (if hardCut > 0 ∧ hardCut < cut then hardCut else cut)
    keepOldRanges fuel

end EvalEnv

end CWB

/-! Subqueries that begin with an anchor, as `<target> [] []`. The match list is built in the order of the ranges, not of the
positions, and `simulate` passes the ranges only once. It takes for granted that the first element holds, with whatever range
the position lies in. -/

namespace CWB

variable {C A R : Type}

namespace EvalEnv

variable (env : EvalEnv C A R)

/-- The anchor of a range, as `matchfirstpattern` puts it into the match list. -/
def startAnchor (field : AnchorField) (isClosing : Bool) (i : ℕ) : ℤ :=
  let cpos := env.anchorCpos field i
  if isClosing && cpos ≥ 0 then cpos + 1 else cpos

/-- The simulation in the range `r` with the number `i` finds a match that starts at `p`. -/
def AcceptsAt (first i : ℕ) (r : Match) (p : ℤ) : Prop :=
  env.boundary p r ≠ -1 ∧ ∃ fuel sim, env.simulateFrom i (env.boundary p r) (some first) p fuel = some sim ∧
    reports p sim = true

/-- A query on a subcorpus with disjoint, ascending ranges whose only initial transition is an anchor. The anchors are there,
and no simulation is stopped or runs out of fuel. -/
structure AnchorQuery (first : ℕ) (field : AnchorField) (isClosing : Bool) (fuel : ℕ) : Prop where
  lt : first < env.dfa.maxInput
  initial : ∀ p < env.dfa.maxInput, env.dfa.transTable 0 p ≠ env.dfa.eState ↔ p = first
  element : env.patternlist first = .anchor field isClosing
  nonempty : env.dfa.final 0 = false
  range : ∀ r ∈ env.queryCorpus.range, 0 ≤ r.start ∧ r.start ≤ r.stop
  disjoint : env.queryCorpus.range.Pairwise fun a b => a.stop < b.start
  targets : field = .targetField → env.queryCorpus.targets = true
  keywords : field = .keywordField → env.queryCorpus.keywords = true
  completes : ∀ (i : ℕ) r p, env.queryCorpus.range[i]? = some r → r.start ≤ p → p ≤ r.stop → env.boundary p r ≠ -1 →
    ∃ sim, env.simulateFrom i (env.boundary p r) (some first) p fuel = some sim ∧ sim.evaluationIsRunning = true

/-- A match that starts at `p` is reported exactly if `p` is the anchor of the range that it lies in, and the automaton accepts
from there. -/
def ExactAnchors (first : ℕ) (field : AnchorField) (isClosing : Bool) (res : CorpusList) : Prop :=
  ∀ p, (∃ e, (p, e) ∈ res.pairs) ↔ ∃ i r, env.queryCorpus.range[i]? = some r ∧ (r.start ≤ p ∧ p ≤ r.stop) ∧
    p = env.startAnchor field isClosing i ∧ env.AcceptsAt first i r p

/-- Among the anchors in the order of the ranges, `p` comes before all that lie behind `stop`. -/
def ComesInTime (anchors : List ℤ) (p stop : ℤ) : Prop :=
  ∃ before after, anchors = before ++ p :: after ∧ ∀ a ∈ before, a ≤ stop

/-- Where the automaton accepts, the anchor of a range comes before all anchors that lie behind this range, and no other anchor
in the range does. -/
def AnchorsInOrder (first : ℕ) (field : AnchorField) (isClosing : Bool) : Prop :=
  ∀ (i : ℕ) r p, env.queryCorpus.range[i]? = some r → r.start ≤ p → p ≤ r.stop → env.AcceptsAt first i r p →
    (ComesInTime ((List.range env.queryCorpus.size).map (env.startAnchor field isClosing)) p r.stop ↔
      p = env.startAnchor field isClosing i)

end EvalEnv

end CWB
