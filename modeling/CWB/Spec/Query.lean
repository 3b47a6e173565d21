import CWB.Spec.Runs

/-! A whole query: the initial match lists, the loop of `simulate` over one of them,
`simulate_dfa` over all initial transitions and `do_StandardQuery` with the matching
strategies. Queries with alignment constraints are left out (`eep` is 0). -/

namespace CWB

variable {C A R : Type}

namespace EvalEnv

variable (env : EvalEnv C A R)

/-- `calculate_ranges`: the context around a position, `none` if there is none. -/
def calculateRanges (cpos : ℤ) : Option (ℤ × ℤ) :=
  match env.searchContext with
  | .word d =>
    if d < 0 then none
    else some (max 0 (cpos - d), cpos + min d (env.corpus.size - 1 - cpos))
  | .structure attrib size =>
    if size - 1 < 0 then none
    else match env.corpus.cpos2struc attrib cpos with
      | none => none
      | some n =>
        let r1 : ℤ := max 0 (n - (size - 1))
        let r2 : ℤ := min ((env.corpus.maxStruc attrib : ℤ) - 1) (n + (size - 1))
        some ((env.corpus.struc2cpos attrib r1.toNat).1, (env.corpus.struc2cpos attrib r2.toNat).2)

def calculateRightboundary (cpos : ℤ) : ℤ :=
  match env.calculateRanges cpos with
  | none => -1
  | some r => r.2

/-- The start positions of a tag: the regions whose annotation fits. A region without
annotation never fits here, negated or not. -/
def tagStarts (isClosing : Bool) (attr : A) (constraint : Option String) (rx : Option R)
    (negated : Bool) : List ℤ :=
  ((List.range (env.corpus.maxStruc attr)).filter fun struc =>
      match constraint with
      | none => true
      | some text => match env.corpus.struc2str attr struc with
        | none => false
        | some val =>
          let ok := match rx with
            | some rx => env.corpus.regexMatch rx val
            | none => text == val
          if negated then !ok else ok).map fun struc =>
    let (start, stop) := env.corpus.struc2cpos attr struc
    if isClosing then stop + 1 else start

/-- `matchfirstpattern`: the start positions for an initial transition. -/
def matchfirstpattern (avs : AVS C A R) : Option (List ℤ) :=
  match avs with
  | .tag isClosing attr constraint rx negated _ =>
    some (env.tagStarts isClosing attr constraint rx negated)
  | .anchor field isClosing =>
    if env.queryCorpus.size = 0 then none
    else if field = .targetField ∧ !env.queryCorpus.targets then none
    else if field = .keywordField ∧ !env.queryCorpus.keywords then none
    else
      let cpos := (List.range env.queryCorpus.size).map fun i =>
        let cpos := env.anchorCpos field i
        if isClosing && cpos ≥ 0 then cpos + 1 else cpos
      some (cpos.filter fun c => c ≠ -1)
  | .pattern _ constraint _ _ => env.corpus.calculateInitialMatchlist constraint env.queryCorpus
  | .matchAll .. => some ((List.range env.corpus.size).map Int.ofNat)

/-- An element of the matchlist after its simulation. -/
def finishElement (m : Match) (sim : Sim) : Match :=
  if reports m.start sim then
    { start := m.start, stop := sim.winner
      target := if env.hasTargetIndicator then sim.myTarget else m.target
      keyword := if env.hasKeywordIndicator then sim.myKeyword else m.keyword }
  else { m.mark with target := -1, keyword := -1 }

/-- The loop of `simulate` over the matchlist, with the range pointer `rp`, the number of
matches still wanted (`cut`, negative for all) and `EvaluationIsRunning`. `none` if some
simulation is still running when the fuel is used up. -/
def simulate (first : Option ℕ) (fuel : ℕ) (ms : List Match) (rp : ℕ) (cut : ℤ) (running : Bool) :
    Option (List Match × Bool) :=
  match ms with
  | [] => some ([], running)
  | m :: rest =>
    if cut = 0 ∨ !running then some ((m :: rest).map Match.mark, running)
    else if h : rp < env.queryCorpus.range.length then
      let r := env.queryCorpus.range.get ⟨rp, h⟩
      if m.start < r.start then
        (simulate first fuel rest rp cut running).map fun out => (m.mark :: out.1, out.2)
      else if m.start > r.stop then simulate first fuel (m :: rest) (rp + 1) cut running
      else
        let boundary := min (env.calculateRightboundary m.start) r.stop
        if boundary = -1 then
          (simulate first fuel rest rp cut running).map fun out =>
            ({ m.mark with target := -1, keyword := -1 } :: out.1, out.2)
        else match env.simulateFrom rp boundary first m.start fuel with
          | none => none
          | some sim =>
            let cut := if reports m.start sim ∧ cut > 0 then cut - 1 else cut
            (simulate first fuel rest rp cut sim.evaluationIsRunning).map fun out =>
              (env.finishElement m sim :: out.1, out.2)
    else (simulate first fuel rest rp cut running).map fun out => (m.mark :: out.1, out.2)
termination_by ms.length + (env.queryCorpus.range.length - rp)

/-- The loop of `simulate_dfa` over the initial transitions. -/
def initialLoop (cut : ℤ) (fuel : ℕ) (deterministic : Bool) :
    List ℕ → Matchlist → Option Matchlist
  | [], total => some total
  | p :: ps, total =>
    if env.dfa.transTable 0 p = env.dfa.eState then initialLoop cut fuel deterministic ps total
    else match env.matchfirstpattern (env.patternlist p) with
      | none => some total
      | some [] => initialLoop cut fuel deterministic ps total
      | some starts =>
        let tab := starts.map fun s => ({ start := s, stop := s } : Match)
        match env.simulate (some p) fuel tab 0 (if cut ≤ 0 then -1 else cut) true with
        | none => none
        | some (tab, running) =>
          let ml := setopReduce
            { tab, ends := true, targets := env.hasTargetIndicator, keywords := env.hasKeywordIndicator }
          let total := if deterministic then ml else setopUnion total ml
          if running then initialLoop cut fuel deterministic ps total else some total

/-- With `keep_old_ranges`, a range survives if a match lies inside it. -/
def keepRanges : List Match → List Match → List Match
  | [], _ => []
  | r :: rs, [] => r.mark :: keepRanges rs []
  | r :: rs, m :: ms =>
    if m.start ≥ r.start then
      (if m.start > r.stop ∨ m.stop > r.stop then r.mark else r) :: keepRanges rs (m :: ms)
    else keepRanges (r :: rs) ms
termination_by rs ms => rs.length + ms.length

def setCorpusMatchlists (cp : CorpusList) (ml : Matchlist) (keepOldRanges : Bool) : CorpusList :=
  if keepOldRanges then
    rReduce { cp with range := keepRanges cp.range ml.tab, sortidx := none }
  else { cp with range := ml.tab, targets := ml.targets, keywords := ml.keywords, sortidx := none }

/-- A query that matches the empty string is refused. -/
def simulateDfa (cut : ℤ) (keepOldRanges : Bool) (fuel : ℕ) : Option CorpusList :=
  let transCount := ((List.range env.dfa.maxInput).filter fun p =>
    env.dfa.transTable 0 p ≠ env.dfa.eState).length
  if env.dfa.final 0 then some (setCorpusMatchlists env.queryCorpus {} false)
  else if env.queryCorpus.size = 0 then some env.queryCorpus
  else
    (env.initialLoop cut fuel (transCount = 1) (List.range env.dfa.maxInput) {}).map fun total =>
      setCorpusMatchlists env.queryCorpus (setopReduce total) keepOldRanges

def cqpRunQuery (hardCut cut : ℤ) (keepOldRanges : Bool) (fuel : ℕ) : Option CorpusList :=
  env.simulateDfa (if hardCut > 0 ∧ hardCut < cut then hardCut else cut) keepOldRanges fuel

/-- The filter that a matching strategy applies to the result. -/
def applyStrategy (res : CorpusList) : CorpusList :=
  match env.matchingStrategy with
  | .shortestMatch => rangeSetop res .minimalMatches {} none
  | .standardMatch => rangeSetop res .leftMaximalMatches {} none
  | .longestMatch => rangeSetop res .maximalMatches {} none
  | .traditional => res

/-- `delete_intervals` on all lines behind the first `cut`. -/
def cutLines (cut : ℤ) (res : CorpusList) : CorpusList :=
  if cut > 0 ∧ res.size > cut then { res with range := res.range.take cut.toNat, sortidx := none }
  else res

def doStandardQuery (hardCut cut : ℤ) (keepFlag : Bool) (fuel : ℕ) : Option CorpusList :=
  (env.cqpRunQuery hardCut cut keepFlag fuel).map fun res => cutLines cut (env.applyStrategy res)

/-! What a token query asks for. -/

/-- The tokens `p.1 .. p.2` are accepted, over a path that starts with `first` where given,
inside a range of the query corpus and within the right boundary of `p.1`. -/
def Matches (first : Option ℕ) (p : ℤ × ℤ) : Prop :=
  ∃ rp r, env.queryCorpus.range[rp]? = some r ∧ r.start ≤ p.1 ∧ p.1 ≤ r.stop ∧
    env.MatchEnd ⟨rp, min (env.calculateRightboundary p.1) r.stop, first, p.1⟩ p.2

/-- `p.2` is the least end for the start `p.1`. -/
def LeastEnd (first : Option ℕ) (p : ℤ × ℤ) : Prop :=
  env.Matches first p ∧ ∀ e, env.Matches first (p.1, e) → p.2 ≤ e

/-- The meaning of the matching strategies. -/
def Selected (p : ℤ × ℤ) : Prop :=
  match env.matchingStrategy with
  | .shortestMatch => env.Matches none p ∧ ∀ p', env.Matches none p' → Inside p' p → p' = p
  | .longestMatch => env.Matches none p ∧ ∀ p', env.Matches none p' → Inside p p' → p' = p
  | .standardMatch => env.LeastEnd none p ∧ ∀ s, s < p.1 → ¬ env.LeastEnd none (s, p.2)
  | .traditional => ∃ i, env.LeastEnd (some i) p

end EvalEnv

end CWB
