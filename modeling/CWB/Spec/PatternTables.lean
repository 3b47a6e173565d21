import CWB.Spec.XmlTag
import CWB.Spec.Searchstr

/-! The tables of the query compiler: the evaluation environments and the pattern list in each of them
(`cqp/eval.h`), with the parser actions that fill them (`cqp/parse_actions.c`, `next_environment` of
`cqp/eval.c`). A write behind the end of a table has no result. What the corpus library answers to an
action is part of the action. -/

namespace CWB.PatternTables

open Function

/-- `MAXENVIRONMENT` -/
def maxEnvironment : ℕ := 10

/-- Assignment to an element of an array with `n` elements, `none` outside of it. -/
def write {n : ℕ} {α : Type} (table : Fin n → α) (i : ℤ) (v : α) : Option (Fin n → α) :=
  if h : 0 ≤ i ∧ i < n then some (update table ⟨i.toNat, by omega⟩ v) else none

structure EvalEnvironment (C A R : Type) where
  maxPatIndex : ℤ
  patternlist : Fin maxPatterns → AVS C A R
  hasTargetIndicator : Bool
  hasKeywordIndicator : Bool

structure Tables (C A R : Type) where
  environment : Fin maxEnvironment → EvalEnvironment C A R
  eep : ℤ
  /-- `CurEnv`, as an index -/
  curEnv : Fin maxEnvironment
  generateCode : Bool

/-- The operator of a start tag. -/
inductive RegexpOp where
  | opEqual
  | opMval (op : MvalOp)
deriving Repr, DecidableEq

/-- A token pattern: the constraint, or a pattern that matches everything. -/
structure WordformPattern (C : Type) where
  boolt : Option C
  lookahead : Bool

inductive Action (C A R : Type) where
  | wordformPattern (pattern : WordformPattern C)
  /-- with a target marker and a label, which must not be a special one -/
  | namedWfPattern (nature : TargetNature) (label : Option ℕ) (special : Bool) (pattern : WordformPattern C)
  /-- the attribute, whether it has values, and the compiled expression if `op` and `flags` need one -/
  | xmlTag (attr : Option A) (strucValues isClosing : Bool) (op : RegexpOp) (negated : Bool)
    (regex : Option String) (literal : Bool) (needsRx : Bool) (rx : Option R) (rightBoundary : Option ℕ)
  /-- whether the anchor is defined for the corpus -/
  | anchorPoint (field : AnchorField) (isClosing defined : Bool)
  /-- whether there is an aligned corpus of that name -/
  | alignmentConstraint (found : Bool)
  /-- any other action that finds an error -/
  | reject

section Actions

variable {C A R : Type} (st : Tables C A R)

/-- A change of `*CurEnv`. -/
def setCurEnv (env : EvalEnvironment C A R) : Tables C A R :=
  { st with environment := update st.environment st.curEnv env }

def maxPatIndex : ℤ := (st.environment st.curEnv).maxPatIndex

/-- The test that starts the three actions. -/
def checkRoom : Tables C A R :=
  if st.generateCode ∧ maxPatIndex st = maxPatterns then { st with generateCode := false } else st

/-- `CurEnv->patternlist[i] = avs` -/
def setPattern (i : ℤ) (avs : AVS C A R) : Option (Tables C A R) :=
  let env := st.environment st.curEnv
  (write env.patternlist i avs).map fun patternlist => setCurEnv st { env with patternlist := patternlist }

/-- `CurEnv->MaxPatIndex++`, and the new pattern. -/
def addPattern (avs : AVS C A R) : Option (Tables C A R) :=
  let env := { st.environment st.curEnv with maxPatIndex := maxPatIndex st + 1 }
  setPattern (setCurEnv st env) (maxPatIndex st + 1) avs

def WordformPattern.avs (pattern : WordformPattern C) (label : Option ℕ) (nature : TargetNature) : AVS C A R :=
  match pattern.boolt with
  | none => .matchAll label nature pattern.lookahead
  | some boolt => .pattern label boolt nature pattern.lookahead

/-- `do_WordformPattern`: the new tables and the index of the pattern. -/
def doWordformPattern (pattern : WordformPattern C) : Option (Tables C A R × ℤ) :=
  let st := checkRoom st
  if st.generateCode then
    (addPattern st (pattern.avs none .isNotTarget)).map fun st => (st, maxPatIndex st)
  else some (st, -1)

/-- `do_NamedWfPattern` -/
def doNamedWfPattern (nature : TargetNature) (label : Option ℕ) (special : Bool)
    (pattern : WordformPattern C) (patIdx : ℤ) : Option (Tables C A R) :=
  if !st.generateCode then some st
  else if label.isSome && special then some { st with generateCode := false }
  else
    (setPattern st patIdx (pattern.avs label nature)).map fun st =>
      let env := st.environment st.curEnv
      match nature with
      | .isNotTarget => st
      | .isTarget => setCurEnv st { env with hasTargetIndicator := true }
      | .isKeyword => setCurEnv st { env with hasKeywordIndicator := true }

/-- `do_XMLTag` -/
def doXMLTag (attr : Option A) (strucValues isClosing : Bool) (op : RegexpOp) (negated : Bool)
    (regex : Option String) (literal needsRx : Bool) (rx : Option R) (rightBoundary : Option ℕ) :
    Option (Tables C A R) :=
  let st := checkRoom st
  if !st.generateCode then some st
  else match attr with
    | none => some { st with generateCode := false }
    | some attr =>
      if regex.isSome && !strucValues then some { st with generateCode := false }
      else if op ≠ .opEqual ∧ literal then some { st with generateCode := false }
      else
        let constraint := if isClosing then none else regex
        let compiled := if constraint.isSome && needsRx then rx else none
        let failed := constraint.isSome && needsRx && rx.isNone
        (addPattern st (.tag isClosing attr constraint compiled (constraint.isSome && negated)
          (if failed then none else rightBoundary))).map fun st =>
            if failed then { st with generateCode := false } else st

/-- `do_AnchorPoint` -/
def doAnchorPoint (field : AnchorField) (isClosing defined : Bool) : Option (Tables C A R) :=
  let st := checkRoom st
  if !st.generateCode then some st
  else if !defined then some { st with generateCode := false }
  else addPattern st (.anchor field isClosing)

/-- `next_environment`: the answer and the new tables. -/
def nextEnvironment : Option (Bool × Tables C A R) :=
  if st.eep ≥ maxEnvironment then some (false, st)
  else
    let eep := st.eep + 1
    if h : 0 ≤ eep ∧ eep < maxEnvironment then
      let curEnv : Fin maxEnvironment := ⟨eep.toNat, by omega⟩
      let env := { st.environment curEnv with
        maxPatIndex := -1, hasTargetIndicator := false, hasKeywordIndicator := false }
      some (true, { st with environment := update st.environment curEnv env, eep := eep, curEnv := curEnv })
    else none

/-- `prepare_AlignmentConstraints`, which does not ask for `generate_code`. -/
def prepareAlignmentConstraints (found : Bool) : Option (Tables C A R) :=
  if !found then some { st with generateCode := false }
  else
    (nextEnvironment st).map fun (ok, st) => if ok then st else { st with generateCode := false }

def step : Action C A R → Option (Tables C A R)
  | .wordformPattern pattern => (doWordformPattern st pattern).map Prod.fst
  | .namedWfPattern nature label special pattern => do
    let (st, patIdx) ← doWordformPattern st pattern
    doNamedWfPattern st nature label special pattern patIdx
  | .xmlTag attr strucValues isClosing op negated regex literal needsRx rx rightBoundary =>
    doXMLTag st attr strucValues isClosing op negated regex literal needsRx rx rightBoundary
  | .anchorPoint field isClosing defined => doAnchorPoint st field isClosing defined
  | .alignmentConstraint found => prepareAlignmentConstraints st found
  | .reject => some { st with generateCode := false }

/-- The actions of a query. -/
def run : List (Action C A R) → Tables C A R → Option (Tables C A R)
  | [], st => some st
  | act :: acts, st => do run acts (← step st act)

/-- `prepare_Query`: the first environment is set up, and the query may be rejected already. -/
def prepareQuery (stale : Fin maxEnvironment → EvalEnvironment C A R) (accepted : Bool) : Tables C A R where
  environment := update stale ⟨0, by decide⟩
    { stale ⟨0, by decide⟩ with maxPatIndex := -1, hasTargetIndicator := false, hasKeywordIndicator := false }
  eep := 0
  curEnv := ⟨0, by decide⟩
  generateCode := accepted

end Actions

end CWB.PatternTables
