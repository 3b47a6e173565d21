import CWB.Library.FirstHit
import CWB.Spec.ClAccess
import CWB.Spec.Session

/-! `evaluate_target` of `cqp/targets.c` with the windows of `calculate_ranges` (`cqp/ranges.c`) in the
arithmetic of C. The positions themselves are `int`; a sum that is too large for an `int` wraps around.
Progress bar and messages are left out. -/

namespace CWB

inductive SearchStrategy where
  | leftmost | rightmost | nearest | farthest | none
deriving Repr, DecidableEq

/-- The sum of two `int`. -/
def intSum (m n : ℤ) : ℤ := (m + n).bmod (2 ^ 32)

/-- `get_num_of_struc`, `none` where it returns 0 -/
def getNumOfStruc (attrib : Cqi.StrucAttribute) (cpos : ℤ) : Option ℤ :=
  match Cqi.clCpos2struc (.struc attrib) cpos with
  | (num, .ok) => some num
  | _ => none

/-- `get_bounds_of_nth_struc` -/
def getBoundsOfNthStruc (attrib : Cqi.StrucAttribute) (num : ℤ) : Option (ℤ × ℤ) :=
  match Cqi.clStruc2cpos (.struc attrib) num with
  | (some bounds, .ok) => some bounds
  | _ => none

/-- `get_struc_attribute` -/
def getStrucAttribute (attrib : Cqi.StrucAttribute) (cpos : ℤ) : Option (ℤ × ℤ) :=
  match Cqi.clCpos2struc2cpos (.struc attrib) cpos with
  | (some bounds, .ok) => some bounds
  | _ => none

/-- `get_nr_of_strucs` -/
def getNrOfStrucs (attrib : Cqi.StrucAttribute) : Option ℤ :=
  match Cqi.clMaxStruc (.struc attrib) with
  | (nr, .ok) => some nr
  | _ => none

/-- `calculate_ranges`, `none` where it returns 0 -/
def calculateRanges (motherSize : ℤ) (spc : Context Cqi.StrucAttribute) (cpos : ℤ) : Option (ℤ × ℤ) :=
  match spc with
  | .word d =>
    if d < 0 then none
    else some (max 0 (cpos - d), cpos + min d (motherSize - 1 - cpos))
  | .structure attrib size =>
    let d := size - 1
    if d < 0 then none
    else do
      let _ ← getStrucAttribute attrib cpos
      let rngN ← getNumOfStruc attrib cpos
      let lower ← getBoundsOfNthStruc attrib (max 0 (rngN - d))
      let nrRngs ← getNrOfStrucs attrib
      let upper ← getBoundsOfNthStruc attrib (min (nrRngs - 1) (intSum rngN d))
      some (lower.1, upper.2)

/-- The arguments of the search; `constr` is `eval_bool` of the constraint. -/
structure TargetSearch where
  motherSize : ℤ
  base : AnchorField
  inclusive : Bool
  strategy : SearchStrategy
  constr : ℤ → Bool
  direction : ContextDirection
  context : Context Cqi.StrucAttribute

namespace TargetSearch

variable (s : TargetSearch)

/-- `excl_start` and `excl_end` -/
def exclusion (m : Match) : ℤ × ℤ :=
  match s.base with
  | .matchField => (m.start, m.stop)
  | .matchEndField => (m.stop, m.stop)
  | .targetField => (m.target, m.target)
  | .keywordField => (m.keyword, m.keyword)

/-- `lbound` and `rbound`, `none` where both are set to -1 -/
def bounds (m : Match) : Option (ℤ × ℤ) :=
  let (exclStart, exclEnd) := s.exclusion m
  match s.base with
  | .matchField =>
    if exclStart = exclEnd ∨ s.inclusive then calculateRanges s.motherSize s.context exclStart
    else do
      let left ← calculateRanges s.motherSize s.context exclStart
      let right ← calculateRanges s.motherSize s.context exclEnd
      some (left.1, right.2)
  | .matchEndField | .targetField | .keywordField =>
    if exclStart ≥ 0 then calculateRanges s.motherSize s.context exclStart else none

/-- With a direction the window ends at the base, and the strategy is rewritten. -/
def sided (strategy : SearchStrategy) (exclStart lbound rbound : ℤ) : SearchStrategy × ℤ × ℤ :=
  match s.direction with
  | .left =>
    (match strategy with
      | .nearest => .rightmost
      | .farthest => .leftmost
      | strategy => strategy, lbound, exclStart)
  | .right =>
    (match strategy with
      | .nearest => .leftmost
      | .farthest => .rightmost
      | strategy => strategy, exclStart, rbound)
  | .leftRight => (strategy, lbound, rbound)

/-- A round of the loops over the distance. -/
def probe (exclStart exclEnd lbound rbound : ℤ) (dist : ℕ) : Option ℤ :=
  let i := exclStart - dist
  if i ≥ lbound ∧ (s.inclusive ∨ i < exclStart) ∧ s.constr i then some i
  else
    let i := intSum exclStart dist
    if i ≤ rbound ∧ (s.inclusive ∨ i > exclEnd) ∧ s.constr i then some i else none

/-- A round of the loops over the positions. -/
def test (exclStart exclEnd i : ℤ) : Option ℤ :=
  if (s.inclusive ∨ i < exclStart ∨ i > exclEnd) ∧ s.constr i then some i else none

/-- The four loops, `none` where the table keeps its -1. -/
def search (strategy : SearchStrategy) (exclStart exclEnd lbound rbound : ℤ) : Option ℤ :=
  let maxdist := max (exclStart - lbound) (rbound - exclStart)
  match strategy with
  | .farthest => FirstHit.down (maxdist + 1).toNat (s.probe exclStart exclEnd lbound rbound)
  | .nearest => FirstHit.up (maxdist + 1).toNat (s.probe exclStart exclEnd lbound rbound)
  | .leftmost => FirstHit.up (rbound + 1 - lbound).toNat fun k => s.test exclStart exclEnd (lbound + k)
  | .rightmost => FirstHit.up (rbound + 1 - lbound).toNat fun k => s.test exclStart exclEnd (rbound - k)
  | .none => none

/-- The body of the loop over the lines: the strategy it leaves, and the cell of the table. -/
def searchLine (strategy : SearchStrategy) (m : Match) : SearchStrategy × ℤ :=
  match s.bounds m with
  | none => (strategy, -1)
  | some (lbound, rbound) =>
    if lbound ≥ 0 ∧ rbound ≥ 0 then
      let (exclStart, exclEnd) := s.exclusion m
      let (strategy, lbound, rbound) := s.sided strategy exclStart lbound rbound
      (strategy, (s.search strategy exclStart exclEnd lbound rbound).getD (-1))
    else (strategy, -1)

/-- The loop over the lines. `EvaluationIsRunning` is cleared before the line `interrupt` is reached;
the table comes from `cl_calloc`. -/
def tableLoop (lines : ℕ → Match) (interrupt : ℕ) : ℕ → ℕ → SearchStrategy → List ℤ
  | 0, _, _ => []
  | rest + 1, line, strategy =>
    if line < interrupt then
      let (strategy, cell) := s.searchLine strategy (lines line)
      cell :: tableLoop lines interrupt rest (line + 1) strategy
    else List.replicate (rest + 1) 0

def table (c : QueryResult) (interrupt : ℕ) : List ℤ := s.tableLoop c.line interrupt c.size 0 s.strategy

end TargetSearch

/-- What `evaluate_target` reads of the corpus. -/
structure SearchCorpus where
  motherSize : ℤ
  strucAttribute : String → Option Cqi.StrucAttribute

/-- The arguments of `evaluate_target`; the constraint may be NULL. -/
structure TargetCommand where
  goal : AnchorField
  base : AnchorField
  inclusive : Bool
  strategy : SearchStrategy
  constr : Option (ℤ → Bool)
  direction : ContextDirection
  units : ℤ
  attrName : String

namespace SearchCorpus

variable (corpus : SearchCorpus)

/-- The unit of the window, by its name. -/
def context (units : ℤ) (attrName : String) : Option (Context Cqi.StrucAttribute) :=
  if attrName.toLower = "word" ∨ attrName.toLower = "words" then some (.word units)
  else (corpus.strucAttribute attrName).map (.structure · units)

/-- `corp->targets` and `corp->keywords` must be there to start from. -/
def hasField (c : QueryResult) : AnchorField → Bool
  | .matchField | .matchEndField => true
  | .targetField => c.targets.isSome
  | .keywordField => c.keywords.isSome

/-- The search that a command asks for, `none` after an error message. -/
def targetSearch (cmd : TargetCommand) (c : QueryResult) : Option TargetSearch := do
  let constr ← cmd.constr
  if c.size = 0 ∨ hasField c cmd.base = false ∨ cmd.units ≤ 0 then none
  else
    let context ← corpus.context cmd.units cmd.attrName
    some {
      motherSize := corpus.motherSize
      base := cmd.base
      inclusive := cmd.inclusive
      strategy := cmd.strategy
      constr := constr
      direction := cmd.direction
      context := context }

/-- `evaluate_target` -/
def evaluateTarget (cmd : TargetCommand) (interrupt : ℕ) (c : QueryResult) : QueryResult :=
  match corpus.targetSearch cmd c with
  | none => c
  | some s => (c.setField cmd.goal (s.table c interrupt)).resort cmd.goal

end SearchCorpus

end CWB
