import CWB.Spec.Constraint

/-! The variables of `cqp/variables.c` (lists of strings that queries refer to), with the
commands that define them in `cqp/parse_actions.c`. A variable remembers the lexicon IDs of its
strings for the attribute for which it was last used. -/

namespace CWB

def ITEM_REALLOC : ℕ := 8

structure VariableItem where
  free : Bool
  sval : Option String
  ival : ℤ := -1
deriving Repr, DecidableEq

def VariableItem.unused : VariableItem where
  free := true
  sval := none

/-- `nr_items` is the length of `items`. -/
structure VariableBuffer where
  valid : Bool := false
  myName : String
  myCorpus : Option String := none
  myAttribute : Option String := none
  nrValidItems : ℕ := 0
  nrInvalidItems : ℕ := 0
  items : List VariableItem := []
deriving Repr, DecidableEq

/-- A positional attribute of a corpus, with the names by which a variable remembers the two. -/
structure VarLexicon where
  registryName : String
  attributeName : String
  attr : PAttribute
  utf8 : Bool
  /-- `cl_string_canonical` with `REQUIRE_NFC` -/
  canonical : String → String

/-- The ID that `VerifyVariable` finds for a string; the error codes of `cl_str2id` are negative. -/
def VarLexicon.itemId (lex : VarLexicon) (sval : String) : ℤ :=
  match lex.attr.str2id (if lex.utf8 then lex.canonical sval else sval) with
  | some id => id
  | none => -1

namespace VariableBuffer

variable (v : VariableBuffer)

def variableItemMember (item : String) : Bool := v.items.any fun it => !it.free && it.sval = some item

/-- The first free slot is used, or a block of new slots. -/
def variableAddItem (item : String) : VariableBuffer :=
  if v.variableItemMember item then v
  else
    let new : VariableItem := { free := false, sval := some item }
    match v.items.findIdx? (·.free) with
    | some i => { v with valid := false, items := v.items.set i new }
    | none => { v with valid := false, items := v.items ++ new :: List.replicate (ITEM_REALLOC - 1) .unused }

def variableSubtractItem (item : String) : VariableBuffer :=
  { v with
    valid := false
    items := v.items.map fun it => if !it.free && it.sval = some item then .unused else it }

def variableDeleteItems : VariableBuffer :=
  { v with valid := false, nrValidItems := 0, nrInvalidItems := 0, items := [] }

def getVariableStrings : List String := v.items.filterMap fun it => if it.free then none else it.sval

/-- The loop over the items in `VerifyVariable`. -/
def verifyItem (lex : VarLexicon) (it : VariableItem) : VariableItem :=
  if it.free then it
  else { it with ival := match it.sval with | none => -1 | some sval => lex.itemId sval }

/-- `VerifyVariable` for an attribute of type `ATT_POS`, as in all calls. -/
def verifyVariable (lex : VarLexicon) : VariableBuffer :=
  if v.valid ∧ v.myCorpus = some lex.registryName ∧ v.myAttribute = some lex.attributeName then v
  else
    let items := v.items.map (verifyItem lex)
    let nrValid := items.countP fun it => !it.free && 0 ≤ it.ival
    let nrInvalid := items.countP fun it => !it.free && it.ival < 0
    { v with
      valid := 0 < nrValid
      myCorpus := lex.registryName
      myAttribute := lex.attributeName
      nrValidItems := nrValid
      nrInvalidItems := nrInvalid
      items }

/-- `GetVariableItems`, and the variable after it. There is no result if fewer IDs are found than
the array holds, since the rest of it would be undefined. -/
def getVariableItems (lex : VarLexicon) : Option (List ℤ) × VariableBuffer :=
  let v := v.verifyVariable lex
  if v.valid ∧ 0 < v.nrValidItems then
    let ids := ((v.items.filter fun it => !it.free && 0 ≤ it.ival).map VariableItem.ival).take v.nrValidItems
    if ids.length = v.nrValidItems then (some (ids.insertionSort (· ≤ ·)), v) else (none, v)
  else (some [], v)

end VariableBuffer

/-! ## Definitions -/

/-- The successive results of `strtok` with blanks, tabs and line feeds as delimiters. -/
def strtokItems (s : String) : List String :=
  ((s.toList.splitOnP fun c => c = ' ' || c = '\t' || c = '\n').filter (· ≠ [])).map String.ofList

/-- `cl_string_chomp` -/
def chomp (s : String) : String := String.ofList (s.toList.rdropWhile fun c => c = '\r' || c = '\n')

/-- `operator` and `varValues` of `SetVariableValue`; a file is given by its lines. -/
inductive VarOperator where
  | extend (varValues : String)
  | subtract (varValues : String)
  | set (varValues : String)
  | read (lines : Option (List String))
deriving Repr, DecidableEq

/-- `cl_string_latex2iso` in `do_SetVariableValue`; file names are left alone. -/
def VarOperator.latex2iso (f : String → String) : VarOperator → VarOperator
  | .extend varValues => .extend (f varValues)
  | .subtract varValues => .subtract (f varValues)
  | .set varValues => .set (f varValues)
  | .read lines => .read lines

/-- `SetVariableValue`, for the variable that is found or created. -/
def VariableBuffer.setVariableValue (v : VariableBuffer) : VarOperator → VariableBuffer
  | .extend varValues => (strtokItems varValues).foldl variableAddItem v
  | .subtract varValues => (strtokItems varValues).foldl variableSubtractItem v
  | .set varValues => (strtokItems varValues).foldl variableAddItem v.variableDeleteItems
  | .read none => v.variableDeleteItems
  | .read (some lines) => ((lines.map chomp).filter (· ≠ "")).foldl variableAddItem v.variableDeleteItems

/-- The variables in the order of their slots; none is ever dropped. -/
abbrev VariableSpace := List VariableBuffer

namespace VariableSpace

variable (space : VariableSpace)

def findVariable (varname : String) : Option VariableBuffer := space.find? (·.myName = varname)

def newVariable (varname : String) : VariableSpace := space ++ [{ myName := varname }]

/-- A change to the variable of this name. -/
def update (varname : String) (f : VariableBuffer → VariableBuffer) : VariableSpace :=
  space.map fun v => if v.myName = varname then f v else v

def doSetVariableValue (varName : String) (op : VarOperator) : VariableSpace :=
  let space := match findVariable space varName with
    | some _ => space
    | none => newVariable space varName
  update space varName fun v => v.setVariableValue op

/-- `do_AddSubVariables`; an undefined variable is an error. -/
def doAddSubVariables (var1Name : String) (add : Bool) (var2Name : String) : VariableSpace :=
  match findVariable space var1Name, findVariable space var2Name with
  | some _, some v2 =>
    update space var1Name fun v1 => v2.getVariableStrings.foldl
      (if add then VariableBuffer.variableAddItem else VariableBuffer.variableSubtractItem) v1
  | _, _ => space

end VariableSpace

/-- The commands of the group `VarDefCmd`, and a reference to a variable in a query. -/
inductive VarCommand where
  | define (varName : String) (op : VarOperator)
  | addSub (var1Name : String) (add : Bool) (var2Name : String)
  | assign (var1Name var2Name : String)
  | use (varName : String) (lex : VarLexicon)

/-- One command; `f` is `cl_string_latex2iso`. -/
def varStep (f : String → String) (space : VariableSpace) : VarCommand → VariableSpace
  | .define varName op => space.doSetVariableValue varName (op.latex2iso f)
  | .addSub var1Name add var2Name => space.doAddSubVariables var1Name add var2Name
  | .assign var1Name var2Name =>
    (space.doSetVariableValue var1Name ((VarOperator.set "").latex2iso f)).doAddSubVariables var1Name true var2Name
  | .use varName lex => space.update varName fun v => (v.getVariableItems lex).2

def varRun (f : String → String) (cmds : List VarCommand) : VariableSpace := cmds.foldl (varStep f) []

/-! ## Definitions that fail -/

namespace VariableSpace

/-- A change to the variable that `FindVariable` finds. -/
def change (space : VariableSpace) (varname : String) (f : VariableBuffer → VariableBuffer) : VariableSpace :=
  space.modify (space.findIdx (·.myName = varname)) f

/-- `SetVariableValue` with any operator, and its result. `openStream` is what `cl_open_stream` finds. -/
def setVariableValue (openStream : String → Option (List String)) (space : VariableSpace) (varName : String) (operator : Char)
    (varValues : String) : VariableSpace × Bool :=
  let space := match findVariable space varName with
    | some _ => space
    | none => newVariable space varName
  if operator = '+' then
    (change space varName fun v => (strtokItems varValues).foldl VariableBuffer.variableAddItem v, true)
  else if operator = '-' then
    (change space varName fun v => (strtokItems varValues).foldl VariableBuffer.variableSubtractItem v, true)
  else if operator = '=' then
    let space := change space varName VariableBuffer.variableDeleteItems
    (change space varName fun v => (strtokItems varValues).foldl VariableBuffer.variableAddItem v, true)
  else if operator = '<' then
    let space := change space varName VariableBuffer.variableDeleteItems
    match openStream varValues with
    | some lines =>
      (change space varName fun v => ((lines.map chomp).filter (· ≠ "")).foldl VariableBuffer.variableAddItem v, true)
    | none => (space, false)
  else (space, false)

/-- The strings of a variable, if it is defined. -/
def contents (space : VariableSpace) (varname : String) : Option (List String) :=
  (findVariable space varname).map VariableBuffer.getVariableStrings

/-- A call that fails leaves the same variables with the same strings. -/
def FailureChangesNothing (openStream : String → Option (List String)) (space : VariableSpace) (varName : String)
    (operator : Char) (varValues : String) : Prop :=
  (setVariableValue openStream space varName operator varValues).2 = false →
    contents (setVariableValue openStream space varName operator varValues).1 = contents space

/-- An operator that does not exist, or a file that cannot be opened. -/
def CannotBeSet (openStream : String → Option (List String)) (operator : Char) (varValues : String) : Prop :=
  operator ≠ '+' ∧ operator ≠ '-' ∧ operator ≠ '=' ∧ (operator = '<' → openStream varValues = none)

end VariableSpace

end CWB
