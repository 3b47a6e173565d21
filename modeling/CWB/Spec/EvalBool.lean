import CWB.Spec.Constraint
import CWB.Spec.XmlTag

/-! Constraint trees with labels, function calls and all kinds of constants: the grammar rules from
`BoolExpr` to `FunctionCall` (`cqp/parser.y`) with their actions, and the evaluation by `eval_bool`,
`get_leaf_value` and the built-in functions (`cqp/eval.c`, `cqp/builtins.c`). An assertion that fails
ends the program, and so may the use of a value that was never set: the evaluation has no result then.
Integers do not overflow and strings always fit into their buffers. -/

namespace CWB.EvalBool

/-! ## Trees -/

inductive BOps where
  | bAnd | bOr | bImplies | bNot
  | cmpGt | cmpLt | cmpGet | cmpLet | cmpEq | cmpNeq
  | cmpEx
deriving Repr, DecidableEq

/-- An entry of the label table; the label `_` has the index -1. -/
structure LabelEntry where
  ref : ℤ
  special : Bool
deriving Repr, DecidableEq

mutual

/-- `union c_tree` of `cqp/eval.h`, `null` being the null pointer; `D`: dynamic attributes, `F`: doubles. -/
inductive Constrainttree (P S D F : Type) where
  | null
  | bnode (opId : BOps) (left right : Constrainttree P S D F)
  | cnode (val : Bool)
  | func (predef : ℤ) (dynattr : Option D) (args : ActualParamList P S D F) (nrArgs : ℕ)
  | sbound (strucattr : S) (isClosing : Bool)
  | paRef (attr : Option P) (label : Option LabelEntry) (delete : Bool)
  | saRef (attr : S) (label : Option LabelEntry) (delete : Bool)
  | varRef (varName : String)
  | idList (attr : Option P) (label : Option LabelEntry) (delete : Bool) (items : List ℤ) (negated : Bool)
  | stringLeaf (leaf : StringLeaf)
  | intLeaf (iconst : ℤ)
  | floatLeaf (fconst : F)

inductive ActualParamList (P S D F : Type) where
  | nil
  | cons (param : Constrainttree P S D F) (next : ActualParamList P S D F)

end

def ActualParamList.length {P S D F : Type} : ActualParamList P S D F → ℕ
  | .nil => 0
  | .cons _ next => next.length + 1

/-- `DynCallResult`: a type and its value. -/
inductive DynCallResult (P F : Type) where
  | none
  | pos (intres : ℤ)
  | string (charres : Option String)
  | int (intres : ℤ)
  | var
  | float (floatres : F)
  | paref (attr : P) (tokenId : ℕ)
deriving Repr, DecidableEq

/-- The codes in `cderrno` that the evaluation tells apart. -/
inductive CdErrno where
  | ok | eposorng | other
deriving Repr, DecidableEq

/-! ## The corpus and the query environment -/

structure EvalCorpus (P S D F : Type) extends ConstraintCorpus P S where
  findPos : String → Option P
  findStruc : String → Option S
  findDyn : String → Option D
  /-- `def_unbr_attr`, or the default attribute if there is none of that name -/
  defUnbrAttr : Option P
  /-- `labellookup` in the current environment -/
  labellookup : String → Option LabelEntry
  withinGc : Bool
  /-- `cl_struc_values` -/
  strucValues : S → Bool
  /-- `structure_value_at_position` with `cderrno` -/
  structureValue : S → ℤ → CdErrno × Option String
  structureValue_ok : ∀ a cpos v, strucValues a = true → structureValue a cpos = (.ok, v) → v ≠ none
  /-- `call_dynamic_attribute`, `none` for an error; a result is a string, a number or a position -/
  callDynamic : D → List (DynCallResult P F) → Option (DynCallResult P F)
  callDynamic_type : ∀ d args v, callDynamic d args = some v →
    (∃ n, v = .pos n) ∨ (∃ n, v = .int n) ∨ (∃ s, v = .string (some s)) ∨ ∃ x, v = .float x
  /-- `cl_set_intersection` -/
  setIntersection : String → String → Option String
  /-- `cl_set_size` -/
  setSize : String → ℤ
  /-- `atoi`, `none` if it sets `errno` -/
  atoi : String → Option ℤ
  /-- `cl_string_canonical` with the flags for case and diacritics -/
  fold : Bool → Bool → String → String
  floatNonzero : F → Bool
  /-- the comparison of two doubles -/
  compareFloat : CmpOp → F → F → Bool
  /-- `cl_string_validate_encoding` -/
  validateEncoding : String → Bool
  /-- the `delete` field that `try_optimization` leaves unset in the node that it allocates -/
  fresh : Bool

/-! ## The grammar -/

mutual

/-- An attribute, a label, `label.attribute` or a function call, with or without the `~` in front. -/
inductive RelLHS (F : Type) where
  | labelReference (labelName attrName : String) (autoDelete : Bool)
  | id (idName : String) (autoDelete : Bool)
  | functionCall (fName : String) (args : FunctionArgList F)

inductive RelRHS (F : Type) where
  | relLHS (lhs : RelLHS F)
  | string (s : String) (flags : ℕ)
  | reVariable (varName : String) (flags : ℕ)
  | variable (varName : String)
  | integer (n : ℤ)
  | doubleFloat (x : F)

inductive FunctionArgList (F : Type) where
  | single (arg : RelRHS F)
  | cons (arg : RelRHS F) (args : FunctionArgList F)

end

inductive BoolExpr (F : Type) where
  | implies (left right : BoolExpr F)
  | or (left right : BoolExpr F)
  | and (left right : BoolExpr F)
  | not (left : BoolExpr F)
  | relExpr (left : RelLHS F) (op : CmpOp) (right : RelRHS F)
  | mval (left : RelLHS F) (op : MvalOp) (negated : Bool) (s : String) (flags : ℕ)
  | relExExpr (left : RelLHS F)

/-- `ExtConstraint` and `GlobalConstraint` -/
inductive TokenConstraint (F : Type) where
  | string (s : String) (flags : ℕ)
  | variable (varName : String)
  | boolExpr (e : BoolExpr F)
  | matchAll

/-- `RelOp` -/
def relOp : CmpOp → BOps
  | .cmpGt => .cmpGt
  | .cmpLt => .cmpLt
  | .cmpGet => .cmpGet
  | .cmpLet => .cmpLet
  | .cmpEq => .cmpEq
  | .cmpNeq => .cmpNeq

/-! ## The parser actions

A result `none` means that `generate_code` is cleared: the query is not run. -/

section Build

variable {P S D F : Type} (corpus : EvalCorpus P S D F)

/-- `do_LabelReference` -/
def doLabelReference (labelName attrName : String) (autoDelete : Bool) :
    Option (Constrainttree P S D F) := do
  let lab ← corpus.labellookup labelName
  let delete := autoDelete && !lab.special
  match corpus.findPos attrName, corpus.findStruc attrName with
  | some attr, _ => some (.paRef (some attr) (some lab) delete)
  | none, some attr => if corpus.strucValues attr then some (.saRef attr (some lab) delete) else none
  | none, none => none

/-- `do_IDReference` -/
def doIDReference (idName : String) (autoDelete : Bool) : Option (Constrainttree P S D F) :=
  match (if corpus.withinGc then none else corpus.findPos idName), corpus.labellookup idName,
      corpus.findStruc idName with
  | some attr, _, _ => if autoDelete then none else some (.paRef (some attr) none false)
  | none, some lab, _ => some (.paRef none (some lab) (autoDelete && !lab.special))
  | none, none, some attr => if autoDelete then none else some (.saRef attr none false)
  | none, none, none => none

/-- `do_flagged_re_variable`: the items of the variable as alternatives. -/
def doFlaggedReVariable (varName : String) (flags : ℕ) : Option StringLeaf := do
  let var ← corpus.findVariable varName
  if var.items = [] then none
  else
    let s := "|".intercalate var.items
    if corpus.validateEncoding s then
      corpus.doFlaggedString s (if flags = ignoreRegex then 0 else flags)
    else none

/-- `do_mval_string` -/
def doMvalString (s : String) (op : MvalOp) (flags : ℕ) : Option StringLeaf := do
  if flags = ignoreRegex then none
  else
    let pattern ← mvalPattern s.toList op
    corpus.doFlaggedString (String.ofList pattern) flags

inductive ArgType where
  | pos | int | string
deriving Repr, DecidableEq

/-- A function of the table, its index being its position there. -/
structure BuiltinF where
  name : String
  argtypes : List ArgType
deriving Repr, DecidableEq

def builtinFunction : List BuiltinF :=
  [⟨"f", [.string]⟩, ⟨"distance", [.pos, .pos]⟩, ⟨"dist", [.pos, .pos]⟩, ⟨"distabs", [.pos, .pos]⟩,
    ⟨"int", [.string]⟩, ⟨"lbound", [.int]⟩, ⟨"rbound", [.int]⟩, ⟨"unify", [.string, .string]⟩,
    ⟨"ambiguity", [.string]⟩, ⟨"add", [.int, .int]⟩, ⟨"sub", [.int, .int]⟩, ⟨"mul", [.int, .int]⟩,
    ⟨"prefix", [.string, .string]⟩, ⟨"is_prefix", [.string, .string]⟩, ⟨"minus", [.string, .string]⟩,
    ⟨"ignore", [.pos]⟩, ⟨"normalize", [.string, .string]⟩, ⟨"lbound_of", [.pos, .pos]⟩,
    ⟨"rbound_of", [.pos, .pos]⟩]

/-- `FunctionCall` -/
def functionCall (fName : String) (apl : ActualParamList P S D F) : Option (Constrainttree P S D F) :=
  match builtinFunction.findIdx? (·.name == fName) with
  | some predef =>
    match builtinFunction[predef]? with
    | some bf =>
      if apl.length = bf.argtypes.length then some (.func predef none apl apl.length) else none
    | none => none
  | none =>
    match corpus.findDyn fName with
    | some attr => some (.func (-1) (some attr) apl apl.length)
    | none => none

mutual

def buildLHS : RelLHS F → Option (Constrainttree P S D F)
  | .labelReference labelName attrName autoDelete => doLabelReference corpus labelName attrName autoDelete
  | .id idName autoDelete => doIDReference corpus idName autoDelete
  | .functionCall fName args => do functionCall corpus fName (← buildArgs args)

def buildRHS : RelRHS F → Option (Constrainttree P S D F)
  | .relLHS lhs => buildLHS lhs
  | .string s flags => do some (.stringLeaf (← corpus.doFlaggedString s flags))
  | .reVariable varName flags => do some (.stringLeaf (← doFlaggedReVariable corpus varName flags))
  | .variable varName => if (corpus.findVariable varName).isSome then some (.varRef varName) else none
  | .integer n => some (.intLeaf n)
  | .doubleFloat x => some (.floatLeaf x)

def buildArgs : FunctionArgList F → Option (ActualParamList P S D F)
  | .single arg => do some (.cons (← buildRHS arg) .nil)
  | .cons arg args => do
    let param ← buildRHS arg
    some (.cons param (← buildArgs args))

end

/-- A regular expression on an attribute with few values, as an ID list. -/
def regexConstraint (attr : P) (label : Option LabelEntry) (delete : Bool) (op : BOps) (sconst : String)
    (canon : ℕ) : Constrainttree P S D F :=
  let range := (corpus.pos attr).lexsize
  let items := corpus.collectMatchingIds attr sconst canon
  if items.length = 0 then .cnode (op ≠ .cmpEq)
  else if items.length = range then .cnode (op = .cmpEq)
  else if (corpus.pos attr).idlist2freq items > corpus.size / 2 then
    .idList (some attr) label delete (ConstraintCorpus.invertItems range (-1) items) !(op ≠ .cmpEq)
  else .idList (some attr) label delete items (op ≠ .cmpEq)

/-- `OptimizeStringConstraint`. A bare label has no attribute, hence no lexicon to look strings up. -/
def optimizeStringConstraint (attr : Option P) (label : Option LabelEntry) (delete : Bool) (op : BOps)
    (right : StringLeaf) : Constrainttree P S D F :=
  match attr, right with
  | some attr, .regexp sconst canon =>
    if 0 < (corpus.pos attr).lexsize ∧ (corpus.pos attr).lexsize < makeIdlistBound then
      regexConstraint corpus attr label delete op sconst canon
    else .bnode op (.paRef (some attr) label delete) (.stringLeaf right)
  | some attr, .normal sconst =>
    match (corpus.pos attr).str2id sconst with
    | none => .cnode (op ≠ .cmpEq)
    | some id => .bnode op (.paRef (some attr) label delete) (.stringLeaf (.cid id))
  | none, .normal _ => .cnode (op ≠ .cmpEq)
  | _, _ => .bnode op (.paRef attr label delete) (.stringLeaf right)

/-- `Varref2IDList`; `VerifyVariable` does not survive a bare label, which has no attribute. -/
def varref2IDList (attr : Option P) (label : Option LabelEntry) (delete : Bool) (op : BOps)
    (varName : String) : Option (Constrainttree P S D F) := do
  let v ← corpus.findVariable varName
  let attr ← attr
  let items := corpus.getVariableItems v attr
  if items.length = 0 then some (.cnode (op ≠ .cmpEq))
  else some (.idList (some attr) label delete items (op ≠ .cmpEq))

/-- `do_RelExpr` -/
def doRelExpr (left : Constrainttree P S D F) (op : BOps) (right : Constrainttree P S D F) :
    Option (Constrainttree P S D F) :=
  match left, right with
  | .paRef attr label delete, .varRef varName => varref2IDList corpus attr label delete op varName
  | _, .varRef _ => none
  | .paRef attr label delete, .stringLeaf leaf =>
    some (optimizeStringConstraint corpus attr label delete op leaf)
  | _, _ => some (.bnode op left right)

/-- What `try_optimization` can merge. -/
def Constrainttree.alternatives : Constrainttree P S D F → Option (P × Option LabelEntry × List ℤ)
  | .bnode .cmpEq (.paRef (some attr) label _) (.stringLeaf (.cid id)) => some (attr, label, [id])
  | .idList (some attr) label _ items false => some (attr, label, items)
  | _ => none

/-- `try_optimization` on a disjunction; it leaves the other trees that the parser gives it alone. -/
def tryOptimization [DecidableEq P] (left right : Constrainttree P S D F) : Constrainttree P S D F :=
  match left.alternatives, right.alternatives with
  | some (leftAttr, leftLabel, leftItems), some (rightAttr, rightLabel, rightItems) =>
    if leftAttr = rightAttr ∧ leftLabel = rightLabel then
      match left, right with
      | .bnode .., .idList .. => .idList (some leftAttr) leftLabel corpus.fresh (unionItems rightItems leftItems) false
      | _, _ => .idList (some leftAttr) leftLabel corpus.fresh (unionItems leftItems rightItems) false
    else .bnode .bOr left right
  | _, _ => .bnode .bOr left right

def boolOr [DecidableEq P] (left right : Constrainttree P S D F) : Constrainttree P S D F :=
  match left, right with
  | .cnode false, _ => right
  | .cnode true, _ => left
  | _, .cnode false => left
  | _, .cnode true => right
  | _, _ => tryOptimization corpus left right

def boolNot (left : Constrainttree P S D F) : Constrainttree P S D F :=
  match left with
  | .cnode val => .cnode !val
  | .idList attr label delete items negated => .idList attr label delete items !negated
  | .bnode .bNot left .null => left
  | _ => .bnode .bNot left .null

def boolImplies (left right : Constrainttree P S D F) : Constrainttree P S D F :=
  match left, right with
  | .cnode false, _ => .cnode true
  | .cnode true, _ => right
  | _, .cnode false => boolNot left
  | _, .cnode true => right
  | _, _ => .bnode .bImplies left right

def boolAnd (left right : Constrainttree P S D F) : Constrainttree P S D F :=
  match left, right with
  | .cnode false, _ => left
  | .cnode true, _ => right
  | _, .cnode false => right
  | _, .cnode true => left
  | _, _ => .bnode .bAnd left right

/-- The tree that the parser builds, bottom-up. -/
def buildBool [DecidableEq P] : BoolExpr F → Option (Constrainttree P S D F)
  | .implies left right => do some (boolImplies (← buildBool left) (← buildBool right))
  | .or left right => do some (boolOr corpus (← buildBool left) (← buildBool right))
  | .and left right => do some (boolAnd (← buildBool left) (← buildBool right))
  | .not left => do some (boolNot (← buildBool left))
  | .relExpr left op right => do
    let left ← buildLHS corpus left
    doRelExpr corpus left (relOp op) (← buildRHS corpus right)
  | .mval left op negated s flags => do
    let left ← buildLHS corpus left
    doRelExpr corpus left (if negated then .cmpNeq else .cmpEq) (.stringLeaf (← doMvalString corpus s op flags))
  | .relExExpr left => do some (.bnode .cmpEx (← buildLHS corpus left) .null)

def build [DecidableEq P] : TokenConstraint F → Option (Constrainttree P S D F)
  | .string s flags => do
    let attr ← corpus.defUnbrAttr
    some (optimizeStringConstraint corpus (some attr) none false .cmpEq (← corpus.doFlaggedString s flags))
  | .variable varName => do
    let attr ← corpus.defUnbrAttr
    varref2IDList corpus (some attr) none false .cmpEq varName
  | .boolExpr e => buildBool corpus e
  | .matchAll => some (.cnode true)

end Build

/-! ## Evaluation -/

structure EvalState where
  rt : RefTab
  /-- `EvaluationIsRunning` -/
  running : Bool

inductive Fault where
  /-- an assertion fails -/
  | assertion
  /-- a value is used that was never set -/
  | undefined
deriving Repr, DecidableEq

abbrev Eval := StateT EvalState (Except Fault)

/-- An error message, after which the evaluation of the query stops. -/
def evaluationError {α : Type} (result : α) : Eval α := do
  modify fun st => { st with running := false }
  return result

/-- `get_label_referenced_position`, and the automatic deletion of the label. -/
def referencedPosition (label : LabelEntry) (delete : Bool) (corppos : ℤ) : Eval ℤ := do
  let st ← get
  let position := if label.ref = -1 then corppos else if label.ref < 0 then -1 else st.rt label.ref.toNat
  if delete then
    set { st with rt := st.rt.set label.ref.toNat (-1) }
  return position

/-- The position that a reference is about: that of its label, or the current one without a label. -/
def labelPosition (label : Option LabelEntry) (delete : Bool) (corppos : ℤ) : Eval ℤ :=
  match label with
  | none => return corppos
  | some label => referencedPosition label delete corppos

section Evaluate

variable {P S D F : Type} (corpus : EvalCorpus P S D F)

namespace DynCallResult

/-- The member `intres`, which positions and integers share. -/
def intres : DynCallResult P F → ℤ
  | .pos n | .int n => n
  | _ => 0

/-- Whether a value can be passed for an argument of a type. -/
def fits : DynCallResult P F → ArgType → Bool
  | .int _, .int | .int _, .pos | .pos _, .pos | .pos _, .int => true
  | .string _, .string | .paref _ _, .string | .none, .string => true
  | _, _ => false

def isNone : DynCallResult P F → Bool
  | .none => true
  | _ => false

/-- Positions are compared as integers. -/
def posToInt : DynCallResult P F → DynCallResult P F
  | .pos n => .int n
  | v => v

end DynCallResult

/-! ### Built-in functions -/

def ActualParamList.param : ActualParamList P S D F → Constrainttree P S D F
  | .nil => .null
  | .cons param _ => param

/-- A string argument. The attribute of a lexicon ID is that of the parameter `args[i].param`, where
`args` is the first element of a list, not an array: there is only one for `i = 0`. -/
def stringArg (param : Option (Constrainttree P S D F)) : DynCallResult P F → Except Fault String
  | .string (some s) => .ok s
  | .paref _ tokenId =>
    match param with
    | some (.paRef (some attr) _ _) => .ok ((corpus.pos attr).id2str tokenId)
    | some _ => .error .assertion
    | none => .error .undefined
  | _ => .error .undefined

/-- `common_prefix_length` -/
def commonPrefixLength : List Char → List Char → ℕ
  | c :: s, d :: t => if c = d then commonPrefixLength s t + 1 else 0
  | _, _ => 0

def clDynStringSize : ℕ := 2048

/-- `f`: the frequency of an attribute value, 0 for a label that is not set. -/
def builtinF (param : Constrainttree P S D F) (v : DynCallResult P F) :
    Except Fault (Option (DynCallResult P F)) :=
  match param with
  | .paRef (some attr) _ _ =>
    match v with
    | .none => .ok (some (.int 0))
    | .paref _ tokenId => .ok (some (.int ((corpus.pos attr).ids.count tokenId)))
    | .string (some s) =>
      .ok (((corpus.pos attr).str2id s).map fun id => .int ((corpus.pos attr).ids.count id))
    | _ => .error .undefined
  | _ => .error .assertion

/-- `lbound_of` and `rbound_of`: a boundary of the region around a position. -/
def boundOf (boundary : ℤ × ℤ → ℤ) (param : Constrainttree P S D F) (v : DynCallResult P F) :
    Option (DynCallResult P F) :=
  match param with
  | .saRef attr _ _ =>
    match corpus.struc attr v.intres with
    | none => some .none
    | some region => some (.int (boundary region))
  | _ => none

/-- `prefix` and `minus` put a part of the first string into a buffer of fixed size. -/
def bufferedString (s : List Char) : Option (DynCallResult P F) :=
  if s.length ≥ clDynStringSize - 1 then none else some (.string (some (String.ofList s)))

/-- The result of `cl_set_size`, negative for a malformed set. -/
def cardinality (count : ℤ) : Option (DynCallResult P F) := if count ≥ 0 then some (.int count) else none

/-- The `switch` of `call_predefined_function`; `none` is an error. -/
def callBuiltin (bfId : ℕ) (apl : List (DynCallResult P F)) (args : ActualParamList P S D F) :
    Except Fault (Option (DynCallResult P F)) :=
  match bfId, apl with
  | 0, [v] => builtinF corpus args.param v
  | 1, [v, w] | 2, [v, w] => .ok (some (.int (w.intres - v.intres)))
  | 3, [v, w] => .ok (some (.int (w.intres - v.intres).natAbs))
  | 4, [v] => do
    let s ← stringArg corpus (some args.param) v
    return (corpus.atoi s).map .int
  | 5, [v] =>
    match args.param with
    | .saRef _ _ _ => .ok (some (.int (v.intres % 2)))
    | _ => .ok none
  | 6, [v] =>
    match args.param with
    | .saRef _ _ _ => .ok (some (.int (v.intres / 2 % 2)))
    | _ => .ok none
  | 7, [v, w] => do
    if w.isNone then return none
    let t ← stringArg corpus none w
    if v.isNone then return some (.string (some t))
    let s ← stringArg corpus (some args.param) v
    return (corpus.setIntersection s t).map fun r => .string (some r)
  | 8, [.none] => .ok (cardinality (corpus.setSize "|"))
  | 8, [v] => do
    let s ← stringArg corpus (some args.param) v
    return cardinality (corpus.setSize s)
  | 9, [v, w] => .ok (some (.int (v.intres + w.intres)))
  | 10, [v, w] => .ok (some (.int (v.intres - w.intres)))
  | 11, [v, w] => .ok (some (.int (v.intres * w.intres)))
  | 12, [v, w] => do
    if v.isNone || w.isNone then return none
    let s ← stringArg corpus (some args.param) v
    let t ← stringArg corpus none w
    return bufferedString (s.toList.take (commonPrefixLength s.toList t.toList))
  | 13, [v, w] => do
    if v.isNone || w.isNone then return none
    let s ← stringArg corpus (some args.param) v
    let t ← stringArg corpus none w
    return some (.int (if commonPrefixLength s.toList t.toList = s.toList.length then 1 else 0))
  | 14, [v, w] => do
    if v.isNone || w.isNone then return none
    let s ← stringArg corpus (some args.param) v
    let t ← stringArg corpus none w
    return bufferedString (s.toList.drop (commonPrefixLength s.toList t.toList))
  | 15, [_] => .ok (some (.int 1))
  | 16, [v, w] =>
    match v.isNone, w with
    | false, .string (some mode) => do
      let s ← stringArg corpus (some args.param) v
      let has := fun c : Char => mode.toList.contains c
      return some (.string (some (corpus.fold (has 'c' || has 'C') (has 'd' || has 'D') s)))
    | false, .string none => .error .undefined
    | _, _ => .ok none
  | 17, [_, w] => .ok (boundOf corpus Prod.fst args.param w)
  | 18, [_, w] => .ok (boundOf corpus Prod.snd args.param w)
  | _, _ => .ok none

/-- `call_predefined_function`. A value of no type is passed on for a string only; otherwise the
result has no type either. -/
def callPredefinedFunction (bfId : ℕ) (apl : List (DynCallResult P F)) (args : ActualParamList P S D F) :
    Except Fault (Option (DynCallResult P F)) :=
  match builtinFunction[bfId]? with
  | none => .ok none
  | some bf =>
    if apl.length ≠ bf.argtypes.length then .ok none
    else if (apl.zip bf.argtypes).any fun a => !a.1.fits a.2 && !a.1.isNone then .ok none
    else if (apl.zip bf.argtypes).any fun a => !a.1.fits a.2 then .ok (some .none)
    else callBuiltin corpus bfId apl args

/-! ### Leaves -/

mutual

/-- `get_leaf_value`, `none` if it returns `False`. -/
def getLeafValue (corppos : ℤ) : Constrainttree P S D F → Bool → Eval (Option (DynCallResult P F))
  | .func predef dynattr args nrArgs, _ =>
    if nrArgs = 0 then return none
    else do
      match ← getArgs corppos args nrArgs with
      | none => return none
      | some fargs =>
        if fargs.length ≠ nrArgs then throw .assertion
        else if 0 ≤ predef then
          match callPredefinedFunction corpus predef.toNat fargs args with
          | .error fault => throw fault
          | .ok none => evaluationError none
          | .ok (some result) => return some result
        else match dynattr with
          | none => throw .assertion
          | some attr => return corpus.callDynamic attr fargs
  | .paRef none none _, _ => throw .assertion
  | .paRef none (some label) delete, _ => do
    let position ← referencedPosition label delete corppos
    return some (.pos position)
  | .paRef (some attr) label delete, deliverStrings => do
    let position ← labelPosition label delete corppos
    if label.isSome ∧ position < 0 then return some .none
    else if deliverStrings then
      return ((corpus.pos attr).cpos2id position).map fun id => .string (some ((corpus.pos attr).id2str id))
    else return ((corpus.pos attr).cpos2id position).map (.paref attr)
  | .saRef attr none _, _ =>
    match corpus.struc attr corppos with
    | none => return some (.int 0)
    | some (strucStart, strucEnd) =>
      return some (.int ((if corppos = strucStart then 1 else 0) + (if corppos = strucEnd then 2 else 0) +
        (if corppos ≥ strucStart ∧ corppos ≤ strucEnd then 4 else 0)))
  | .saRef attr (some label) delete, _ => do
    let position ← referencedPosition label delete corppos
    if position < 0 then return some .none
    else match corpus.structureValue attr position with
      | (.ok, charres) => return some (.string charres)
      | (.eposorng, _) => return some .none
      | (.other, _) => return none
  | .stringLeaf (.cid cidconst), _ => return some (.int cidconst)
  | .stringLeaf (.normal sconst), _ | .stringLeaf (.regexp sconst _), _ => return some (.string (some sconst))
  -- the value is stored, but there is no `return`: control gets to the assertion behind the `switch`
  | .floatLeaf _, _ => throw .assertion
  | .intLeaf iconst, _ => return some (.int iconst)
  | _, _ => evaluationError none

/-- The values of the arguments, up to the first that cannot be computed. -/
def getArgs (corppos : ℤ) : ActualParamList P S D F → ℕ → Eval (Option (List (DynCallResult P F)))
  | .cons param next, nrArgs + 1 => do
    match ← getLeafValue corppos param true with
    | none => return none
    | some arg =>
      match ← getArgs corppos next nrArgs with
      | none => return none
      | some fargs => return some (arg :: fargs)
  | _, _ => return some []

end

/-! ### Comparisons -/

/-- The type of a node, by which `eval_bool` selects the operands of a comparison. -/
def Constrainttree.isNull : Constrainttree P S D F → Bool
  | .null => true
  | _ => false

def Constrainttree.isReference : Constrainttree P S D F → Bool
  | .func .. | .paRef .. | .saRef .. => true
  | _ => false

def Constrainttree.isValue : Constrainttree P S D F → Bool
  | .intLeaf _ | .floatLeaf _ | .stringLeaf _ => true
  | t => t.isReference

/-- `cmp_ex` -/
def existence : DynCallResult P F → Eval Bool
  | .string charres => return charres.isSome
  | .paref _ _ => return true
  | .float floatres => return corpus.floatNonzero floatres
  | .int intres => return intres ≠ 0
  | .pos intres => return 0 ≤ intres
  | .none => return false
  | .var => evaluationError false

/-- The operators of lexicon IDs. -/
def BOps.equality (op : BOps) (equal : Bool) : Eval Bool :=
  match op with
  | .cmpEq => return equal
  | .cmpNeq => return !equal
  | _ => evaluationError false

/-- The operators of numbers. -/
def BOps.numeric (op : BOps) (holds : CmpOp → Bool) : Eval Bool :=
  match op with
  | .cmpGt => return holds .cmpGt
  | .cmpLt => return holds .cmpLt
  | .cmpGet => return holds .cmpGet
  | .cmpLet => return holds .cmpLet
  | .cmpEq => return holds .cmpEq
  | .cmpNeq => return holds .cmpNeq
  | _ => evaluationError false

/-- Two strings; only one that was entered in the query can be a regular expression. -/
def compareStrings (op : BOps) (ls rs : Option String) (right : Constrainttree P S D F) : Eval Bool :=
  match ls, rs with
  | some ls, some rs =>
    match right with
    | .stringLeaf (.regexp _ canon) =>
      let equal := if rs = ".*" then true else corpus.regexMatch rs canon ls
      return if op = .cmpEq then equal else !equal
    | .stringLeaf (.cid _) => evaluationError false
    | _ => return if op = .cmpEq then ls = rs else ls ≠ rs
  | _, _ => throw .assertion

/-- The string of a value that is compared with a string. -/
def lexiconString (attr : P) (tokenId : ℕ) : Option String := some ((corpus.pos attr).id2str tokenId)

/-- The relational operator on the values of both sides. -/
def compare [DecidableEq P] (op : BOps) (lhs rhs : DynCallResult P F) (right : Constrainttree P S D F) :
    Eval Bool :=
  match lhs.posToInt, rhs.posToInt with
  | .none, _ | _, .none => return false
  | .paref _ tokenId, .int intres => op.equality ((tokenId : ℤ) = intres)
  | .paref attr tokenId, .paref attr' tokenId' =>
    if attr = attr' then op.equality (tokenId = tokenId')
    else op.equality (lexiconString corpus attr tokenId = lexiconString corpus attr' tokenId')
  | .paref attr tokenId, .string rs => compareStrings corpus op (lexiconString corpus attr tokenId) rs right
  | .string ls, .string rs => compareStrings corpus op ls rs right
  | .string ls, .paref attr tokenId => compareStrings corpus op ls (lexiconString corpus attr tokenId) right
  | .int lhs, .int rhs => op.numeric fun op => op.int lhs rhs
  | .float lhs, .float rhs => op.numeric fun op => corpus.compareFloat op lhs rhs
  | .var, .var => throw .assertion
  | _, _ => evaluationError false

/-- The part of `eval_bool` for the relational operators. -/
def evalComparison [DecidableEq P] (corppos : ℤ) (op : BOps) (left right : Constrainttree P S D F) : Eval Bool :=
  if left.isNull || op ≠ .cmpEx && right.isNull then throw .assertion
  else if left.isReference then do
    match ← getLeafValue corpus corppos left false with
    | none => return false
    | some lhs =>
      if op = .cmpEx then existence corpus lhs
      else if right.isValue then
        match ← getLeafValue corpus corppos right false with
        | none => return false
        | some rhs => compare corpus op lhs rhs right
      else evaluationError false
  else evaluationError false

/-! ### Boolean operators -/

/-- `eval_bool` -/
def evalBool [DecidableEq P] (corppos : ℤ) : Constrainttree P S D F → Eval Bool
  | .null => return true
  | .bnode .bAnd left right => do
    if left.isNull || right.isNull then throw .assertion
    else if ← evalBool corppos left then evalBool corppos right
    else return false
  | .bnode .bOr left right => do
    if left.isNull || right.isNull then throw .assertion
    else if ← evalBool corppos left then return true
    else evalBool corppos right
  | .bnode .bImplies left right => do
    if left.isNull || right.isNull then throw .assertion
    else if ← evalBool corppos left then evalBool corppos right
    else return true
  | .bnode .bNot left right => do
    if left.isNull then return true
    else if !right.isNull then throw .assertion
    else return !(← evalBool corppos left)
  | .bnode op left right => evalComparison corpus corppos op left right
  | .cnode val => return val
  | .idList none _ _ _ _ => throw .assertion
  | .idList (some attr) label delete items negated => do
    let position ← labelPosition label delete corppos
    let res := corpus.idListMember attr items position
    return if negated then !res else res
  | .sbound _ _ => throw .assertion
  | _ => evaluationError false

end Evaluate

end CWB.EvalBool
