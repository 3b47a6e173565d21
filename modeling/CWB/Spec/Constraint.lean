import CWB.Library.BinarySearch
import CWB.Spec.Eval
import CWB.Spec.Makecomps

/-! The constraint trees of `cqp/eval.h`, the actions of `cqp/parse_actions.c` and
`cqp/tree.c` that build and optimise them, and their evaluation at one corpus position
(`eval_bool` of `cqp/eval.c`). Labels and function calls are left out, so that a tree
has no label fields. Regular expressions, Unicode normalisation and the LaTeX
escapes of the corpus library are parameters. -/

namespace CWB

/-- A positional attribute: its token stream and the lexicon, the ID being the index. -/
structure PAttribute extends TokenStream where
  lexicon : List String
  lexicon_nodup : lexicon.Nodup
  lexicon_length : lexicon.length = lexsize

/-- A word list; `VariableAddItem` skips strings that are there already. -/
structure Variable where
  items : List String
  items_nodup : items.Nodup

namespace PAttribute

variable (attr : PAttribute)

/-- `cl_cpos2id`, `none` for a position outside the corpus. -/
def cpos2id (cpos : ℤ) : Option ℕ := if cpos < 0 then none else attr.ids[cpos.toNat]?

/-- `cl_str2id`, `none` for a string that is not in the lexicon. -/
def str2id (s : String) : Option ℕ := if s ∈ attr.lexicon then some (attr.lexicon.idxOf s) else none

/-- `cl_id2str` -/
def id2str (id : ℕ) : String := attr.lexicon.getD id ""

/-- `cl_idlist2freq` -/
def idlist2freq (items : List ℤ) : ℕ := (items.map fun id => attr.ids.count id.toNat).sum

end PAttribute

/-- The corpus as constraints see it (`P`, `S`: the positional and structural attributes). -/
structure ConstraintCorpus (P S : Type) where
  size : ℕ
  pos : P → PAttribute
  pos_size : ∀ a, (pos a).ids.length = size
  /-- `get_struc_attribute`: the region around a position -/
  struc : S → ℤ → Option (ℤ × ℤ)
  utf8 : Bool
  /-- `cl_string_canonical` with `REQUIRE_NFC` -/
  canonical : String → String
  /-- `cl_string_latex2iso` -/
  latex2iso : String → String
  /-- whether `cl_new_regex` accepts the expression under these flags -/
  newRegex : String → ℕ → Bool
  regexMatch : String → ℕ → String → Bool
  /-- no lexicon entry holds a line break, so `.*` matches all of them -/
  regexMatch_all : ∀ a, ∀ s ∈ (pos a).lexicon, ∀ flags, regexMatch ".*" flags s = true
  findVariable : String → Option Variable

inductive CmpOp where
  | cmpGt | cmpLt | cmpGet | cmpLet | cmpEq | cmpNeq
deriving Repr, DecidableEq

/-- `string_leaf` with its `pat_type`. -/
inductive StringLeaf where
  | normal (sconst : String)
  | regexp (sconst : String) (canon : ℕ)
  | cid (cidconst : ℤ)
deriving Repr, DecidableEq

inductive Operand (P S : Type) where
  | paRef (attr : P)
  | saRef (attr : S)
  | stringLeaf (leaf : StringLeaf)
  | intLeaf (iconst : ℤ)
deriving Repr, DecidableEq

inductive Constraint (P S : Type) where
  | bAnd (left right : Constraint P S)
  | bOr (left right : Constraint P S)
  | bImplies (left right : Constraint P S)
  | bNot (left : Constraint P S)
  | cmp (op : CmpOp) (left right : Operand P S)
  | cmpEx (left : Operand P S)
  | cnode (val : Bool)
  | idList (attr : P) (items : List ℤ) (negated : Bool)
deriving Repr, DecidableEq

/-- `RelLHS` of the grammar. -/
inductive AttributeRef (P S : Type) where
  | pos (attr : P)
  | struc (attr : S)
deriving Repr, DecidableEq

/-- `RelRHS` of the grammar. -/
inductive RelRHS (P S : Type) where
  | attributeRef (ref : AttributeRef P S)
  | string (s : String) (flags : ℕ)
  | varRef (varName : String)
  | integer (n : ℤ)
deriving Repr, DecidableEq

/-- `BoolExpr` of the grammar. -/
inductive BoolExpr (P S : Type) where
  | implies (left right : BoolExpr P S)
  | or (left right : BoolExpr P S)
  | and (left right : BoolExpr P S)
  | not (left : BoolExpr P S)
  | relExpr (left : AttributeRef P S) (op : CmpOp) (right : RelRHS P S)
  | relExExpr (left : AttributeRef P S)
deriving Repr, DecidableEq

def ignoreRegex : ℕ := 4

def makeIdlistBound : ℕ := 1000

/-- The characters that make a string a regular expression. -/
def regexChars : List Char := ['[', ']', '(', ')', '{', '}', '.', '*', '+', '|', '?', '\\']

/-- `strcspn(s, regexChars) == strlen(s)` -/
def plainString (s : String) : Bool := s.toList.all fun c => !regexChars.contains c

def AttributeRef.operand {P S : Type} : AttributeRef P S → Operand P S
  | .pos attr => .paRef attr
  | .struc attr => .saRef attr

namespace ConstraintCorpus

variable {P S : Type} (corpus : ConstraintCorpus P S)

/-- `do_flagged_string`, `none` for an illegal regular expression. -/
def doFlaggedString (s : String) (flags : ℕ) : Option StringLeaf :=
  let s := corpus.latex2iso s
  if flags = ignoreRegex ∨ plainString s ∧ flags = 0 then some (.normal s)
  else if corpus.newRegex s flags then some (.regexp s flags)
  else none

/-- `collect_matching_ids` (`cl_regex2id`): the IDs of the matching entries, ascending. -/
def collectMatchingIds (attr : P) (sconst : String) (canon : ℕ) : List ℤ :=
  ((List.range (corpus.pos attr).lexsize).filter fun id =>
    corpus.regexMatch sconst canon ((corpus.pos attr).id2str id)).map Int.ofNat

/-- The loop that inverts an ID list: copy the gap before each item, then the rest. -/
def invertItems (range : ℤ) : ℤ → List ℤ → List ℤ
  | lastId, [] => Int.range (lastId + 1) range
  | lastId, id :: items => Int.range (lastId + 1) id ++ invertItems range id items

/-- The regular expression as an ID list, or its complement when that is the rarer one. -/
def regexConstraint (attr : P) (op : CmpOp) (sconst : String) (canon : ℕ) : Constraint P S :=
  let range := (corpus.pos attr).lexsize
  let items := corpus.collectMatchingIds attr sconst canon
  if items.length = 0 then .cnode (op ≠ .cmpEq)
  else if items.length = range then .cnode (op = .cmpEq)
  else if (corpus.pos attr).idlist2freq items > corpus.size / 2 then
    .idList attr (invertItems range (-1) items) !(op ≠ .cmpEq)
  else .idList attr items (op ≠ .cmpEq)

/-- `OptimizeStringConstraint`. The string parser never returns a constant or an ID. -/
def optimizeStringConstraint (attr : P) (op : CmpOp) (right : StringLeaf) : Constraint P S :=
  match right with
  | .regexp sconst canon =>
    if 0 < (corpus.pos attr).lexsize ∧ (corpus.pos attr).lexsize < makeIdlistBound then
      corpus.regexConstraint attr op sconst canon
    else .cmp op (.paRef attr) (.stringLeaf right)
  | .normal sconst =>
    match (corpus.pos attr).str2id sconst with
    | none => .cnode (op ≠ .cmpEq)
    | some id => .cmp op (.paRef attr) (.stringLeaf (.cid id))
  | .cid _ => .cmp op (.paRef attr) (.stringLeaf right)

/-- The lexicon ID of a string of a variable (`VerifyVariable`). -/
def itemId (attr : P) (sval : String) : Option ℤ :=
  ((corpus.pos attr).str2id (if corpus.utf8 then corpus.canonical sval else sval)).map Int.ofNat

/-- `GetVariableItems` -/
def getVariableItems (v : Variable) (attr : P) : List ℤ :=
  (v.items.filterMap (corpus.itemId attr)).insertionSort (· ≤ ·)

/-- `Varref2IDList`, `none` for an undefined variable. -/
def varref2IDList (attr : P) (op : CmpOp) (varName : String) : Option (Constraint P S) := do
  let v ← corpus.findVariable varName
  let items := corpus.getVariableItems v attr
  if items.length = 0 then some (.cnode (op ≠ .cmpEq)) else some (.idList attr items (op ≠ .cmpEq))

end ConstraintCorpus

/-- `Setop(Union)` on two ID lists. -/
def unionItems (left right : List ℤ) : List ℤ :=
  (setopUnion (.ofStarts left) (.ofStarts right)).starts

section Build

variable {P S : Type} [DecidableEq P]

/-- What `try_optimization` can merge: the attribute and the IDs of `= ID` or of a plain ID list. -/
def Constraint.alternatives : Constraint P S → Option (P × List ℤ)
  | .cmp .cmpEq (.paRef attr) (.stringLeaf (.cid id)) => some (attr, [id])
  | .idList attr items false => some (attr, items)
  | _ => none

/-- `try_optimization` on a disjunction, the one kind of tree that it changes. An ID list
on the right is the first operand of the union when the left is a single ID. -/
def tryOptimization (left right : Constraint P S) : Constraint P S :=
  match left.alternatives, right.alternatives with
  | some (leftAttr, leftItems), some (rightAttr, rightItems) =>
    if leftAttr = rightAttr then
      match left, right with
      | .cmp .., .idList .. => .idList leftAttr (unionItems rightItems leftItems) false
      | _, _ => .idList leftAttr (unionItems leftItems rightItems) false
    else .bOr left right
  | _, _ => .bOr left right

def boolOr (left right : Constraint P S) : Constraint P S :=
  match left, right with
  | .cnode false, _ => right
  | .cnode true, _ => left
  | _, .cnode false => left
  | _, .cnode true => right
  | _, _ => tryOptimization left right

def boolNot (left : Constraint P S) : Constraint P S :=
  match left with
  | .cnode val => .cnode !val
  | .idList attr items negated => .idList attr items !negated
  | .bNot left => left
  | _ => .bNot left

def boolImplies (left right : Constraint P S) : Constraint P S :=
  match left, right with
  | .cnode false, _ => .cnode true
  | .cnode true, _ => right
  | _, .cnode false => boolNot left
  | _, .cnode true => right
  | _, _ => .bImplies left right

def boolAnd (left right : Constraint P S) : Constraint P S :=
  match left, right with
  | .cnode false, _ => left
  | .cnode true, _ => right
  | _, .cnode false => right
  | _, .cnode true => left
  | _, _ => .bAnd left right

variable (corpus : ConstraintCorpus P S)

/-- `do_RelExpr`, `none` for a parse error. -/
def ConstraintCorpus.doRelExpr (left : AttributeRef P S) (op : CmpOp) (right : RelRHS P S) :
    Option (Constraint P S) :=
  match left, right with
  | .pos attr, .varRef varName => corpus.varref2IDList attr op varName
  | .struc _, .varRef _ => none
  | .pos attr, .string s flags => do
    let leaf ← corpus.doFlaggedString s flags
    some (corpus.optimizeStringConstraint attr op leaf)
  | .struc attr, .string s flags => do
    let leaf ← corpus.doFlaggedString s flags
    some (.cmp op (.saRef attr) (.stringLeaf leaf))
  | _, .integer n => some (.cmp op left.operand (.intLeaf n))
  | _, .attributeRef ref => some (.cmp op left.operand ref.operand)

/-- The tree that the parser builds for an expression, bottom-up. -/
def ConstraintCorpus.build : BoolExpr P S → Option (Constraint P S)
  | .implies left right => do some (boolImplies (← build left) (← build right))
  | .or left right => do some (boolOr (← build left) (← build right))
  | .and left right => do some (boolAnd (← build left) (← build right))
  | .not left => do some (boolNot (← build left))
  | .relExpr left op right => corpus.doRelExpr left op right
  | .relExExpr left => some (.cmpEx left.operand)

end Build

/-- `DynCallResult`, with the types that attributes and constants have. -/
inductive DynCallResult (P : Type) where
  | string (charres : String)
  | paref (attr : P) (tokenId : ℕ)
  | int (intres : ℤ)
deriving Repr, DecidableEq

/-- The comparison of two integers. -/
def CmpOp.int (op : CmpOp) (lhs rhs : ℤ) : Bool :=
  match op with
  | .cmpGt => lhs > rhs
  | .cmpLt => lhs < rhs
  | .cmpGet => lhs ≥ rhs
  | .cmpLet => lhs ≤ rhs
  | .cmpEq => lhs = rhs
  | .cmpNeq => lhs ≠ rhs

/-- Equality or inequality. Any other operator is an error, which stops the evaluation. -/
def CmpOp.equality (op : CmpOp) (equal : Bool) : Bool × Bool :=
  match op with
  | .cmpEq => (equal, true)
  | .cmpNeq => (!equal, true)
  | .cmpGt | .cmpLt | .cmpGet | .cmpLet => (false, false)

namespace ConstraintCorpus

variable {P S : Type} (corpus : ConstraintCorpus P S)

/-- `get_leaf_value`, `none` if there is no token at the position. -/
def getLeafValue (leaf : Operand P S) (corppos : ℤ) : Option (DynCallResult P) :=
  match leaf with
  | .paRef attr => ((corpus.pos attr).cpos2id corppos).map (.paref attr)
  | .saRef attr =>
    match corpus.struc attr corppos with
    | none => some (.int 0)
    | some (strucStart, strucEnd) =>
      some (.int ((if corppos = strucStart then 1 else 0) + (if corppos = strucEnd then 2 else 0) +
        (if corppos ≥ strucStart ∧ corppos ≤ strucEnd then 4 else 0)))
  | .stringLeaf (.cid cidconst) => some (.int cidconst)
  | .stringLeaf (.normal sconst) | .stringLeaf (.regexp sconst _) => some (.string sconst)
  | .intLeaf iconst => some (.int iconst)

/-- The string on the right is a regular expression only if it was entered in the query. Any
operator but `=` counts as `!=` here. -/
def compareStrings (op : CmpOp) (ls rs : String) (right : Operand P S) : Bool :=
  match right with
  | .stringLeaf (.regexp _ canon) =>
    if rs = ".*" then op = .cmpEq
    else if op = .cmpEq then corpus.regexMatch rs canon ls
    else !corpus.regexMatch rs canon ls
  | _ => if op = .cmpEq then ls = rs else ls ≠ rs

/-- The relational operator on two values, and whether the evaluation goes on. -/
def compare [DecidableEq P] (op : CmpOp) (lhs rhs : DynCallResult P) (right : Operand P S) : Bool × Bool :=
  match lhs, rhs with
  | .paref _ tokenId, .int intres => op.equality ((tokenId : ℤ) = intres)
  | .paref attr tokenId, .paref attr' tokenId' =>
    if attr = attr' then op.equality (tokenId = tokenId')
    else op.equality ((corpus.pos attr).id2str tokenId = (corpus.pos attr').id2str tokenId')
  | .paref attr tokenId, .string rs =>
    (corpus.compareStrings op ((corpus.pos attr).id2str tokenId) rs right, true)
  | .string ls, .string rs => (corpus.compareStrings op ls rs right, true)
  | .string ls, .paref attr tokenId =>
    (corpus.compareStrings op ls ((corpus.pos attr).id2str tokenId) right, true)
  | .int lhs, .int rhs => (op.int lhs rhs, true)
  | .int _, _ | .string _, .int _ => (false, false)

/-- The membership test of an `id_list` node. -/
def idListMember (attr : P) (items : List ℤ) (corppos : ℤ) : Bool :=
  if items.length = 0 then false
  else match (corpus.pos attr).cpos2id corppos with
    | none => false
    | some id => BinarySearch.search (id : ℤ) items

/-- `eval_bool`: the truth value, and whether `EvaluationIsRunning` is left alone; an
error message clears it. -/
def evalBool [DecidableEq P] : Constraint P S → ℤ → Bool × Bool
  | .bAnd left right, corppos =>
    let (l, running) := evalBool left corppos
    if l then
      let (r, running') := evalBool right corppos
      (r, running && running')
    else (false, running)
  | .bOr left right, corppos =>
    let (l, running) := evalBool left corppos
    if l then (true, running)
    else
      let (r, running') := evalBool right corppos
      (r, running && running')
  | .bImplies left right, corppos =>
    let (l, running) := evalBool left corppos
    if l then
      let (r, running') := evalBool right corppos
      (r, running && running')
    else (true, running)
  | .bNot left, corppos =>
    let (l, running) := evalBool left corppos
    (!l, running)
  | .cmp op left right, corppos =>
    match corpus.getLeafValue left corppos, corpus.getLeafValue right corppos with
    | some lhs, some rhs => corpus.compare op lhs rhs right
    | _, _ => (false, true)
  | .cmpEx left, corppos =>
    match corpus.getLeafValue left corppos with
    | none => (false, true)
    | some (.string _) | some (.paref _ _) => (true, true)
    | some (.int intres) => (intres ≠ 0, true)
  | .cnode val, _ => (val, true)
  | .idList attr items negated, corppos =>
    let res := corpus.idListMember attr items corppos
    (if negated then !res else res, true)

end ConstraintCorpus

/-! Comparisons with a label reference, `label.attr op "string"`, and the negations and disjunctions
of them: the actions of `cqp/parse_actions.c` and `cqp/tree.c` that optimise them, and their
evaluation, which reads the reference table and deletes labels from it. -/

/-- A `pa_ref` node with a label; `~label` sets `delete`. -/
structure LabelRef (P : Type) where
  attr : P
  label : ℕ
  delete : Bool
deriving Repr, DecidableEq

inductive LabelConstraint (P : Type) where
  | bOr (left right : LabelConstraint P)
  | bNot (left : LabelConstraint P)
  | cmp (op : CmpOp) (left : LabelRef P) (right : StringLeaf)
  | cnode (val : Bool)
  | idList (ref : LabelRef P) (items : List ℤ) (negated : Bool)
deriving Repr, DecidableEq

/-- An expression of the query, `σ` standing for the strings. -/
inductive LabelExpr (P σ : Type) where
  | or (left right : LabelExpr P σ)
  | not (left : LabelExpr P σ)
  | relExpr (left : LabelRef P) (op : CmpOp) (right : σ)
deriving Repr, DecidableEq

/-- A string with its flags. -/
abbrev FlaggedString := String × ℕ

namespace LabelConstraint

variable {P S : Type} (corpus : ConstraintCorpus P S)

/-- The regular expression as an ID list; label and deletion are copied into an `id_list` node, a
constant has neither. -/
def regexConstraint (left : LabelRef P) (op : CmpOp) (sconst : String) (canon : ℕ) : LabelConstraint P :=
  let range := (corpus.pos left.attr).lexsize
  let items := corpus.collectMatchingIds left.attr sconst canon
  if items.length = 0 then .cnode (op ≠ .cmpEq)
  else if items.length = range then .cnode (op = .cmpEq)
  else if (corpus.pos left.attr).idlist2freq items > corpus.size / 2 then
    .idList left (ConstraintCorpus.invertItems range (-1) items) !(op ≠ .cmpEq)
  else .idList left items (op ≠ .cmpEq)

/-- `OptimizeStringConstraint` -/
def optimizeStringConstraint (left : LabelRef P) (op : CmpOp) (right : StringLeaf) : LabelConstraint P :=
  match right with
  | .regexp sconst canon =>
    if 0 < (corpus.pos left.attr).lexsize ∧ (corpus.pos left.attr).lexsize < makeIdlistBound then
      regexConstraint corpus left op sconst canon
    else .cmp op left right
  | .normal sconst =>
    match (corpus.pos left.attr).str2id sconst with
    | none => .cnode (op ≠ .cmpEq)
    | some id => .cmp op left (.cid id)
  | .cid _ => .cmp op left right

/-- What `try_optimization` can merge. -/
def alternatives : LabelConstraint P → Option (LabelRef P × List ℤ)
  | .cmp .cmpEq ref (.cid id) => some (ref, [id])
  | .idList ref items false => some (ref, items)
  | _ => none

section Build

variable [DecidableEq P] (fresh : LabelConstraint P → LabelConstraint P → Bool)

/-- `try_optimization` on a disjunction. The node of the merged list is allocated and its fields are
set one by one, but not `delete`: that is whatever the memory held, given by `fresh`. -/
def tryOptimization (left right : LabelConstraint P) : LabelConstraint P :=
  match left.alternatives, right.alternatives with
  | some (leftRef, leftItems), some (rightRef, rightItems) =>
    if leftRef.attr = rightRef.attr ∧ leftRef.label = rightRef.label then
      let ref := { leftRef with delete := fresh left right }
      match left, right with
      | .cmp .., .idList .. => .idList ref (unionItems rightItems leftItems) false
      | _, _ => .idList ref (unionItems leftItems rightItems) false
    else .bOr left right
  | _, _ => .bOr left right

def boolOr (left right : LabelConstraint P) : LabelConstraint P :=
  match left, right with
  | .cnode false, _ => right
  | .cnode true, _ => left
  | _, .cnode false => left
  | _, .cnode true => right
  | _, _ => tryOptimization fresh left right

end Build

def boolNot (left : LabelConstraint P) : LabelConstraint P :=
  match left with
  | .cnode val => .cnode !val
  | .idList ref items negated => .idList ref items !negated
  | .bNot left => left
  | _ => .bNot left

/-- The tree that the parser builds, `none` for an illegal regular expression. -/
def build [DecidableEq P] (fresh : LabelConstraint P → LabelConstraint P → Bool) :
    LabelExpr P FlaggedString → Option (LabelConstraint P)
  | .or left right => do some (boolOr fresh (← build fresh left) (← build fresh right))
  | .not left => do some (boolNot (← build fresh left))
  | .relExpr left op (s, flags) => do some (optimizeStringConstraint corpus left op (← corpus.doFlaggedString s flags))

/-- The tree of the expression as it was entered: every comparison is kept. -/
def buildPlain : LabelExpr P FlaggedString → Option (LabelConstraint P)
  | .or left right => do some (.bOr (← buildPlain left) (← buildPlain right))
  | .not left => do some (.bNot (← buildPlain left))
  | .relExpr left op (s, flags) => do some (.cmp op left (← corpus.doFlaggedString s flags))

/-- The position a label refers to, and the table after its automatic deletion. -/
def referencedPosition (ref : LabelRef P) (rt : RefTab) : ℤ × RefTab :=
  (rt ref.label, if ref.delete then rt.set ref.label (-1) else rt)

/-- `eval_bool`: the truth value, whether `EvaluationIsRunning` is left alone, and the reference
table. A comparison with an undefined label fails, whatever its operator; an ID list is looked up at
the position -1, where there is no token. -/
def evalBool [DecidableEq P] : LabelConstraint P → RefTab → (Bool × Bool) × RefTab
  | .bOr left right, rt =>
    let (l, rt) := evalBool left rt
    if l.1 then (l, rt)
    else
      let (r, rt) := evalBool right rt
      ((r.1, l.2 && r.2), rt)
  | .bNot left, rt =>
    let (l, rt) := evalBool left rt
    ((!l.1, l.2), rt)
  | .cmp op left right, rt =>
    let (cpos, rt) := referencedPosition left rt
    if cpos < 0 then ((false, true), rt)
    else match corpus.getLeafValue (.paRef left.attr) cpos, corpus.getLeafValue (.stringLeaf right) cpos with
      | some lhs, some rhs => (corpus.compare op lhs rhs (.stringLeaf right), rt)
      | _, _ => ((false, true), rt)
  | .cnode val, rt => ((val, true), rt)
  | .idList ref items negated, rt =>
    let (cpos, rt) := referencedPosition ref rt
    let res := corpus.idListMember ref.attr items cpos
    ((if negated then !res else res, true), rt)

section

variable {corpus} [DecidableEq P] (left right : LabelConstraint P) (rt : RefTab)

theorem evalBool_bOr_eq : evalBool corpus (.bOr left right) rt =
    if (evalBool corpus left rt).1.1 then evalBool corpus left rt
    else (((evalBool corpus right (evalBool corpus left rt).2).1.1,
      (evalBool corpus left rt).1.2 && (evalBool corpus right (evalBool corpus left rt).2).1.2),
      (evalBool corpus right (evalBool corpus left rt).2).2) :=
  rfl

theorem evalBool_bNot_eq : evalBool corpus (.bNot left) rt =
    ((!(evalBool corpus left rt).1.1, (evalBool corpus left rt).1.2), (evalBool corpus left rt).2) :=
  rfl

theorem evalBool_cmp_eq (op : CmpOp) (ref : LabelRef P) (leaf : StringLeaf) : evalBool corpus (.cmp op ref leaf) rt =
    if (referencedPosition ref rt).1 < 0 then ((false, true), (referencedPosition ref rt).2)
    else match corpus.getLeafValue (.paRef ref.attr) (referencedPosition ref rt).1,
        corpus.getLeafValue (.stringLeaf leaf) (referencedPosition ref rt).1 with
      | some lhs, some rhs => (corpus.compare op lhs rhs (.stringLeaf leaf), (referencedPosition ref rt).2)
      | _, _ => ((false, true), (referencedPosition ref rt).2) :=
  rfl

theorem evalBool_cnode_eq (val : Bool) : evalBool corpus (.cnode val) rt = ((val, true), rt) := rfl

theorem evalBool_idList_eq (ref : LabelRef P) (items : List ℤ) (negated : Bool) :
    evalBool corpus (.idList ref items negated) rt =
      ((if negated then !corpus.idListMember ref.attr items (referencedPosition ref rt).1
        else corpus.idListMember ref.attr items (referencedPosition ref rt).1, true), (referencedPosition ref rt).2) :=
  rfl

end

end LabelConstraint

end CWB
