import CWB.Spec.Query

/-! The operators `contains` and `matches` on feature sets: `mval_string_conversion` and
`do_mval_string` of `cqp/parse_actions.c`, which write the user's regular expression into a pattern
for the whole value. -/

namespace CWB

inductive MvalOp where
  | opContains
  | opMatches
deriving Repr, DecidableEq

/-- `mval_string_conversion`: every `.` but an escaped one becomes `[^|]`; `none` for an expression
that ends with an escape. -/
def mvalStringConversion : List Char → Option (List Char)
  | [] => some []
  | ['\\'] => none
  | '\\' :: c :: s => do some ('\\' :: c :: (← mvalStringConversion s))
  | '.' :: s => do some ('[' :: '^' :: '|' :: ']' :: (← mvalStringConversion s))
  | c :: s => do some (c :: (← mvalStringConversion s))

/-- An expression that `matches` does not put into parentheses of its own. -/
def safeRegexp (s : List Char) : Bool := !(s.contains '|' || s.contains '\\')

/-- The pattern that `do_mval_string` builds. -/
def mvalPattern (s : List Char) (op : MvalOp) : Option (List Char) := do
  let convertedS ← mvalStringConversion s
  match op with
  | .opContains => some (".*\\|(".toList ++ convertedS ++ ")\\|.*".toList)
  | .opMatches =>
    if safeRegexp s then some ("\\|(".toList ++ convertedS ++ "\\|)+".toList)
    else some ("\\|((".toList ++ convertedS ++ ")\\|)+".toList)

/-! `do_XMLTag` in `cqp/parse_actions.c`: the query element of a tag. -/

/-- The operators `OP_EQUAL`, `OP_CONTAINS` and `OP_MATCHES`, without the bit `OP_NOT`. -/
inductive TagOp where
  | equal | contains | matches
deriving Repr, DecidableEq

/-- `IGNORE_CASE`, `IGNORE_DIAC` and `IGNORE_REGEX`. -/
structure RegexFlags where
  ignoreCase : Bool := false
  ignoreDiac : Bool := false
  ignoreRegex : Bool := false
deriving Repr, DecidableEq

def RegexFlags.literal : RegexFlags := { ignoreRegex := true }

/-- What `do_XMLTag` asks of the string and regex functions. -/
structure TagParser (R : Type) where
  latex2iso : String → String
  mvalStringConversion : String → String
  newRegex : String → RegexFlags → Option R

def isMeta (c : Char) : Bool := "[](){}.*+|?\\".toList.contains c

/-- Is the constraint compared as a literal string? -/
def matchesLiterally (flags : RegexFlags) (op : TagOp) (regex : String) : Bool :=
  flags = .literal || (!regex.toList.any isMeta && flags = {} && op = .equal)

namespace TagParser

variable {A R : Type} (parser : TagParser R)

/-- The pattern that the regular expression is compiled from. -/
def pattern (op : TagOp) (regex : String) : String :=
  match op with
  | .equal => regex
  | .contains => ".*\\|(" ++ parser.mvalStringConversion regex ++ ")\\|.*"
  | .matches =>
    if regex.toList.any fun c => c = '|' || c = '\\' then "\\|((" ++ parser.mvalStringConversion regex ++ ")\\|)+"
    else "\\|(" ++ parser.mvalStringConversion regex ++ "\\|)+"

/-- `do_XMLTag`, `none` for an error. Of the symbol table it needs the label with the name of the tag: of an open tag
the one that it defines, of a close tag the one that an open tag before it has defined. -/
def doXmlTag (C : Type) (strucValues : A → Bool) (strictRegions : Bool) (label : Option ℕ) (attr : A) (isClosing : Bool)
    (op : TagOp) (negated : Bool) (regex : Option String) (flags : RegexFlags) : Option (AVS C A R) :=
  let rightBoundary := if strictRegions then label else none
  if regex.isSome ∧ !strucValues attr then none
  else if op ≠ .equal ∧ flags = .literal then none
  else match isClosing, regex with
    | true, _ => some (.tag true attr none none false rightBoundary)
    | false, none => some (.tag false attr none none false rightBoundary)
    | false, some regex =>
      let regex := parser.latex2iso regex
      if matchesLiterally flags op regex then some (.tag false attr (some regex) none negated rightBoundary)
      else match parser.newRegex (parser.pattern op regex) flags with
        | none => none
        | some rx => some (.tag false attr (some regex) (some rx) negated rightBoundary)

end TagParser

end CWB
