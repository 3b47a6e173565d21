import CWB.Spec.RangeFile

/-! The scan of the annotation string in `range_open` of `utils/cwb-encode.c`, which hands the
`attribute="value"` pairs of a start tag to the children of the attribute. It overwrites `annot` while
it reads it. -/

namespace CWB

/-- Why `range_open` does not return: it reads beyond the terminator of `annot`, `encode_error` stops the
program in a child, or the scan goes on for too many rounds. -/
inductive OpenError where
  | beyondTheEnd
  | encodeError
  | tooManyRounds
deriving Repr, DecidableEq

/-- An entry of the hash `el_attributes`, with `data.integer` and `data.pointer`. -/
structure ElementEntry (C : Type) where
  name : List UInt8
  handled : Bool := false
  child : C

/-- The element attributes of an s-attribute; `range_declare` stops at one that is declared twice. -/
structure ElementAttributes (C : Type) where
  list : List (List UInt8 × C)
  nodup : (list.map Prod.fst).Nodup

namespace AttributeScan

/-! ## Reads and writes -/

def charAt (annot : Block) (i : ℕ) : Except OpenError UInt8 :=
  match annot[i]? with
  | some c => pure c
  | none => throw .beyondTheEnd

/-- The C string at `annot + i`. -/
def stringAt (annot : Block) (i : ℕ) : Except OpenError (List UInt8) :=
  match annot.readString i with
  | some s => pure s
  | none => throw .beyondTheEnd

/-- `while (p(annot[i])) i++`, with `annot + i` for the first argument. -/
def skipFrom (p : UInt8 → Bool) : Block → ℕ → Except OpenError ℕ
  | [], _ => throw .beyondTheEnd
  | c :: rest, i => if p c then skipFrom p rest (i + 1) else pure i

def skipWhile (p : UInt8 → Bool) (annot : Block) (i : ℕ) : Except OpenError ℕ := skipFrom p (annot.drop i) i

/-- The loop over the blanks in front of `=`, which become zeros. -/
def eraseFrom : Block → ℕ → Except OpenError (Block × ℕ)
  | [], _ => throw .beyondTheEnd
  | c :: rest, i =>
    if isBlank c then do
      let (rest, i) ← eraseFrom rest (i + 1)
      pure (0 :: rest, i)
    else pure (c :: rest, i)

def eraseBlanks (annot : Block) (i : ℕ) : Except OpenError (Block × ℕ) := do
  let (rest, point) ← eraseFrom (annot.drop i) i
  pure (annot.take i ++ rest, point)

/-- `cl_xml_entity_decode(annot + i)`. -/
def entityDecodeAt (annot : Block) (i : ℕ) : Block :=
  let (annot, _, write) := entityDecodeLoop (annot.length + 1) annot i i
  annot.set write 0

/-! ## One pair -/

/-- `el_att_name` and `el_att_value` as offsets in `annot`, and `mark` behind the pair. -/
structure FoundPair where
  elAttName : ℕ
  elAttValue : ℕ
  mark : ℕ
  annot : Block

/-- The value at `mark`: where it begins, the next `mark`, and `annot`; `none` for a syntax error. -/
def scanValue (annot : Block) (mark : ℕ) : Except OpenError (Option (ℕ × ℕ × Block)) := do
  let quoteChar ← charAt annot mark
  if quoteChar = 34 ∨ quoteChar = 39 then
    let point ← skipWhile (fun c => c ≠ quoteChar && c ≠ 0) annot (mark + 1)
    if (← charAt annot point) = 0 then pure none
    else pure (some (mark + 1, point + 1, annot.set point 0))
  else
    let point ← skipWhile clXmlIsNameChar annot mark
    -- at the end of `annot` the next `mark` is its terminator
    let (next, annot) := if (← charAt annot point) = 0 then (point, annot) else (point + 1, annot.set point 0)
    if (← stringAt annot mark) = [] then pure none
    else pure (some (mark, next, annot))

/-- One round of the loop up to the two syntax checks; `none` for a syntax error. -/
def scanPair (annot : Block) (mark : ℕ) : Except OpenError (Option FoundPair) := do
  let point ← skipWhile clXmlIsNameChar annot mark
  let (annot, point) ← eraseBlanks annot point
  if (← charAt annot point) ≠ 61 then pure none
  else
    let annot := annot.set point 0
    let elAttName := mark
    let mark ← skipWhile isBlank annot (point + 1)
    match ← scanValue annot mark with
    | none => pure none
    | some (elAttValue, mark, annot) =>
      if (← stringAt annot elAttName) = [] then pure none
      else pure (some { elAttName, elAttValue, mark, annot })

/-! ## The children -/

variable {C : Type} (openChild : C → List UInt8 → Option C)

/-- `encode_error` in a child stops the program. -/
def stopped {α : Type} : Option α → Except OpenError α
  | some a => pure a
  | none => throw .encodeError

/-- The pair goes to its child, unless there is none or it has been handled. -/
def delegate (entries : List (ElementEntry C)) (found : FoundPair) : Except OpenError (List (ElementEntry C) × Block) := do
  let name ← stringAt found.annot found.elAttName
  match entries.find? fun e => e.name = name with
  | none => pure (entries, found.annot)
  | some entry =>
    if entry.handled then pure (entries, found.annot)
    else
      let annot := entityDecodeAt found.annot found.elAttValue
      let child ← stopped (openChild entry.child (← stringAt annot found.elAttValue))
      pure (entries.map fun e => if e.name = name then { e with handled := true, child } else e, annot)

/-- `while (annot[mark] != '\0')`. -/
def scanLoop : ℕ → Block → ℕ → List (ElementEntry C) → Except OpenError (List (ElementEntry C))
  | 0, _, _, _ => throw .tooManyRounds
  | fuel + 1, annot, mark, entries => do
    if (← charAt annot mark) = 0 then pure entries
    else
      match ← scanPair annot mark with
      | none => pure entries
      | some found =>
        let (entries, annot) ← delegate openChild entries found
        let mark ← skipWhile isBlank annot found.mark
        scanLoop fuel annot mark entries

/-- The part of `range_open` under `has_children`, for the C string `annot`: the scan, then the missing
element attributes. -/
def openElements (elAtts : ElementAttributes C) (annot : List UInt8) : Except OpenError (List (List UInt8 × C)) := do
  let entries := elAtts.list.map fun a => { name := a.1, child := a.2 }
  let entries ← scanLoop openChild (annot.length + 1) (Block.ofString annot) 0 entries
  entries.mapM fun e => do
    if e.handled then pure (e.name, e.child)
    else
      let child ← stopped (openChild e.child [])
      pure (e.name, child)

end AttributeScan

end CWB
