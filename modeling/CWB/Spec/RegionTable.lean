import CWB.Library.Decimal
import CWB.Library.LinkedList

/-! The input lines of `utils/cwb-s-encode.c`: `sencode_parse_line`, with what it uses of
`cl_string_validate_encoding` and `cl_string_canonical` (`cl/special-chars.c`). -/

namespace CWB

inductive CorpusCharset where
  | ascii
  | latin1 | latin2 | latin3 | latin4 | cyrillic | arabic | greek | hebrew | latin5 | latin6 | latin7 | latin8 | latin9
  | utf8
  | unknownCharset
deriving Repr, DecidableEq

/-- The functions of GLib for UTF-8. -/
structure GLib where
  /-- `g_utf8_validate` -/
  utf8Validate : List UInt8 → Bool
  /-- `g_utf8_normalize` to `G_NORMALIZE_NFC` -/
  utf8Normalize : List UInt8 → Option (List UInt8)

/-- The bytes above 0x7f that are bad in one of the other character sets. -/
def badByte : CorpusCharset → UInt8 → Bool
  | .ascii, _ => true
  | .latin3, c => c < 0xa0 || c = 0xa5 || c = 0xae || c = 0xbe || c = 0xc3 || c = 0xd0 || c = 0xe3 || c = 0xf0
  | .greek, c => c < 0xa0 || c = 0xae || c = 0xd2 || c = 0xff
  | .hebrew, c => c < 0xa0 || c = 0xa1 || (0xbf ≤ c && c ≤ 0xde) || c = 0xfb || c = 0xfc || c = 0xff
  | .arabic, c =>
    c < 0xa0 || c = 0xa1 || c = 0xa2 || c = 0xa3 || (0xa5 ≤ c && c ≤ 0xac) || (0xae ≤ c && c ≤ 0xba) || c = 0xbc ||
      c = 0xbd || c = 0xbe || c = 0xc0 || (0xdb ≤ c && c ≤ 0xf) || 0xf3 ≤ c
  | _, c => c < 0xa0

/-- `cl_string_validate_encoding` without repair -/
def clStringValidateEncoding (glib : GLib) (s : List UInt8) : CorpusCharset → Bool
  | .utf8 => glib.utf8Validate s
  | .unknownCharset => false
  | charset => s.all fun c => !(0x7f < c && badByte charset c)

/-- `cl_string_canonical` with `REQUIRE_NFC` alone, for UTF-8 -/
def clStringCanonicalNfc (glib : GLib) (s : List UInt8) : List UInt8 :=
  if glib.utf8Validate s then (glib.utf8Normalize s).getD s else s

/-- What `sencode_parse_line` returns, unless it stops the program. -/
inductive SencodeLine where
  | accepted (start stop : ℤ) (annot : Option (List UInt8))
  | rejected
  | exited
deriving DecidableEq

/-- `strchr(field, '\t')`: the field in front of the TAB and what follows. -/
def strchrTab (field : List UInt8) : Option (List UInt8 × List UInt8) :=
  if 9 ∈ field then some (field.takeWhile (· ≠ 9), (field.dropWhile (· ≠ 9)).tail) else none

/-- The optional third field. `clean_strings` is never set. -/
def sencodeAnnot (glib : GLib) (encodingCharset : CorpusCharset) (start stop : ℤ) (field : List UInt8) : SencodeLine :=
  if (strchrTab field).isSome then .rejected
  else if !clStringValidateEncoding glib field encodingCharset then .exited
  else .accepted start stop (some (if encodingCharset = .utf8 then clStringCanonicalNfc glib field else field))

/-- `sencode_parse_line` -/
def sencodeParseLine (glib : GLib) (encodingCharset : CorpusCharset) (line : List UInt8) : SencodeLine :=
  match strchrTab line with
  | none => .rejected
  | some (field, rest) =>
    match Decimal.atoi field with
    | none => .rejected
    | some start =>
      if start < 0 then .rejected
      else
        match strchrTab rest with
        | none =>
          -- `field_end` is the last character of the field
          if (rest.length : ℤ) - 1 ≤ 0 then .rejected
          else
            match Decimal.atoi rest with
            | none => .rejected
            | some stop => if stop < 0 then .rejected else .accepted start stop none
        | some (field, annot) =>
          match Decimal.atoi field with
          | none => .rejected
          | some stop => if stop < 0 then .rejected else sencodeAnnot glib encodingCharset start stop annot

/-! The list of regions that `utils/cwb-s-encode.c` keeps in memory with `-M` and `-a`: the `SL_`
functions on a memory of cells. `malloc` never returns an address twice, so that a pointer to a freed
cell stays a dangling one; its use has no result. -/

open LinkedList

structure SLRegion where
  start : ℤ
  stop : ℤ
  annot : Option (List UInt8)
deriving DecidableEq

/-- The cells with the globals `StructureList` and `SL_Point`. -/
structure SLState where
  memory : Memory SLRegion := fun _ => none
  fresh : ℕ := 0
  structureList : Option ℕ := none
  slPoint : Option ℕ := none

namespace SLState

variable (st : SLState)

/-- `SL_rewind` -/
def slRewind : SLState := { st with slPoint := st.structureList }

/-- `SL_next` -/
def slNext : Option (Option ℕ × SLState) :=
  match st.slPoint with
  | none => some (none, st)
  | some item => do
    let sl ← st.memory item
    some (some item, { st with slPoint := sl.next })

/-- The loop of `SL_seek`. -/
def seekLoop (cpos : ℤ) : ℕ → SLState → Option (Option ℕ × SLState)
  | 0, _ => none
  | fuel + 1, st =>
    match st.slPoint with
    | none => some (none, st)
    | some point => do
      let sl ← st.memory point
      if sl.item.start ≤ cpos ∧ cpos ≤ sl.item.stop then some (some point, st)
      else if cpos < sl.item.start then seekLoop cpos fuel { st with slPoint := sl.prev }
      else
        match sl.next with
        | none => some (some point, st)
        | some next => do
          let following ← st.memory next
          if cpos > sl.item.stop ∧ following.item.start ≤ cpos then seekLoop cpos fuel { st with slPoint := some next }
          else some (some point, st)

/-- `SL_seek`. No cell is visited twice. -/
def slSeek (cpos : ℤ) : Option (Option ℕ × SLState) :=
  let st := if st.slPoint = none then { st with slPoint := st.structureList } else st
  seekLoop cpos (st.fresh + 2) st

/-- `SL_insert_after_point` -/
def slInsertAfterPoint (region : SLRegion) : Option (ℕ × SLState) :=
  let item := st.fresh
  let memory := Function.update st.memory item (some { item := region })
  let done (memory : Memory SLRegion) (structureList : Option ℕ) : ℕ × SLState :=
    (item, { memory, fresh := st.fresh + 1, structureList, slPoint := some item })
  match st.slPoint with
  | none =>
    match st.structureList with
    | none => some (done memory (some item))
    | some first => do
      let memory ← setNext memory item (some first)
      let memory ← setPrev memory first (some item)
      some (done memory (some item))
  | some point => do
    let sl ← memory point
    match sl.next with
    | none => do
      let memory ← setPrev memory item (some point)
      let memory ← setNext memory point (some item)
      some (done memory st.structureList)
    | some next => do
      let memory ← setNext memory item (some next)
      let memory ← setPrev memory next (some item)
      let memory ← setNext memory point (some item)
      let memory ← setPrev memory item (some point)
      some (done memory st.structureList)

/-- `item->prev = prev`, unless there is no item -/
def setPrevOf (memory : Memory SLRegion) (item prev : Option ℕ) : Option (Memory SLRegion) :=
  match item with
  | none => some memory
  | some item => setPrev memory item prev

/-- `SL_delete` -/
def slDelete (item : ℕ) : Option SLState := do
  let sl ← st.memory item
  match sl.prev with
  | none =>
    let memory ← setPrevOf st.memory sl.next none
    some { st with
      memory := Function.update memory item none
      structureList := sl.next
      slPoint := if st.slPoint = some item then sl.next else st.slPoint }
  | some prev =>
    let memory ← setNext st.memory prev sl.next
    let memory ← setPrevOf memory sl.next (some prev)
    some { st with
      memory := Function.update memory item none
      slPoint := if st.slPoint = some item then some prev else st.slPoint }

/-- The loop of `SL_insert` that deletes the regions behind `item` that it overlaps. -/
def deleteOverlapped (item : ℕ) : ℕ → SLState → Option SLState
  | 0, _ => none
  | fuel + 1, st => do
    let sl ← st.memory item
    match sl.next with
    | none => some st
    | some point => do
      let following ← st.memory point
      if following.item.start ≤ sl.item.stop then deleteOverlapped item fuel (← st.slDelete point)
      else some st

/-- `SL_insert` -/
def slInsert (region : SLRegion) : Option SLState := do
  let (point, st) ← st.slSeek region.start
  let inserted ← match point with
    | none => (st.slInsertAfterPoint region).map some
    | some point => do
      let sl ← st.memory point
      if sl.item.start ≤ region.start ∧ region.start ≤ sl.item.stop then
        if sl.item.start < region.start ∨ sl.item.stop > region.stop then some none
        else do
          let (item, st) ← st.slInsertAfterPoint region
          some (some (item, ← st.slDelete point))
      else (st.slInsertAfterPoint region).map some
  match inserted with
  | none => some st
  | some (item, st) => deleteOverlapped item (st.fresh + 1) st

end SLState

/-- A call of one of the functions that `main` uses. -/
inductive SLCall where
  | insert (region : SLRegion)
  | rewind
  | next

def SLState.perform (st : SLState) : SLCall → Option SLState
  | .insert region => st.slInsert region
  | .rewind => some st.slRewind
  | .next => st.slNext.map Prod.snd

end CWB
