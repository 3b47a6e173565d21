import CWB.Library.BubbleSort
import CWB.Library.NestedTags
import CWB.Spec.ClAccess
import CWB.Spec.EncodeLine

/-! The start and end tags that `decode_print_token_sequence` of `utils/cwb-decode.c` and
`get_position_values` of `cqp/concordance.c` print around each token. Tokens, alignment tags and line
breaks between the tags are left out. A write behind the end of a static array or buffer is `none`. -/

namespace CWB

open NestedTags

/-- The entries of `print_list` and of `s_att_regions` in `cwb-decode`. -/
def MAX_ATTRS : ℕ := 1024

/-- The entries of `s_att_regions` in CQP. -/
def MAX_S_ATTRS : ℕ := 1024

structure SAttRegion where
  name : CString
  start : ℤ
  stop : ℤ
  annot : Option CString
deriving DecidableEq

/-- A structural attribute to be printed. -/
structure PrintAttribute where
  name : CString
  data : Cqi.StrucAttribute

/-- `print_list`. -/
structure PrintList where
  list : List PrintAttribute
  names : (list.map PrintAttribute.name).Nodup
  length_le : list.length ≤ MAX_ATTRS

/-- An entry of an `AttributeList`. -/
structure AttributeInfo where
  attr : PrintAttribute
  status : Bool

/-- `AddNameToAL` refuses a name that the list has. -/
structure AttributeList where
  list : List AttributeInfo
  names : (list.map fun ai => ai.attr.name).Nodup

namespace PrintTags

/-! ## Collecting and sorting -/

/-- The region of an attribute that begins or ends at token `w`. -/
def boundaryRegion (a : PrintAttribute) (w : ℤ) : Option SAttRegion :=
  let snum := (Cqi.clCpos2struc (.struc a.data) w).1
  if snum < 0 then none
  else
    match (Cqi.clStruc2cpos (.struc a.data) snum).1 with
    | none => none
    | some (rngStart, rngEnd) =>
      if w = rngStart ∨ w = rngEnd then
        some {
          name := a.name, start := rngStart, stop := rngEnd
          annot := if a.data.values.isSome then (Cqi.clStruc2str (.struc a.data) snum).1 else none }
      else none

/-- The loop that fills `s_att_regions`, an array with `size` entries. -/
def collectRegions (size : ℕ) (w : ℤ) (attrs : List PrintAttribute) : Option (List SAttRegion) :=
  attrs.foldlM (fun sAttRegions a =>
    match boundaryRegion a w with
    | none => some sAttRegions
    | some region => if sAttRegions.length < size then some (sAttRegions ++ [region]) else none) []

/-- `b` has to stand in front of its neighbour `a`. -/
def outOfOrder (a b : SAttRegion) : Bool := a.stop < b.stop || (a.stop = b.stop && b.start < a.start)

/-- The bubble sort of `sar_sort_index`. -/
def sortIndex (sAttRegions : List SAttRegion) : Option (List ℕ) :=
  BubbleSort.sort (fun i j =>
    match sAttRegions[i]?, sAttRegions[j]? with
    | some a, some b => outOfOrder a b
    | _, _ => false) (List.range sAttRegions.length)

/-- `decode_sort_s_att_regions` -/
def decodeSortSAttRegions (sAttRegions : List SAttRegion) : Option (List ℕ) := sortIndex sAttRegions

/-- `sort_s_att_regions` -/
def sortSAttRegions (sAttRegions : List SAttRegion) : Option (List ℕ) := sortIndex sAttRegions

/-! ## Tags -/

/-- The tags around token `w` with their texts: start tags in the order of the sort index, end tags in reverse. -/
def tokenTags (startTag : SAttRegion → Option (List UInt8)) (endTag : SAttRegion → List UInt8)
    (sAttRegions : List SAttRegion) (sarSortIndex : List ℕ) (w : ℤ) : Option (List (Tag SAttRegion × List UInt8)) := do
  let sorted := sarSortIndex.filterMap fun i => sAttRegions[i]?
  let starts ← (sorted.filter fun r => r.start = w).mapM fun r => (startTag r).map (.opening r, ·)
  let ends := (sorted.reverse.filter fun r => r.stop = w).map fun r => (.closing r, endTag r)
  pure (starts ++ ends)

/-- Collect, sort, print. -/
def printedTags (size : ℕ) (sort : List SAttRegion → Option (List ℕ)) (startTag : SAttRegion → Option (List UInt8))
    (endTag : SAttRegion → List UInt8) (attrs : List PrintAttribute) (w : ℤ) :
    Option (List (Tag SAttRegion × List UInt8)) := do
  let sAttRegions ← collectRegions size w attrs
  let sarSortIndex ← sort sAttRegions
  tokenTags startTag endTag sAttRegions sarSortIndex w

def ascii (s : String) : List UInt8 := s.toList.map fun c => UInt8.ofNat c.toNat

def text (s : CString) : List UInt8 := s.bytes.map UInt8.ofBitVec

/-! ## cwb-decode -/

inductive OutputMode where
  | standard | lisp | encode | concline | xml
deriving Repr, DecidableEq

/-- The modes that print tags. -/
def OutputMode.printsTags (mode : OutputMode) : Bool := mode = .encode || mode = .concline || mode = .xml

/-- ` cpos="%d"` with the option for corpus positions -/
def cposText (printnum : Bool) (w : ℤ) : List UInt8 := if printnum then ascii (" cpos=\"" ++ toString w ++ "\"") else []

def decodeStartTag (mode : OutputMode) (printnum : Bool) (w : ℤ) (region : SAttRegion) : Option (List UInt8) :=
  if mode = .xml then do
    let value ← match region.annot with
      | some annot => do
        let coded ← decodeStringEscape (text annot)
        pure (ascii " value=\"" ++ coded ++ ascii "\"")
      | none => pure []
    pure (ascii "<tag type=\"start\" name=\"" ++ text region.name ++ ascii "\"" ++ cposText printnum w ++ value ++ ascii "/>\n")
  else
    let annot := match region.annot with
      | some annot => ascii " " ++ text annot
      | none => []
    pure (ascii "<" ++ text region.name ++ annot ++ ascii (if mode = .concline then "> " else ">\n"))

def decodeEndTag (mode : OutputMode) (printnum : Bool) (w : ℤ) (region : SAttRegion) : List UInt8 :=
  if mode = .xml then
    ascii "<tag type=\"end\" name=\"" ++ text region.name ++ ascii "\"" ++ cposText printnum w ++ ascii "/>\n"
  else ascii "</" ++ text region.name ++ ascii (if mode = .concline then "> " else ">\n")

/-- One round of the loop of `decode_print_token_sequence`. -/
def decodeTokenTags (mode : OutputMode) (printnum : Bool) (printList : PrintList) (w : ℤ) :
    Option (List (Tag SAttRegion × List UInt8)) :=
  if mode.printsTags then
    printedTags MAX_ATTRS decodeSortSAttRegions (decodeStartTag mode printnum w) (decodeEndTag mode printnum w) printList.list w
  else some []

/-- The tags of `decode_print_token_sequence` for the tokens from `start_context` to `end_context`. -/
def decodePrintTokenSequence (mode : OutputMode) (printnum : Bool) (printList : PrintList) (startContext endContext : ℤ) :
    Option (List (Tag SAttRegion × List UInt8)) := do
  let tags ← (List.range (endContext + 1 - startContext).toNat).mapM fun k : ℕ =>
    decodeTokenTags mode printnum printList (startContext + k)
  pure tags.flatten

/-! ## Concordance -/

/-- Of a `PrintDescriptionRecord` what is printed around tags. -/
structure PrintDescription where
  structureBeginPrefix : List UInt8
  structureBeginSuffix : List UInt8
  structureEndPrefix : List UInt8
  structureEndSuffix : List UInt8
  printToken : Option (List UInt8 → List UInt8)

def PrintDescription.token (pdr : PrintDescription) (s : List UInt8) : List UInt8 :=
  match pdr.printToken with
  | some printToken => printToken s
  | none => s

/-- The `body` of a start tag, in a buffer of `CL_MAX_LINE_LENGTH` characters. -/
def tagBody (showTagAttributes : Bool) (region : SAttRegion) : Option (List UInt8) :=
  let body := match showTagAttributes, region.annot with
    | true, some annot => text region.name ++ ascii " " ++ text annot
    | _, _ => text region.name
  if body.length < CL_MAX_LINE_LENGTH then some body else none

def positionStartTag (showTagAttributes : Bool) (pdr : PrintDescription) (region : SAttRegion) : Option (List UInt8) := do
  let body ← tagBody showTagAttributes region
  pure (pdr.structureBeginPrefix ++ pdr.token body ++ pdr.structureBeginSuffix)

def positionEndTag (pdr : PrintDescription) (region : SAttRegion) : List UInt8 :=
  pdr.structureEndPrefix ++ pdr.token (text region.name) ++ pdr.structureEndSuffix

/-- The attributes of the list that are shown. -/
def shown (strucAttributes : AttributeList) : List PrintAttribute :=
  (strucAttributes.list.filter AttributeInfo.status).map AttributeInfo.attr

/-- The tags of `get_position_values`. -/
def getPositionValues (showTagAttributes : Bool) (pdr : PrintDescription) (strucAttributes : AttributeList) (position : ℤ) :
    Option (List (Tag SAttRegion × List UInt8)) :=
  printedTags MAX_S_ATTRS sortSAttRegions (positionStartTag showTagAttributes pdr) (positionEndTag pdr)
    (shown strucAttributes) position

/-- The tags of a concordance, token by token. -/
def concordanceTags (showTagAttributes : Bool) (pdr : PrintDescription) (strucAttributes : AttributeList) (first last : ℤ) :
    Option (List (Tag SAttRegion × List UInt8)) := do
  let tags ← (List.range (last + 1 - first).toNat).mapM fun k : ℕ =>
    getPositionValues showTagAttributes pdr strucAttributes (first + k)
  pure tags.flatten

end PrintTags

end CWB
