import Mathlib.Data.List.Basic
import Mathlib.Data.Int.Notation

/-! The bit fields of `cl/bitfields.c`. A word of a field is a `BFBaseType`, that is an `unsigned char`, and
element numbers are not negative. `none` is an access outside of the block of a field, or an assertion that fails. -/

namespace CWB.Bitfields

open List

abbrev BFBaseType := BitVec 8

def BaseTypeSize : ℕ := 1

def BaseTypeBits : ℕ := BaseTypeSize * 8

structure Bitfield where
  elements : ℕ
  bytes : ℕ
  nrBitsSet : ℤ
  field : List BFBaseType
deriving Repr, DecidableEq

def createBitfield (nrOfElements : ℕ) : Bitfield :=
  let fullCells := nrOfElements / BaseTypeBits
  let fullCells := if nrOfElements % BaseTypeBits ≠ 0 then fullCells + 1 else fullCells
  let bytes := fullCells * BaseTypeSize
  { elements := nrOfElements, bytes := bytes, nrBitsSet := 0, field := replicate bytes 0 }

def copyBitfield (source : Bitfield) : Bitfield :=
  let target := createBitfield source.elements
  { target with
    nrBitsSet := source.nrBitsSet
    field := source.field.take source.bytes ++ target.field.drop source.bytes }

/-- The `int` that the word of an element is combined with, as far as it reaches into a word. -/
def bitMask (element : ℕ) : BFBaseType := BitVec.ofNat _ (1 <<< (element % BaseTypeBits))

/-- The body of `set_bit` and of `clear_bit`: the word with the element is changed, and a change is counted. -/
def changeBit (bitfield : Bitfield) (element : ℕ) (change : BFBaseType → BFBaseType) (count : ℤ) :
    Option (ℤ × Bitfield) :=
  if element < bitfield.elements then do
    let v1 ← bitfield.field[element / BaseTypeBits]?
    let nrBitsSet := if change v1 ≠ v1 then bitfield.nrBitsSet + count else bitfield.nrBitsSet
    some (1, { bitfield with
      field := bitfield.field.set (element / BaseTypeBits) (change v1), nrBitsSet := nrBitsSet })
  else some (0, bitfield)

def setBit (bitfield : Bitfield) (element : ℕ) : Option (ℤ × Bitfield) :=
  changeBit bitfield element (· ||| bitMask element) 1

def clearBit (bitfield : Bitfield) (element : ℕ) : Option (ℤ × Bitfield) :=
  changeBit bitfield element (· &&& ~~~bitMask element) (-1)

def clearAllBits (bitfield : Bitfield) : Bitfield :=
  { bitfield with field := replicate bitfield.bytes 0, nrBitsSet := 0 }

def setAllBits (bitfield : Bitfield) : Bitfield :=
  { bitfield with field := replicate bitfield.bytes 0xff, nrBitsSet := bitfield.elements }

def getBit (bitfield : Bitfield) (element : ℕ) : Option ℤ :=
  if element < bitfield.elements then do
    let word ← bitfield.field[element / BaseTypeBits]?
    some (if word &&& bitMask element = 0 then 0 else 1)
  else some (-1)

def toggleBit (bitfield : Bitfield) (element : ℕ) : Option (ℤ × Bitfield) :=
  if element < bitfield.elements then do
    let word ← bitfield.field[element / BaseTypeBits]?
    let nrBitsSet := if word &&& bitMask element = 0 then bitfield.nrBitsSet + 1 else bitfield.nrBitsSet - 1
    some (1, { bitfield with
      field := bitfield.field.set (element / BaseTypeBits) (word ^^^ bitMask element), nrBitsSet := nrBitsSet })
  else some (0, bitfield)

def nrBitsSet (bitfield : Bitfield) : ℤ := bitfield.nrBitsSet

def lastItemMask (lastItemBitsUsed : ℕ) : BFBaseType := BitVec.ofNat _ ((1 <<< lastItemBitsUsed) - 1)

/-- The loop of `bf_equal` over the items with the given numbers. -/
def equalItems (field1 field2 : List BFBaseType) : List ℕ → Option Bool
  | [] => some true
  | i :: items => do
    let word1 ← field1[i]?
    let word2 ← field2[i]?
    if word1 ≠ word2 then some false else equalItems field1 field2 items

def bfEqual (bf1 bf2 : Bitfield) : Option Bool :=
  if bf1.elements = bf2.elements ∧ bf1.bytes = bf2.bytes then
    let items := bf1.bytes / BaseTypeSize
    let lastItemBitsUsed := bf1.elements % BaseTypeBits
    if lastItemBitsUsed ≠ 0 then do
      let items := items - 1
      let word1 ← bf1.field[items]?
      let word2 ← bf2.field[items]?
      if (word1 ^^^ word2) &&& lastItemMask lastItemBitsUsed ≠ 0 then some false
      else equalItems bf1.field bf2.field (range items)
    else equalItems bf1.field bf2.field (range items)
  else none

/-- The sign of the difference of two words, taken as `signed long`. -/
def compareWords (word1 word2 : BFBaseType) : ℤ :=
  let diff : ℤ := word1.toNat - word2.toNat
  if diff < 0 then -1 else if diff > 0 then 1 else 0

/-- The loop of `bf_compare` over the items with the given numbers. -/
def compareItems (field1 field2 : List BFBaseType) : List ℕ → Option ℤ
  | [] => some 0
  | i :: items => do
    let word1 ← field1[i]?
    let word2 ← field2[i]?
    let diff := compareWords word1 word2
    if diff ≠ 0 then some diff else compareItems field1 field2 items

def bfCompare (bf1 bf2 : Bitfield) : Option ℤ :=
  if bf1.elements = bf2.elements ∧ bf1.bytes = bf2.bytes then
    let items := bf1.bytes / BaseTypeSize
    let lastItemBitsUsed := bf1.elements % BaseTypeBits
    let items := if lastItemBitsUsed ≠ 0 then items - 1 else items
    do
      let diff ← compareItems bf1.field bf2.field (range items)
      if diff ≠ 0 then some diff
      else if lastItemBitsUsed ≠ 0 then do
        let word1 ← bf1.field[items]?
        let word2 ← bf2.field[items]?
        let mask := lastItemMask lastItemBitsUsed
        some (compareWords (word1 &&& mask) (word2 &&& mask))
      else some 0
  else none

/-! ## Calls -/

/-- A call; bit fields are numbered in the order of their creation, and the number of no bit field is a `NULL` pointer. -/
inductive Call
  | createBitfield (nrOfElements : ℕ)
  | copyBitfield (source : ℕ)
  | setBit (bitfield element : ℕ)
  | clearBit (bitfield element : ℕ)
  | toggleBit (bitfield element : ℕ)
  | setAllBits (bitfield : ℕ)
  | clearAllBits (bitfield : ℕ)
  | getBit (bitfield element : ℕ)
deriving Repr, DecidableEq

/-- A call with a bit field; `failure` is returned for a `NULL` pointer. -/
def withBitfield (store : List Bitfield) (i : ℕ) (failure : ℤ) (f : Bitfield → Option (ℤ × Bitfield)) :
    Option (Option ℤ × List Bitfield) :=
  match store[i]? with
  | none => some (some failure, store)
  | some bitfield => (f bitfield).map fun r => (some r.1, store.set i r.2)

/-- One call: the number it returns, if it returns one, and the bit fields after it. -/
def step (store : List Bitfield) : Call → Option (Option ℤ × List Bitfield)
  | .createBitfield nrOfElements => some (none, store ++ [createBitfield nrOfElements])
  | .copyBitfield source => some (none, store ++ (store[source]?.map copyBitfield).toList)
  | .setBit i element => withBitfield store i 0 fun bf => setBit bf element
  | .clearBit i element => withBitfield store i 0 fun bf => clearBit bf element
  | .toggleBit i element => withBitfield store i 0 fun bf => toggleBit bf element
  | .setAllBits i => withBitfield store i 0 fun bf => some (1, setAllBits bf)
  | .clearAllBits i => withBitfield store i 0 fun bf => some (1, clearAllBits bf)
  | .getBit i element => withBitfield store i (-1) fun bf => (getBit bf element).map fun bit => (bit, bf)

def run : List Bitfield → List Call → Option (List (Option ℤ) × List Bitfield)
  | store, [] => some ([], store)
  | store, call :: calls => do
    let (result, store) ← step store call
    let (results, store) ← run store calls
    some (result :: results, store)

end CWB.Bitfields
