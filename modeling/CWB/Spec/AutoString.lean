import CWB.Library.Block
import Mathlib.Data.PNat.Notation

/-! The AutoStrings of `cl/special-chars.c`. Objects and strings are numbers of bytes that a `size_t` holds; where the
source puts such a number into an `int` it is cut to 32 bits. An allocation that fails ends the program. `none` is an
access outside of the block of a string. -/

namespace CWB

structure AutoString where
  data : Block
  bytesAllocated : ℕ
  len : ℕ
  increment : ℕ

namespace AutoString

def CL_MAX_LINE_LENGTH : ℕ := 4096

/-- A `size_t` in an `int`. -/
def intOf (n : ℕ) : ℤ := (BitVec.ofNat 32 n).toInt

/-- An `int` where the other operand is a `size_t`. -/
def sizeOf (n : ℤ) : ℕ := (BitVec.ofInt 64 n).toNat

variable (heap : ℕ → Byte)

def clAutostringNew (data : Option Block.Str) (initBytes : ℕ) : Option AutoString :=
  let initBytes := if 1 > initBytes then CL_MAX_LINE_LENGTH else initBytes
  match data with
  | some data =>
    let len := intOf (1 + data.chars.length)
    let initBytes := if sizeOf len > initBytes then sizeOf len else initBytes
    ((Block.malloc heap initBytes).store 0 (Block.ofString data.chars)).map fun field =>
      { data := field, bytesAllocated := initBytes, len := sizeOf len, increment := initBytes }
  | none =>
    ((Block.malloc heap initBytes).store 0 (Block.ofString [])).map fun field =>
      { data := field, bytesAllocated := initBytes, len := 0, increment := initBytes }

def clAutostringSetIncrement (string : AutoString) (newIncrement : ℕ) : AutoString :=
  { string with increment := newIncrement }

def clAutostringReclaimMem (string : AutoString) : AutoString :=
  let newBytes := 1 + (string.len + 1) / string.increment
  { string with data := Block.realloc heap string.data newBytes, bytesAllocated := newBytes }

/-- The reallocation that `cl_autostring_copy` and `cl_autostring_concat` share. -/
def grow (dst : AutoString) (bytesNeeded : ℕ) : AutoString :=
  if bytesNeeded > dst.bytesAllocated then
    let bytesAllocated := dst.increment * (1 + bytesNeeded / dst.increment)
    { dst with data := Block.realloc heap dst.data bytesAllocated, bytesAllocated := bytesAllocated }
  else dst

def clAutostringCopy (dst : AutoString) : Option Block.Str → Option AutoString
  | none => (dst.data.store 0 (Block.ofString [])).map fun field => { dst with data := field, len := 0 }
  | some src =>
    let bytesNeeded := 1 + src.chars.length
    let dst := dst.grow heap bytesNeeded
    (dst.data.store 0 (Block.ofString src.chars)).map fun field => { dst with data := field, len := bytesNeeded - 1 }

def clAutostringConcat (dst : AutoString) : Option Block.Str → Option AutoString
  | none => some dst
  | some src =>
    let bytesNeeded := intOf (dst.len + src.chars.length + 1)
    let dst := dst.grow heap (sizeOf bytesNeeded)
    (dst.data.store dst.len (Block.ofString src.chars)).map fun field =>
      { dst with data := field, len := sizeOf (bytesNeeded - 1) }

def clAutostringTruncate (string : AutoString) (newLength : BitVec 32) : Option AutoString :=
  let newLength := sizeOf newLength.toInt
  if newLength > string.len then some string
  else (string.data.store newLength [0]).map fun field => { string with data := field, len := newLength }

inductive Call where
  | setIncrement (newIncrement : ℕ+)
  | reclaimMem
  | copy (src : Option Block.Str)
  | concat (src : Option Block.Str)
  | truncate (newLength : BitVec 32)

def call (string : AutoString) : Call → Option AutoString
  | .setIncrement newIncrement => some (string.clAutostringSetIncrement newIncrement)
  | .reclaimMem => some (string.clAutostringReclaimMem heap)
  | .copy src => string.clAutostringCopy heap src
  | .concat src => string.clAutostringConcat heap src
  | .truncate newLength => string.clAutostringTruncate newLength

/-- A new AutoString after some calls. -/
def run (data : Option Block.Str) (initBytes : ℕ) (calls : List Call) : Option AutoString := do
  let string ← clAutostringNew heap data initBytes
  calls.foldlM (call heap) string

/-! ## Plain strings -/

/-- The same operation on a plain string. -/
def plainCall (s : List Byte) : Call → List Byte
  | .setIncrement _ | .reclaimMem => s
  | .copy src => (src.map Block.Str.chars).getD []
  | .concat src => s ++ (src.map Block.Str.chars).getD []
  | .truncate newLength => if 0 ≤ newLength.toInt then s.take newLength.toInt.toNat else s

def plainRun (data : Option Block.Str) (calls : List Call) : List Byte :=
  calls.foldl plainCall ((data.map Block.Str.chars).getD [])

/-- The object is the string, with its length and its capacity. -/
structure IsString (string : AutoString) (s : List Byte) : Prop where
  content : string.data.scanString = some s
  len_eq : string.len = s.length
  room : string.len + 1 ≤ string.bytesAllocated

/-- The sizes for which the formulas of `cl_autostring_reclaim_mem` and `cl_autostring_concat` are right. -/
def Fits (string : AutoString) : Call → Prop
  | .reclaimMem => string.len ≤ (string.len + 1) / string.increment
  | .concat (some src) => string.len + src.chars.length + 1 < 2 ^ 31
  | _ => True

end AutoString

end CWB
