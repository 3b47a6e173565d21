import CWB.Library.Block
import CWB.Spec.CorpusList

/-! Query results on disk: `save_subcorpus` and `attach_subcorpus` of `cqp/corpmanag.c`. The
reader takes the whole file as one block of bytes and reads it with pointer arithmetic. -/

namespace CWB

def SUBCORPMAGIC : BitVec 32 := 36193928

/-- The members of a `CorpusList` that are stored, or that `attach_subcorpus` sets. The vectors
are those that C allocates; `sortidx`, `targets` and `keywords` may be `NULL`. -/
structure StoredResult where
  type : CorpusType := .sub
  registry : List Byte
  motherName : List Byte
  motherSize : ℕ
  size : BitVec 32
  range : List (BitVec 32 × BitVec 32)
  sortidx : Option (List (BitVec 32))
  targets : Option (List (BitVec 32))
  keywords : Option (List (BitVec 32))
  loaded : Bool
  saved : Bool
  needsUpdate : Bool
deriving DecidableEq

namespace StoredResult

/-- What holds of a query result in memory: C strings, a size that is a positive `int`, and
vectors with `size` entries. -/
structure WellFormed (cl : StoredResult) : Prop where
  registry_zero : 0 ∉ cl.registry
  motherName_zero : 0 ∉ cl.motherName
  size_nonneg : 0 ≤ cl.size.toInt
  range_length : cl.range.length = cl.size.toNat
  sortidx_length : ∀ v, cl.sortidx = some v → v.length = cl.size.toNat
  targets_length : ∀ v, cl.targets = some v → v.length = cl.size.toNat
  keywords_length : ∀ v, cl.keywords = some v → v.length = cl.size.toNat

def rangeWords (range : List (BitVec 32 × BitVec 32)) : List (BitVec 32) := range.flatMap fun r => [r.1, r.2]

/-- Magic number, registry, name of the mother corpus, and zero bytes to fill up. The two
strings are counted without the magic number. -/
def header (magic : BitVec 32) (registry motherName : List Byte) : Block :=
  Block.ofWord magic ++ (Block.ofString registry ++ (Block.ofString motherName ++
    List.replicate ((4 - (registry.length + 1 + (motherName.length + 1)) % 4) % 4) 0))

/-- An optional vector, after its number of entries. -/
def optionalVector (size : BitVec 32) (v : Option (List (BitVec 32))) : Block :=
  match v with
  | some v => Block.ofWord size ++ Block.ofWords v
  | none => Block.ofWord 0

def fileContents (cl : StoredResult) : Block :=
  header (SUBCORPMAGIC + 1) cl.registry cl.motherName ++ (Block.ofWord cl.size ++
    if 0 < cl.size.toInt then
      Block.ofWords (rangeWords cl.range) ++ (optionalVector cl.size cl.sortidx ++
        (optionalVector cl.size cl.targets ++ optionalVector cl.size cl.keywords))
    else [])

inductive SaveOutcome where
  | refused
  | unchanged
  | written (file : Block) (cl : StoredResult)
deriving DecidableEq

/-- `save_subcorpus`, for an output file that can be opened. -/
def saveSubcorpus (cl : StoredResult) : SaveOutcome :=
  if cl.loaded = false then .refused
  else if cl.type ≠ .sub then .refused
  else if cl.needsUpdate = false ∨ cl.saved = true then .unchanged
  else .written cl.fileContents { cl with saved := true, needsUpdate := false }

/-- The two strings and the position after the padding, where the integers begin. -/
def readHeader (field : Block) : Option (BitVec 32 × List Byte × List Byte × ℕ) := do
  let magic ← field.readWord 0
  if magic ≠ SUBCORPMAGIC ∧ magic ≠ SUBCORPMAGIC + 1 then none
  else do
    let registry ← field.readString 4
    let motherName ← field.readString (4 + registry.length + 1)
    pure (magic, registry, motherName, Block.align 4 (4 + registry.length + 1 + motherName.length + 1))

/-- `if (compsize > 0)`: the vector has `size` entries, whatever the count says. -/
def readOptionalVector (field : Block) (n p : ℕ) : Option (Option (List (BitVec 32)) × ℕ) := do
  let compsize ← field.readWord p
  if 0 < compsize.toInt then do
    let v ← field.readWords n (p + 4)
    pure (some v, p + 4 + 4 * n)
  else pure (none, p + 4)

def pairWords : List (BitVec 32) → List (BitVec 32 × BitVec 32)
  | a :: b :: rest => (a, b) :: pairWords rest
  | _ => []

/-- The vectors and the position after them. -/
structure Vectors where
  size : BitVec 32
  range : List (BitVec 32 × BitVec 32)
  sortidx : Option (List (BitVec 32))
  targets : Option (List (BitVec 32))
  keywords : Option (List (BitVec 32))
  stop : ℕ

/-- The format without optional vectors: what is left of the file are ranges. -/
def readOldVectors (field : Block) (p : ℕ) : Option Vectors :=
  if p ≤ field.length then do
    let size := (field.length - p) / 8
    let words ← field.readWords (2 * size) p
    pure ⟨BitVec.ofNat 32 size, pairWords words, none, none, none, p + 8 * size⟩
  else none

def readVectors (field : Block) (p : ℕ) : Option Vectors := do
  let size ← field.readWord p
  if 0 < size.toInt then do
    let words ← field.readWords (2 * size.toNat) (p + 4)
    let (sortidx, p1) ← readOptionalVector field size.toNat (p + 4 + 8 * size.toNat)
    let (targets, p2) ← readOptionalVector field size.toNat p1
    let (keywords, p3) ← readOptionalVector field size.toNat p2
    pure ⟨size, pairWords words, sortidx, targets, keywords, p3⟩
  else pure ⟨size, [], none, none, none, p + 4⟩

/-- `attach_subcorpus`. `ensureSyscorpus` finds the mother corpus and its size from registry and
name. The file length is kept in an `int`; that many bytes are read into the block. A read
past the end of the block is not defined and has no result here. -/
def attachSubcorpus (ensureSyscorpus : List Byte → List Byte → Option ℕ) (file : Block) : Option StoredResult :=
  let len := (BitVec.ofNat 32 file.length).toInt
  if len ≤ 0 then none
  else do
    let field := file.take len.toNat
    let (magic, registry, motherName, p) ← readHeader field
    let motherSize ← (ensureSyscorpus registry motherName).filter (0 < ·)
    let v ← if magic = SUBCORPMAGIC then readOldVectors field p else readVectors field p
    pure
      { registry, motherName, motherSize
        size := v.size
        range := v.range
        sortidx := v.sortidx
        targets := v.targets
        keywords := v.keywords
        loaded := true
        saved := true
        needsUpdate := false }

end StoredResult

end CWB
