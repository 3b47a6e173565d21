import CWB.Library.Decimal
import CWB.Spec.Groups

/-! `ComputeGroupExternally` of `cqp/groups.c` with the text that it writes for the external command and reads from the
pipe, and the vector of cells that grows while it reads. A result is `none` where a number of cells is not an `int` or a
cell is written outside of the vector. -/

namespace CWB.ExternalGroups

open Decimal Scanf

def GROUP_REALLOC : ℕ := 1024

/-- What `fprintf` writes for a match. -/
def matchLine (k : ℤ × ℤ) : List UInt8 := intText k.1 ++ 32 :: intText k.2

/-- The temporary file. -/
def groupFile (group : Group) : List UInt8 := group.groupLines.flatMap fun k => matchLine k ++ [10]

/-- `group->count_cells`, with the number of cells that it has been allocated for; none as long as it is `NULL`. -/
structure CellVector where
  countCells : List IDCountMapping
  block : Option ℕ

def emptyVector : CellVector := ⟨[], none⟩

/-- A cell is added, behind a new block of cells where the last one is full. -/
def CellVector.append (v : CellVector) (cell : IDCountMapping) : Option CellVector := do
  let nrCells := v.countCells.length
  let block ←
    if nrCells % GROUP_REALLOC = 0 then
      match v.block with
      | none => some GROUP_REALLOC
      | some _ => if nrCells + GROUP_REALLOC < 2 ^ 31 then some (nrCells + GROUP_REALLOC) else none
    else v.block
  if nrCells < block then some { countCells := v.countCells ++ [cell], block := some block } else none

/-- `while ((tokens = fscanf(pipe, "%d%d%d", &freq, &p1, &p2)) == 3)`, with the rounds that are left. -/
def readCells (cutoffFreq : ℤ) : ℕ → List UInt8 → CellVector → Option CellVector
  | 0, _, _ => none
  | rounds + 1, pipe, v =>
    match Scanf.scanInts 3 pipe with
    | ([freq, p1, p2], pipe) => do
      let v ← if freq > cutoffFreq then v.append { s := p1, t := p2, freq, sFreq := 0 } else some v
      readCells cutoffFreq rounds pipe v
    | _ => some v

/-- `ComputeGroupExternally`: `command` is what the external command makes of the temporary file, if the file can be
written and the pipe opened. -/
def computeGroupExternally (group : Group) (command : List UInt8 → Option (List UInt8)) : Option (List IDCountMapping) :=
  match command (groupFile group) with
  | none => some []
  | some pipe => (readCells group.cutoffFrequency (pipe.length + 1) pipe emptyVector).map CellVector.countCells

/-! ## The external command -/

/-- A line of the output: the frequency of a line of the input, behind blanks, and the line. -/
def countLine (lines : List (List UInt8)) (blanks : List UInt8) (line : List UInt8) : List UInt8 :=
  blanks ++ (text (lines.count line) ++ 32 :: line)

/-- The command writes one line for each different line of its input, with its frequency, in any order. -/
def CountsLines (command : List UInt8 → Option (List UInt8)) : Prop :=
  ∀ lines : List (List UInt8), (∀ line ∈ lines, 10 ∉ line) → ∃ (rows : List (List UInt8)) (blanks : List UInt8 → List UInt8),
    rows.Perm lines.dedup ∧
    (∀ line, ∀ c ∈ blanks line, c = 32) ∧
    command (Separated.closed 10 lines) = some (Separated.closed 10 (rows.map fun line => countLine lines (blanks line) line))

/-- Source, target and frequency. -/
def triple (cell : IDCountMapping) : ℤ × ℤ × ℤ := (cell.s, cell.t, cell.freq)

/-- Both implementations have the same cells. -/
def SameCells (group : Group) (fill : FillRate) (command : List UInt8 → Option (List UInt8)) : Prop :=
  ∃ internal external, group.computeGroupInternally fill = some internal ∧ computeGroupExternally group command = some external ∧
    ∀ cell, cell ∈ internal.map triple ↔ cell ∈ external.map triple

end CWB.ExternalGroups
