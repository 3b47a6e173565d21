import CWB.Spec.BitIO

/-! Sequences of calls that write to a bit file, and the same calls on a file and on a stream that are read. -/

namespace CWB

inductive BitCall where
  | write (data : BitVec 8) (nbits : Fin 9)
  | writeWord (data : BitVec 32) (nbits : Fin 33)
  | flush

namespace BitCall

def width : BitCall → ℕ
  | .write _ nbits => nbits
  | .writeWord _ nbits => nbits
  | .flush => 0

/-- The value that is written, masked to its width. -/
def value : BitCall → Option ℕ
  | .write data nbits => some (data.toNat % 2 ^ nbits.val)
  | .writeWord data nbits => some (data.toNat % 2 ^ nbits.val)
  | .flush => none

def writeTo (f : BFile) : BitCall → BFile
  | .write data nbits => bfWrite data.toNat nbits f
  | .writeWord data nbits => bfWriteWord data.toNat nbits f
  | .flush => bfFlush f

/-- The file after the calls and `BFclose`. -/
def written (calls : List BitCall) : List ℕ := (bfFlush (calls.foldl writeTo {})).fd

/-- The same call on a file that is read: what is returned, and the value. -/
def readFile (f : BFileReader) : BitCall → Option (Bool × ℕ) × BFileReader
  | .write _ nbits => (some (bfReadReturns nbits f, (bfRead nbits f).1), (bfRead nbits f).2)
  | .writeWord _ nbits =>
    let r := bfReadWord nbits [0, 0, 0, 0] f
    (some (r.1, ntohl r.2.1), r.2.2)
  | .flush => (none, (bfReaderFlush f).2)

/-- The results of the calls, and the position after each of them. -/
def fileRun : List BitCall → BFileReader → List (Option (Bool × ℕ) × ℕ)
  | [], _ => []
  | c :: calls, f => ((readFile f c).1, (readFile f c).2.position) :: fileRun calls (readFile f c).2

/-- A value that is read in pieces. -/
def readPieces : List (Fin 9) → ℕ → BStream → Option (ℕ × BStream)
  | [], v, s => some (v, s)
  | n :: pieces, v, s => do
    let (piece, s) ← bsRead n s
    readPieces pieces (v * 2 ^ n.val + piece) s

def readStream (pieces : List (Fin 9)) (s : BStream) : BitCall → Option (Option ℕ × BStream)
  | .flush => (bsReaderFlush s).map fun s => (none, s)
  | _ => (readPieces pieces 0 s).map fun r => (some r.1, r.2)

def streamRun : List (BitCall × List (Fin 9)) → BStream → Option (List (Option ℕ × ℕ))
  | [], _ => some []
  | (c, pieces) :: calls, s => do
    let (v, s) ← readStream pieces s c
    let results ← streamRun calls s
    some ((v, s.position) :: results)

/-- Between two flushes something is written. -/
def FlushesApart (calls : List BitCall) : Prop :=
  ∀ before between behind, calls = before ++ .flush :: (between ++ .flush :: behind) → ∃ c ∈ between, 0 < c.width

end BitCall

end CWB
