import Mathlib.Data.Nat.Bitwise

/-! The bit files and bit streams of `cl/bitio.c`. A byte is a number below 256.
A `BFile` is open for writing, a `BFileReader` is one open for reading, and a `BStream`
is open for reading. A read behind the end of the memory of a stream is `none`; at the
end of a file the reader keeps its state. -/

namespace CWB

structure BFile where
  fd : List ℕ := []
  buf : ℕ := 0
  bitsInBuf : ℕ := 0
  position : ℕ := 0
deriving Repr, DecidableEq

/-- The body of the loop of `BFwrite`: one bit into the buffer, a full buffer into the file. -/
def BFile.put (f : BFile) (bit : Bool) : BFile :=
  let buf := 2 * f.buf % 256 + bit.toNat
  if f.bitsInBuf + 1 = 8 then
    { fd := f.fd ++ [buf], buf := 0, bitsInBuf := 0, position := f.position + 1 }
  else { f with buf := buf, bitsInBuf := f.bitsInBuf + 1 }

/-- `BFwrite`; with `n + 1` bits to go the mask is `1 << n`. -/
def bfWrite (data : ℕ) : ℕ → BFile → BFile
  | 0, f => f
  | n + 1, f => bfWrite data n (f.put (data.testBit n))

def bfFlush (f : BFile) : BFile :=
  if 0 < f.bitsInBuf ∧ f.bitsInBuf < 8 then
    { fd := f.fd ++ [f.buf * 2 ^ (8 - f.bitsInBuf) % 256], buf := 0, bitsInBuf := 0,
      position := f.position + 1 }
  else f

def bfPosition (f : BFile) : ℕ := f.position

/-- `cdata[i]`: the bytes of a 32-bit word in network order. -/
def wordByte (data i : ℕ) : ℕ := data / 2 ^ (8 * (3 - i)) % 256

def bfWriteWord (data nbits : ℕ) (f : BFile) : BFile :=
  if nbits > 32 then f
  else
    let bytes := nbits / 8
    let rest := nbits % 8
    let f := if rest ≠ 0 then bfWrite (wordByte data (3 - bytes)) rest f else f
    (List.range bytes).foldl (fun f i => bfWrite (wordByte data (4 - bytes + i)) 8 f) f

structure BStream where
  base : List ℕ
  buf : ℕ := 0
  bitsInBuf : ℕ := 0
  position : ℕ := 0
deriving Repr, DecidableEq

def bsOpen (base : List ℕ) : BStream := { base := base }

def bsSeek (s : BStream) (offset : ℕ) : BStream :=
  { s with buf := 0, bitsInBuf := 0, position := offset }

/-- The refill at the top of the loop of `BSread`. -/
def BStream.fill (s : BStream) : Option BStream :=
  if s.bitsInBuf = 0 then
    (s.base[s.position]?).map fun byte =>
      { s with buf := byte, position := s.position + 1, bitsInBuf := 8 }
  else some s

def BStream.get (s : BStream) : Option (Bool × BStream) :=
  s.fill.map fun s => (s.buf.testBit 7, { s with buf := 2 * s.buf % 256, bitsInBuf := s.bitsInBuf - 1 })

def bsReadLoop (data : ℕ) : ℕ → BStream → Option (ℕ × BStream)
  | 0, s => some (data, s)
  | n + 1, s => do
    let (bit, s) ← s.get
    bsReadLoop (2 * data % 256 + bit.toNat) n s

def bsRead (nbits : ℕ) (s : BStream) : Option (ℕ × BStream) := bsReadLoop 0 nbits s

/-- `fd` holds the bytes that were not read from the file yet. -/
structure BFileReader where
  fd : List ℕ
  buf : ℕ := 0
  bitsInBuf : ℕ := 0
  position : ℕ := 0
deriving Repr, DecidableEq

def bfOpen (data : List ℕ) : BFileReader := { fd := data }

/-- The refill at the top of the loop of `BFread`; `none` at the end of the file. -/
def BFileReader.fill (f : BFileReader) : Option BFileReader :=
  if f.bitsInBuf = 0 then
    match f.fd with
    | [] => none
    | byte :: fd => some { fd := fd, buf := byte, position := f.position + 1, bitsInBuf := 8 }
  else some f

/-- `BFread` stores the bits that it got before the end of the file. -/
def bfReadLoop (data : ℕ) : ℕ → BFileReader → ℕ × BFileReader
  | 0, f => (data, f)
  | n + 1, f =>
    match f.fill with
    | none => (data, f)
    | some f =>
      bfReadLoop (2 * data % 256 + (f.buf.testBit 7).toNat) n
        { f with buf := 2 * f.buf % 256, bitsInBuf := f.bitsInBuf - 1 }

def bfRead (nbits : ℕ) (f : BFileReader) : ℕ × BFileReader := bfReadLoop 0 nbits f

/-- What `BFread` returns: all bits were there. -/
def bfReadReturns : ℕ → BFileReader → Bool
  | 0, _ => true
  | n + 1, f =>
    match f.fill with
    | none => false
    | some f => bfReadReturns n { f with buf := 2 * f.buf % 256, bitsInBuf := f.bitsInBuf - 1 }

/-- `BFread` into a byte of a word, if nothing has failed before. -/
def bfReadByte (i nbits : ℕ) (r : Bool × List ℕ × BFileReader) : Bool × List ℕ × BFileReader :=
  if r.1 then (bfReadReturns nbits r.2.2, r.2.1.set i (bfRead nbits r.2.2).1, (bfRead nbits r.2.2).2) else r

/-- `BFreadWord` into the bytes `cdata` of a word. -/
def bfReadWord (nbits : ℕ) (cdata : List ℕ) (f : BFileReader) : Bool × List ℕ × BFileReader :=
  if nbits > 32 then (false, cdata, f)
  else
    let bytes := nbits / 8
    let rest := nbits % 8
    let r := if rest ≠ 0 then bfReadByte (3 - bytes) rest (true, cdata, f) else (true, cdata, f)
    (List.range bytes).foldl (fun r i => bfReadByte (4 - bytes + i) 8 r) r

/-- `ntohl` -/
def ntohl (cdata : List ℕ) : ℕ := cdata.foldl (fun v byte => 256 * v + byte) 0

/-- `BFflush` of a file that is read: at its end the buffer stays as it is. -/
def bfReaderFlush (f : BFileReader) : Bool × BFileReader :=
  match f.fd with
  | [] => (false, { f with bitsInBuf := 8, position := f.position + 1 })
  | byte :: fd => (true, { fd := fd, buf := byte, bitsInBuf := 8, position := f.position + 1 })

/-- `BSflush` of a stream that is read. -/
def bsReaderFlush (s : BStream) : Option BStream :=
  (s.base[s.position]?).map fun byte => { s with buf := byte, bitsInBuf := 8, position := s.position + 1 }

end CWB
