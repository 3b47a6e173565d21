import Mathlib.Data.Nat.Log
import CWB.Spec.BitIO
import CWB.Spec.Makecomps

/-! The inverted index of a positional attribute: the Golomb code of `cl/compression.c`,
`compress_reversed_index` of `utils/cwb-compress-rdx.c`, and the access functions of
`cl/cdaccess.c` that read the index, compressed or not. `none` stands for a read outside
the component's data and for a program that has aborted. -/

namespace CWB

open List

/-- `compute_ba`; `pa ft corpus_size` is the rounded logarithmic formula, an `int`. -/
def computeBa (pa : ℕ → ℕ → Int32) (ft corpusSize : ℕ) : ℕ :=
  if 1 < pa ft corpusSize then (pa ft corpusSize).toInt.toNat else 2

def writeGolombCode (x b : ℕ) (bf : BFile) : BFile :=
  let q := x / b
  let res := x - q * b
  let ub := Nat.clog 2 b
  let lb := ub - 1
  let bf := (range q).foldl (fun bf _ => bfWrite 1 1 bf) bf
  let bf := bfWrite 0 1 bf
  let nrSc := 2 ^ ub - b
  if res < nrSc then bfWriteWord res lb bf else bfWriteWord (res + nrSc) ub bf

/-- The unary part. Every round reads a bit, so the bits left in the stream bound the rounds. -/
def readUnary : ℕ → ℕ → BStream → Option (ℕ × BStream)
  | 0, _, _ => none
  | fuel + 1, q, bs => do
    let (bit, bs) ← bsRead 1 bs
    if bit ≠ 0 then readUnary fuel (q + 1) bs else some (q, bs)

/-- The binary part: `n` bits shifted into `r`, which is 32 bits wide. -/
def readBinary : ℕ → ℕ → BStream → Option (ℕ × BStream)
  | 0, r, bs => some (r, bs)
  | n + 1, r, bs => do
    let (bit, bs) ← bsRead 1 bs
    readBinary n (2 * r % 2 ^ 32 + bit) bs

def readGolombCodeBs (b : ℕ) (bs : BStream) : Option (ℕ × BStream) := do
  let ub := Nat.clog 2 b
  let lb := ub - 1
  let (q, bs) ← readUnary (8 * bs.base.length + 8) 0 bs
  let nrSc := 2 ^ ub - b
  let (r, bs) ← readBinary lb 0 bs
  if r ≥ nrSc then do
    let (r, bs) ← readBinary 1 r bs
    some (r - nrSc + q * b, bs)
  else some (r + q * b, bs)

/-- The unary part read from a file; at its end `BFread` delivers 0. -/
def readUnaryBf : ℕ → ℕ → BFileReader → Option (ℕ × BFileReader)
  | 0, _, _ => none
  | fuel + 1, q, bf =>
    let (bit, bf) := bfRead 1 bf
    if bit ≠ 0 then readUnaryBf fuel (q + 1) bf else some (q, bf)

def readBinaryBf : ℕ → ℕ → BFileReader → ℕ × BFileReader
  | 0, r, bf => (r, bf)
  | n + 1, r, bf =>
    let (bit, bf) := bfRead 1 bf
    readBinaryBf n (2 * r % 2 ^ 32 + bit) bf

def readGolombCodeBf (b : ℕ) (bf : BFileReader) : Option (ℕ × BFileReader) := do
  let ub := Nat.clog 2 b
  let lb := ub - 1
  let (q, bf) ← readUnaryBf (8 * bf.fd.length + bf.bitsInBuf + 1) 0 bf
  let nrSc := 2 ^ ub - b
  let (r, bf) := readBinaryBf lb 0 bf
  if r ≥ nrSc then
    let (r, bf) := readBinaryBf 1 r bf
    some (r - nrSc + q * b, bf)
  else some (r + q * b, bf)

/-- The loaded index components: `.rev` and `.rdx`, or `.crc` and `.crx`. -/
inductive InvertedIndex where
  | plain (rev rdx : List ℕ)
  | compressed (crc crx : List ℕ)
deriving Repr, DecidableEq

structure PosAttribute where
  size : ℕ
  freqs : List ℕ
  index : InvertedIndex
deriving Repr, DecidableEq

def clMaxCpos (a : PosAttribute) : ℕ := a.size

def clMaxId (a : PosAttribute) : ℕ := a.freqs.length

def clId2freq (a : PosAttribute) (id : ℕ) : Option ℕ := a.freqs[id]?

/-- `PositionStreamRecord`; `base` is the reversed corpus from the stream's first item on. -/
structure PositionStream where
  idFreq : ℕ
  nrItems : ℕ := 0
  isCompressed : Bool
  bs : BStream := bsOpen []
  b : ℕ := 0
  lastPos : ℕ := 0
  base : List ℕ := []
deriving Repr, DecidableEq

def clNewStream (pa : ℕ → ℕ → Int32) (a : PosAttribute) (id : ℤ) : Option PositionStream :=
  if clMaxCpos a = 0 ∨ clMaxId a = 0 ∨ id < 0 ∨ id ≥ clMaxId a then none
  else do
    let freq ← clId2freq a id.toNat
    match a.index with
    | .compressed crc crx => do
      let offset ← crx[id.toNat]?
      some { idFreq := freq, isCompressed := true, b := computeBa pa freq (clMaxCpos a),
             bs := bsSeek (bsOpen crc) offset }
    | .plain rev rdx => do
      let offset ← rdx[id.toNat]?
      some { idFreq := freq, isCompressed := false, base := rev.drop offset }

/-- The decoding loop of `cl_read_stream`. -/
def readGaps : ℕ → PositionStream → Option (List ℕ × PositionStream)
  | 0, ps => some ([], ps)
  | n + 1, ps => do
    let (gap, bs) ← readGolombCodeBs ps.b ps.bs
    let lastPos := ps.lastPos + gap
    let (buffer, ps) ← readGaps n { ps with bs := bs, lastPos := lastPos, nrItems := ps.nrItems + 1 }
    some (lastPos :: buffer, ps)

/-- `cl_read_stream`; the number it returns is the length of the buffer. -/
def clReadStream (ps : PositionStream) (bufferSize : ℕ) : Option (List ℕ × PositionStream) :=
  if ps.nrItems ≥ ps.idFreq then some ([], ps)
  else
    let itemsToRead :=
      if ps.nrItems + bufferSize > ps.idFreq then ps.idFreq - ps.nrItems else bufferSize
    if itemsToRead = 0 then some ([], ps)
    else if ps.isCompressed then readGaps itemsToRead ps
    else
      let buffer := (ps.base.drop ps.nrItems).take itemsToRead
      if buffer.length = itemsToRead then
        some (buffer, { ps with nrItems := ps.nrItems + itemsToRead })
      else none

/-- Successive calls of `cl_read_stream`, one for each buffer size. -/
def readChunks : PositionStream → List ℕ → Option (List (List ℕ))
  | _, [] => some []
  | ps, n :: sizes => do
    let (buffer, ps) ← clReadStream ps n
    let buffers ← readChunks ps sizes
    some (buffer :: buffers)

/-- One gap of `compress_reversed_index`: the data file, `last_pos` and the stream. -/
def compressGap (b : ℕ) (s : BFile × ℕ × PositionStream) (_k : ℕ) : Option (BFile × ℕ × PositionStream) := do
  let (buffer, ps) ← clReadStream s.2.2 1
  match buffer with
  | [newPos] => some (writeGolombCode (newPos - s.2.1) b s.1, newPos, ps)
  | _ => none

def compressElement (pa : ℕ → ℕ → Int32) (a : PosAttribute) (s : BFile × List ℕ) (i : ℕ) :
    Option (BFile × List ℕ) := do
  let freq ← clId2freq a i
  if freq = 0 then none
  let ps ← clNewStream pa a i
  let b := computeBa pa freq (clMaxCpos a)
  let t ← (range freq).foldlM (compressGap b) (s.1, 0, ps)
  some (bfFlush t.1, s.2 ++ [bfPosition s.1])

/-- `compress_reversed_index`: the contents of the `.crc` and the `.crx` file. The
plain index is loaded first, so that the streams read from it. -/
def compressReversedIndex (pa : ℕ → ℕ → Int32) (a : PosAttribute) : Option (List ℕ × List ℕ) := do
  if clMaxId a = 0 ∨ clMaxCpos a = 0 then none
  let s ← (range (clMaxId a)).foldlM (compressElement pa a) ({}, [])
  some ((bfFlush s.1).fd, s.2)

/-- An entry of the restrictor list; both ends belong to the range. -/
structure RestrictorRange where
  start : Int32
  stop : Int32
deriving Repr, DecidableEq

inductive CdaStatus where
  | ok | eidorng | eposorng
deriving Repr, DecidableEq

/-- What a caller of `cl_id2cpos_oldstyle` gets: the returned buffer (`none` for `NULL`),
`*freq` (`none` when it was not written) and `cl_errno`. -/
structure Id2cpos where
  buffer : Option (List ℕ)
  freq : Option ℕ
  errno : CdaStatus := .ok
deriving Repr, DecidableEq

/-- "reduce, if possible": the buffer of `freq` integers is cut to the `insPtr` filled ones. -/
def reduceBuffer (buffer : List ℕ) (freq insPtr : ℕ) : Id2cpos :=
  if insPtr < freq then
    { buffer := if insPtr = 0 then none else some (buffer.take insPtr), freq := some insPtr }
  else { buffer := some buffer, freq := some freq }

/-- The state of the loop over the gaps; `res` holds the ranges from `res_ptr` on. -/
structure GapLoop where
  bs : BStream
  lastPos : ℕ := 0
  insPtr : ℕ := 0
  res : List RestrictorRange
  buffer : List ℕ

/-- One round on the compressed path. `last_pos` is unsigned, and so are the comparisons. -/
def gapRound (b : ℕ) (restricted : Bool) (s : GapLoop) (_i : ℕ) : Option GapLoop := do
  let (gap, bs) ← readGolombCodeBs b s.bs
  let lastPos := s.lastPos + gap
  let insert := { s with bs, lastPos, insPtr := s.insPtr + 1, buffer := s.buffer.set s.insPtr lastPos }
  if restricted then
    let res := s.res.dropWhile fun r => decide (lastPos > r.stop.toUInt32.toNat)
    match res with
    | r :: _ =>
      if lastPos ≥ r.start.toUInt32.toNat ∧ lastPos ≤ r.stop.toUInt32.toNat then
        some { insert with res }
      else some { s with bs, lastPos, res }
    | [] => some { s with bs, lastPos, res }
  else some insert

/-- The loop on the plain path, over signed integers: it compacts the buffer in place
and ends when the positions or the ranges are used up. -/
def restrictLoop (freq : ℕ) : ℕ → List RestrictorRange → ℕ → ℕ → List ℕ → List ℕ × ℕ
  | 0, _, _, insPtr, buffer => (buffer, insPtr)
  | fuel + 1, res, bufPtr, insPtr, buffer =>
    if bufPtr < freq then
      match res with
      | [] => (buffer, insPtr)
      | r :: res' =>
        let cpos := buffer.getD bufPtr 0
        if (cpos : ℤ) < r.start.toInt then restrictLoop freq fuel (r :: res') (bufPtr + 1) insPtr buffer
        else if (cpos : ℤ) > r.stop.toInt then restrictLoop freq fuel res' bufPtr insPtr buffer
        else restrictLoop freq fuel (r :: res') (bufPtr + 1) (insPtr + 1) (buffer.set insPtr cpos)
    else (buffer, insPtr)

/-- `cl_id2cpos_oldstyle`; an empty restrictor list counts as none. -/
def clId2cposOldstyle (pa : ℕ → ℕ → Int32) (a : PosAttribute) (id : ℤ)
    (restrictor : List RestrictorRange) : Option Id2cpos :=
  if clMaxCpos a = 0 ∨ clMaxId a = 0 then some { buffer := none, freq := none }
  else if id < 0 ∨ id ≥ clMaxId a then some { buffer := none, freq := some 0, errno := .eidorng }
  else do
    let freq ← clId2freq a id.toNat
    match a.index with
    | .compressed crc crx => do
      let offset ← crx[id.toNat]?
      let s ← (range freq).foldlM (gapRound (computeBa pa freq (clMaxCpos a)) !restrictor.isEmpty)
        { bs := bsSeek (bsOpen crc) offset, res := restrictor, buffer := replicate freq 0 }
      some (reduceBuffer s.buffer freq s.insPtr)
    | .plain rev rdx => do
      let offset ← rdx[id.toNat]?
      let buffer := (rev.drop offset).take freq
      if buffer.length ≠ freq then none
      else if restrictor.isEmpty then some { buffer := some buffer, freq := some freq }
      else
        let (buffer, insPtr) := restrictLoop freq (freq + restrictor.length) restrictor 0 0 buffer
        some (reduceBuffer buffer freq insPtr)

end CWB
