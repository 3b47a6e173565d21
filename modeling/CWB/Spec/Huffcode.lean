import CWB.Spec.InvertedIndex

/-! The compression of a token stream by `compute_code_lengths` of `utils/cwb-huffcode.c`,
and its random access by `cl_cpos2id`. Frequencies, heap, parent pointers, depths and
in the end codes and symbols share one array of `2 * size` unsigned integers; nodes of
the heap are numbered from 1 and stand one cell lower. -/

namespace CWB

open List

def MAXCODELEN : ℕ := 32

def SYNCHRONIZATION : ℕ := 128

/-- An array by its cells. -/
structure Cells where
  get : ℕ → ℕ

instance : CoeFun Cells fun _ => ℕ → ℕ := ⟨Cells.get⟩

def Cells.put (a : Cells) (i v : ℕ) : Cells := ⟨Function.update a.get i v⟩

/-- `memset` with zeros. -/
def Cells.zero : Cells := ⟨fun _ => 0⟩

/-- An `unsigned int` read through the `int *` parameter of `sift`. -/
def signed32 (n : ℕ) : ℤ := if n < 2 ^ 31 then n else n - 2 ^ 32

def swapCells (heap : Cells) (i j : ℕ) : Cells := (heap.put i (heap j)).put j (heap i)

/-- The loop of `sift`; `node` grows in every round. -/
def siftLoop (heapSize : ℕ) : ℕ → Cells → ℕ → Cells
  | 0, heap, _ => heap
  | fuel + 1, heap, node =>
    let child := 2 * node
    if child ≤ heapSize then
      let child :=
        if child < heapSize ∧ signed32 (heap (heap child)) < signed32 (heap (heap (child - 1))) then child + 1
        else child
      if signed32 (heap (heap (node - 1))) > signed32 (heap (heap (child - 1))) then
        siftLoop heapSize fuel (swapCells heap (child - 1) (node - 1)) child
      else heap
    else heap

def sift (heap : Cells) (heapSize node : ℕ) : Cells := siftLoop heapSize heapSize heap node

/-- Pointers to the leaves, then the leaves with their frequencies plus one. -/
def initHeap (size : ℕ) (freq : ℕ → ℕ) : Cells :=
  ⟨fun c => if c < size then size + c else if c < 2 * size then freq (c - size) + 1 else 0⟩

/-- Phase 1: every inner node is sifted, from the last one down to the root. -/
def phase1 (size : ℕ) : ℕ → Cells → Cells
  | 0, heap => heap
  | i + 1, heap => phase1 size i (sift heap size (i + 1))

/-- The topmost item is removed from a heap of size `h`. -/
def removeTop (heap : Cells) (h : ℕ) : Cells :=
  sift (heap.put 0 (heap (h - 1))) (h - 1) 1

/-- A new element at the end of the heap is swapped up; the comparison is unsigned here. -/
def swapUp : ℕ → Cells → ℕ → Cells
  | 0, heap, _ => heap
  | fuel + 1, heap, current =>
    let parent := current / 2
    if parent > 0 ∧ heap (heap (parent - 1)) > heap (heap (current - 1)) then
      swapUp fuel (swapCells heap (parent - 1) (current - 1)) parent
    else heap

/-- The cells after the two smallest items `pos0` and `pos1` were removed from a heap that
has now size `h`: the new item with their summed frequency, and their parent pointers. -/
def joinTwo (heap : Cells) (h pos0 pos1 : ℕ) : Cells :=
  let heap := heap.put h (h + 1)
  let heap := heap.put (h + 1) ((heap pos0 + heap pos1) % 2 ^ 32)
  (heap.put pos1 (h + 1)).put pos0 (h + 1)

/-- One round of phase 2 on a heap of size `h`, which is `h - 1` afterwards. -/
def mergeRound (heap : Cells) (h : ℕ) : Cells :=
  let heap1 := removeTop heap h
  let heap2 := removeTop heap1 (h - 1)
  swapUp h (joinTwo heap2 (h - 2) (heap 0) (heap1 0)) (h - 1)

/-- Phase 2, as long as there is more than one root. -/
def phase2 : ℕ → Cells → Cells
  | 0, heap => heap
  | h + 1, heap => if h + 1 > 1 then phase2 h (mergeRound heap (h + 1)) else heap

/-- Phase 3: parent pointers become depths. -/
def phase3 (size : ℕ) (heap : Cells) : Cells :=
  (range' 2 (2 * size - 2)).foldl (fun (heap : Cells) i => heap.put i (heap (heap i) + 1))
    ((heap.put 0 (2 ^ 32 - 1)).put 1 0)

/-- The array after the three phases. -/
def depthCells (size : ℕ) (freq : ℕ → ℕ) : Cells :=
  phase3 size (phase2 size (phase1 size (size / 2) (initHeap size freq)))

/-- `codelength[i]`: a single type gets a code of one bit. -/
def codelength (size : ℕ) (depth : Cells) (i : ℕ) : ℕ :=
  if depth (i + size) = 0 then 1 else depth (i + size)

/-- The Huffman code descriptor block. -/
structure HCD where
  size : ℕ
  length : ℕ
  minCodelen : ℕ
  maxCodelen : ℕ
  lcount : List ℕ
  symindex : List ℕ
  minCode : List ℕ
  symbols : List ℕ
deriving Repr, DecidableEq

/-- The statistics collected over the code lengths. -/
structure LengthStats where
  minCodelen : ℕ := 100
  maxCodelen : ℕ := 0
  lcount : Cells := .zero

def collectLength (s : LengthStats) (cl : ℕ) : LengthStats :=
  { maxCodelen := if cl > s.maxCodelen then cl else s.maxCodelen
    minCodelen := if cl < s.minCodelen then cl else s.minCodelen
    lcount := s.lcount.put cl (s.lcount cl + 1) }

/-- `min_code[i]` for `i` from the argument down to 1. -/
def fillMinCode (lcount : Cells) : ℕ → Cells → Cells
  | 0, minCode => minCode
  | i + 1, minCode =>
    fillMinCode lcount i (minCode.put (i + 1) ((minCode (i + 2) + lcount (i + 2)) / 2))

def fillSymindex (lcount : Cells) (minCodelen maxCodelen : ℕ) : Cells :=
  (range' (minCodelen + 1) (maxCodelen - minCodelen)).foldl
    (fun (symindex : Cells) i => symindex.put i (symindex (i - 1) + lcount (i - 1))) .zero

/-- The codes in the first half of the array, the symbols in the second, and the
counters of the loop that issues them. -/
structure Issue where
  heap : Cells
  nextCode : Cells
  issued : Cells

def issueCode (size : ℕ) (cl : ℕ → ℕ) (symindex : Cells) (s : Issue) (i : ℕ) : Issue :=
  let heap := s.heap.put i (s.nextCode (cl i))
  { heap := heap.put (size + (symindex (cl i) + s.issued (cl i))) i
    nextCode := s.nextCode.put (cl i) (s.nextCode (cl i) + 1)
    issued := s.issued.put (cl i) (s.issued (cl i) + 1) }

/-- `WriteHCD`: the descriptor block as a file of integers. -/
def writeHCD (hc : HCD) : List ℕ :=
  [hc.size, hc.length, hc.minCodelen, hc.maxCodelen] ++ hc.lcount ++ hc.symindex ++ hc.minCode ++ hc.symbols

/-- `load_component` for the descriptor block: the fixed part is copied, the symbols stay behind it. -/
def loadHCD (data : List ℕ) : HCD :=
  { size := data.getD 0 0
    length := data.getD 1 0
    minCodelen := data.getD 2 0
    maxCodelen := data.getD 3 0
    lcount := (data.drop 4).take MAXCODELEN
    symindex := (data.drop (4 + MAXCODELEN)).take MAXCODELEN
    minCode := (data.drop (4 + 2 * MAXCODELEN)).take MAXCODELEN
    symbols := data.drop (4 + 3 * MAXCODELEN) }

/-- One token of the encoding loop: a sync offset before each block, then the code. -/
def encodeToken (cl : ℕ → ℕ) (code : Cells) (s : BFile × List ℕ) (token : ℕ × ℕ) : BFile × List ℕ :=
  let s :=
    if token.2 % SYNCHRONIZATION = 0 then
      let bfd := if token.2 > 0 then bfFlush s.1 else s.1
      (bfd, s.2 ++ [bfPosition bfd])
    else s
  (bfWriteWord (code token.1) (cl token.1) s.1, s.2)

/-- The contents of the `.hcd`, `.huf` and `.huf.syn` files. -/
structure HuffFiles where
  hcd : List ℕ
  huf : List ℕ
  syn : List ℕ
deriving Repr, DecidableEq

/-- `compute_code_lengths`; `none` when a check or an assertion ends the program. -/
def computeCodeLengths (ids : List ℕ) (freqs : List ℕ) : Option HuffFiles :=
  let size := freqs.length
  if size = 0 ∨ ids.length = 0 then none
  else
    let freq := fun i => freqs.getD i 0
    let depth := depthCells size freq
    let cl := codelength size depth
    if (range size).any (fun i => depth (i + size) = 0) ∧ size ≠ 1 then none
    else
      let stats := ((range size).map cl).foldl collectLength {}
      if stats.maxCodelen ≥ MAXCODELEN then none
      else
        let minCode := fillMinCode stats.lcount (stats.maxCodelen - 1) .zero
        let symindex := fillSymindex stats.lcount stats.minCodelen stats.maxCodelen
        let s := (range size).foldl (issueCode size cl symindex)
          { heap := depth, nextCode := minCode, issued := .zero }
        let hc : HCD :=
          { size := size, length := ids.length, minCodelen := stats.minCodelen, maxCodelen := stats.maxCodelen
            lcount := (range MAXCODELEN).map stats.lcount
            symindex := (range MAXCODELEN).map symindex
            minCode := (range MAXCODELEN).map minCode
            symbols := (range size).map fun k => s.heap (size + k) }
        let t := ids.zipIdx.foldl (encodeToken cl s.heap) ({}, [])
        some { hcd := writeHCD hc, huf := (bfFlush t.1).fd, syn := t.2 }

/-! Access. -/

/-- The decompression block of an attribute; block number -1 is none. -/
structure BlockCache where
  thisBlockNr : ℤ := -1
  thisBlock : List ℕ := replicate SYNCHRONIZATION 0
deriving Repr, DecidableEq

/-- The loop that reads the code of one item: more bits while `v` is below all codes
of the length `l` it has so far. -/
def decodeLoop (hc : HCD) : ℕ → ℕ → ℕ → BStream → Option (ℕ × ℕ × BStream)
  | 0, _, _, _ => none
  | fuel + 1, v, l, bs => do
    let minCode ← hc.minCode[l]?
    if v < minCode then do
      let (bit, bs) ← bsRead 1 bs
      decodeLoop hc fuel (2 * v + if bit ≠ 0 then 1 else 0) (l + 1) bs
    else some (v, l, bs)

def decodeItem (hc : HCD) (bs : BStream) : Option (ℕ × BStream) := do
  let (bit, bs) ← bsRead 1 bs
  let (v, l, bs) ← decodeLoop hc MAXCODELEN (if bit ≠ 0 then 1 else 0) 1 bs
  let symindex ← hc.symindex[l]?
  let minCode ← hc.minCode[l]?
  let item ← hc.symbols[symindex + v - minCode]?
  some (item, bs)

/-- One item of the block is decoded and stored. -/
def decodeRound (hc : HCD) (s : List ℕ × BStream) (i : ℕ) : Option (List ℕ × BStream) := do
  let (item, bs) ← decodeItem hc s.2
  some (s.1.set i item, bs)

/-- `cl_cpos2id` on a compressed token stream: the returned ID or the error code, and
the cache it leaves. `none` is a read outside the data of a component. -/
def clCpos2id (files : HuffFiles) (cache : BlockCache) (position : ℤ) :
    Option (Except CdaStatus ℕ × BlockCache) :=
  let hc := loadHCD files.hcd
  if position ≥ 0 ∧ position < hc.length then do
    let block := position.toNat / SYNCHRONIZATION
    let rest := position.toNat % SYNCHRONIZATION
    let cache ←
      if cache.thisBlockNr ≠ block then do
        let left := hc.length - block * SYNCHRONIZATION
        let max := if left > SYNCHRONIZATION then SYNCHRONIZATION else left
        let offset ← files.syn[block]?
        let s ← (range max).foldlM (decodeRound hc) (cache.thisBlock, bsSeek (bsOpen files.huf) offset)
        some { thisBlockNr := block, thisBlock := s.1 : BlockCache }
      else some cache
    let item ← cache.thisBlock[rest]?
    some (.ok item, cache)
  else some (.error .eposorng, cache)

/-- Successive calls of `cl_cpos2id`, starting with the given cache. -/
def accessAll (files : HuffFiles) : BlockCache → List ℤ → Option (List (Except CdaStatus ℕ))
  | _, [] => some []
  | cache, position :: positions => do
    let (r, cache) ← clCpos2id files cache position
    let rs ← accessAll files cache positions
    some (r :: rs)

end CWB
