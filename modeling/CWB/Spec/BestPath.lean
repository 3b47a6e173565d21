import CWB.Library.Backtrace
import CWB.Library.Intervals
import CWB.Spec.RangeFile

/-! The sentence aligner: the beamed array of `utils/barlib.c` and `best_path` in
`utils/feature_maps.c`. The similarity of two groups of sentences (`feature_match`) is a
parameter, and the quality of a path is not limited to 32 bits. -/

namespace CWB

open List

/-- The block of a diagonal; it starts at -1 before the first write. -/
structure Diagonal where
  blockStartX : ℤ := -1
  blockData : List ℤ := []

/-- What `BAR_write` does to a diagonal: the first write places the block and fills it with
zeroes. -/
def Diagonal.put (w : ℕ) (x i : ℤ) (d : Diagonal) : Diagonal :=
  if d.blockStartX < 0 then { blockStartX := x, blockData := (replicate w 0).set 0 i }
  else if 0 ≤ x - d.blockStartX ∧ x - d.blockStartX < w then
    { d with blockData := d.blockData.set (x - d.blockStartX).toNat i }
  else d

/-- What `BAR_read` reads from a diagonal. -/
def Diagonal.get (w : ℕ) (x : ℤ) (d : Diagonal) : ℤ :=
  if d.blockStartX ≥ 0 ∧ 0 ≤ x - d.blockStartX ∧ x - d.blockStartX < w then
    d.blockData.getD (x - d.blockStartX).toNat 0
  else 0

structure BAR where
  xSize : ℕ
  ySize : ℕ
  beamWidth : ℕ
  diagonals : List Diagonal

def barNew (n m w : ℕ) : BAR where
  xSize := n
  ySize := m
  beamWidth := w
  diagonals := replicate (n + m) {}

namespace BAR

variable (b : BAR)

def inMatrix (x y : ℤ) : Prop := 0 ≤ x ∧ x < b.xSize ∧ 0 ≤ y ∧ y < b.ySize

instance (x y : ℤ) : Decidable (b.inMatrix x y) := inferInstanceAs (Decidable (_ ∧ _))

/-- `BAR_write`. -/
def write (x y i : ℤ) : BAR :=
  if b.inMatrix x y then
    { b with diagonals := b.diagonals.modify (x + y).toNat (Diagonal.put b.beamWidth x i) }
  else b

/-- `BAR_read`. -/
def read (x y : ℤ) : ℤ :=
  if b.inMatrix x y then (b.diagonals.getD (x + y).toNat {}).get b.beamWidth x else 0

end BAR

/-- The similarity of the sentences of both ranges. -/
abbrev FeatureMatch := ℤ → ℤ → ℤ → ℤ → ℕ

/-- The data of the dynamic programming. -/
structure PathArrays where
  quality : BAR
  nextX : BAR
  nextY : BAR

/-- The sentences to be aligned: the first ones and the numbers of sentences. -/
structure AlignInput where
  featureMatch : FeatureMatch
  f1 : ℤ := 0
  f2 : ℤ := 0
  xRanges : ℕ
  yRanges : ℕ
  beamWidth : ℕ

namespace PathArrays

variable (inp : AlignInput) (a : PathArrays)

def write (x y q nx ny : ℤ) : PathArrays where
  quality := a.quality.write x y q
  nextX := a.nextX.write x y nx
  nextY := a.nextY.write x y ny

/-- The cell starts as a 1:0 or 0:1 alignment, whichever is better. -/
def initCell (ix iy : ℤ) : PathArrays :=
  let a := if ix ≥ 1 then a.write ix iy (a.quality.read (ix - 1) iy) (ix - 1) iy else a
  if a.quality.read ix (iy - 1) > a.quality.read ix iy then
    a.write ix iy (a.quality.read ix (iy - 1)) ix (iy - 1)
  else a

/-- An alignment of `d.1` with `d.2` sentences, if that is an improvement. -/
def tryStep (ix iy : ℤ) (d : ℤ × ℤ) : PathArrays :=
  if ix - d.1 ≥ 0 ∧ iy - d.2 ≥ 0 then
    let aux := a.quality.read (ix - d.1) (iy - d.2) +
      inp.featureMatch (inp.f1 + ix - d.1) (inp.f1 + ix - 1) (inp.f2 + iy - d.2) (inp.f2 + iy - 1)
    if aux > a.quality.read ix iy then a.write ix iy aux (ix - d.1) (iy - d.2) else a
  else a

def scanCell (ix iy : ℤ) : PathArrays :=
  [(1, 1), (1, 2), (2, 1), (2, 2)].foldl (fun a d => a.tryStep inp ix iy d) (a.initCell ix iy)

end PathArrays

/-- The forward search, with the best cell of the diagonal at hand. -/
structure PathSearch where
  arrays : PathArrays
  xMax : ℤ
  qMax : ℤ := 0

namespace AlignInput

variable (inp : AlignInput)

def startArrays : PathArrays :=
  let bar := barNew (inp.xRanges + 1) (inp.yRanges + 1) inp.beamWidth
  { quality := bar.write 0 0 1, nextX := bar.write 0 0 0, nextY := bar.write 0 0 0 }

/-- The body of the loop over the cells of diagonal `id`. -/
def scanStep (id : ℕ) (st : PathSearch) (ix : ℤ) : PathSearch :=
  let iy := id - ix
  if iy < 0 ∨ iy > inp.yRanges ∨ ix > inp.xRanges then st
  else
    let arrays := st.arrays.scanCell inp ix iy
    if arrays.quality.read ix iy > st.qMax then
      { arrays, xMax := ix, qMax := arrays.quality.read ix iy }
    else { st with arrays }

/-- One diagonal, in the beam around the best cell of the diagonal before. -/
def scanDiagonal (st : PathSearch) (id : ℕ) : PathSearch :=
  let xStart := st.xMax - (inp.beamWidth / 2 : ℕ)
  ((range inp.beamWidth).map fun k : ℕ => xStart + k).foldl (inp.scanStep id)
    { arrays := st.arrays, xMax := xStart }

def forward (idmax : ℕ) : PathSearch :=
  (range idmax).foldl (fun st id => inp.scanDiagonal st (id + 1)) { arrays := inp.startArrays, xMax := 1 }

/-- The backward loop; `none` if there are more points than the output vectors have room for. -/
def traceBack (a : PathArrays) : ℕ → ℤ → ℤ → ℤ → List (ℤ × ℤ × ℤ) → Option (List (ℤ × ℤ × ℤ))
  | room, ix, iy, iq, out =>
    if ix ≥ 0 ∧ iy ≥ 0 then
      match room with
      | 0 => none
      | room + 1 =>
        let aux := a.quality.read ix iy
        let out := (ix + inp.f1, iy + inp.f2, iq - aux) :: out
        if ix ≤ 0 ∧ iy ≤ 0 then some out
        else traceBack a room (a.nextX.read ix iy) (a.nextY.read ix iy) aux out
    else some out

/-- `best_path`: the points with the quality of the step from each of them. -/
def bestPath : Option (List (ℤ × ℤ × ℤ)) :=
  let a := (inp.forward (inp.xRanges + inp.yRanges)).arrays
  inp.traceBack a (inp.xRanges + inp.yRanges + 1) inp.xRanges inp.yRanges (a.quality.read inp.xRanges inp.yRanges) []

/-- `best_path` with the output vectors that earlier calls have left, for `maxOutPos` points. -/
def bestPathAfter (maxOutPos : ℕ) : Option (List (ℤ × ℤ × ℤ)) :=
  let a := (inp.forward (inp.xRanges + inp.yRanges)).arrays
  inp.traceBack a (max maxOutPos (inp.xRanges + inp.yRanges + 1)) inp.xRanges inp.yRanges
    (a.quality.read inp.xRanges inp.yRanges) []

/-! What the aligner is for. -/

/-- The steps 1:0, 0:1, 1:1, 1:2, 2:1 and 2:2. -/
def steps : List (ℤ × ℤ) := [(1, 0), (0, 1), (1, 1), (1, 2), (2, 1), (2, 2)]

/-- Nothing is compared in a 1:0 or 0:1 step. -/
def stepSimilarity (p c : ℤ × ℤ) : ℤ :=
  if p.1 < c.1 ∧ p.2 < c.2 then inp.featureMatch p.1 (c.1 - 1) p.2 (c.2 - 1) else 0

/-- A monotone alignment path through both texts, with the similarity of each step. -/
structure AlignmentPath (path : List (ℤ × ℤ × ℤ)) : Prop where
  first : path.head?.map (fun p => (p.1, p.2.1)) = some (inp.f1, inp.f2)
  last : path.getLast?.map (fun p => (p.1, p.2.1)) = some (inp.f1 + inp.xRanges, inp.f2 + inp.yRanges)
  step : path.IsChain fun p c => (c.1 - p.1, c.2.1 - p.2.1) ∈ steps ∧
    p.2.2 = inp.stepSimilarity (p.1, p.2.1) (c.1, c.2.1)
  monotone : path.Pairwise fun p c => p.1 ≤ c.1 ∧ p.2.1 ≤ c.2.1
  inside : ∀ p ∈ path, inp.f1 ≤ p.1 ∧ p.1 ≤ inp.f1 + inp.xRanges ∧ inp.f2 ≤ p.2.1 ∧ p.2.1 ≤ inp.f2 + inp.yRanges

/-- A path through both texts in steps of the allowed types, as the points that it visits. -/
structure MonotonePath (points : List (ℤ × ℤ)) : Prop where
  first : points.head? = some (inp.f1, inp.f2)
  last : points.getLast? = some (inp.f1 + inp.xRanges, inp.f2 + inp.yRanges)
  step : points.IsChain fun p c => (c.1 - p.1, c.2 - p.2) ∈ steps

/-- The similarity of all steps. -/
def totalSimilarity (points : List (ℤ × ℤ)) : ℤ := Backtrace.total inp.stepSimilarity points

end AlignInput

/-! The lines of the alignment file: `align_do_alignment` and `align_print_line` of `utils/cwb-align.c`, for the
alignment of all sentences of two corpora. A number that no function has set is `none`. -/

open Tiling

/-- The sentence attribute of a corpus of `size` tokens, with sentences from the first token to the last. -/
structure SentenceAttribute where
  regions : List (ℤ × ℤ)
  size : ℤ
  tiles : Tiles 0 regions size
  length_lt : regions.length < 2 ^ 30

/-- The numbers of a line that belong to one of the corpora. -/
structure AlignSide where
  wf : Option ℤ
  wl : Option ℤ
  step : ℤ
deriving Repr, DecidableEq

structure PrintedLine where
  source : AlignSide
  target : AlignSide
  quality : ℤ
deriving Repr, DecidableEq

/-- What `align_print_line` does for each of the corpora. -/
def SentenceAttribute.alignSide (s : SentenceAttribute) (f l : ℤ) : AlignSide :=
  let wf := (clStruc2cpos s.regions f).map Prod.fst
  let wl := if l - 1 ≥ f then (clStruc2cpos s.regions (l - 1)).map Prod.snd else wf.map (· - 1)
  { wf, wl, step := l - f }

/-- The two sentence attributes and the options; `splits` compares the quality of a 2:2 alignment with that of two 1:1
alignments, which it multiplies by the split factor. -/
structure AlignTask where
  s1 : SentenceAttribute
  s2 : SentenceAttribute
  featureMatch : FeatureMatch
  beamWidth : ℕ
  splits : ℤ → ℤ → Bool

/-- What has been written, and the number of steps that `align_do_alignment` counts. -/
structure AlignOutput where
  lines : List PrintedLine := []
  stepsCreated : ℕ := 0
deriving Repr, DecidableEq

namespace AlignTask

variable (t : AlignTask)

/-- The arguments of `best_path` for all sentences. -/
def pathInput : AlignInput where
  featureMatch := t.featureMatch
  xRanges := t.s1.regions.length
  yRanges := t.s2.regions.length
  beamWidth := t.beamWidth

def alignPrintLine (f1 l1 f2 l2 quality : ℤ) : PrintedLine where
  source := t.s1.alignSide f1 l1
  target := t.s2.alignSide f2 l2
  quality := quality

/-- The qualities of the 1:1 alignments of the sentences from a point on. -/
def splitQuality (f1 f2 : ℤ) : ℤ × ℤ :=
  (t.featureMatch f1 f1 f2 f2, t.featureMatch (f1 + 1) (f1 + 1) (f2 + 1) (f2 + 1))

/-- A 2:2 alignment that is written as two lines. -/
def isSplit (p c : ℤ × ℤ × ℤ) : Bool :=
  c.1 - p.1 = 2 ∧ c.2.1 - p.2.1 = 2 ∧
    t.splits p.2.2 ((t.splitQuality p.1 p.2.1).1 + (t.splitQuality p.1 p.2.1).2)

/-- The body of the loop, for the points `i` and `i + 1` of the path. -/
def alignStep (out : AlignOutput) (e : (ℤ × ℤ × ℤ) × (ℤ × ℤ × ℤ)) : AlignOutput :=
  let ((f1, f2, quality), (l1, l2, _)) := e
  if t.isSplit e.1 e.2 then
    let (q1, q2) := t.splitQuality f1 f2
    { lines := out.lines ++ [t.alignPrintLine f1 (f1 + 1) f2 (f2 + 1) q1, t.alignPrintLine (f1 + 1) l1 (f2 + 1) l2 q2]
      stepsCreated := out.stepsCreated + 2 }
  else { lines := out.lines ++ [t.alignPrintLine f1 l1 f2 l2 quality], stepsCreated := out.stepsCreated + 1 }

/-- What is written for a path. -/
def alignSteps (path : List (ℤ × ℤ × ℤ)) : AlignOutput := (path.zip path.tail).foldl t.alignStep {}

/-- `align_do_alignment`, with the output vectors of `best_path` that earlier calls have left. -/
def alignDoAlignment (maxOutPos : ℕ) : Option AlignOutput := (t.pathInput.bestPathAfter maxOutPos).map t.alignSteps

end AlignTask

/-! What the lines should say. -/

/-- The points of a path. -/
def AlignTask.points (path : List (ℤ × ℤ × ℤ)) : List (ℤ × ℤ) := path.map fun p => (p.1, p.2.1)

/-- Each side follows the one before at position `p`, covers the next ones of the sentences and is the empty interval
at the boundary if these are none; all sentences are covered. -/
def CoversFrom : ℤ → List AlignSide → List (ℤ × ℤ) → Prop
  | _, [], regions => regions = []
  | p, side :: sides, regions => ∃ group rest e, regions = group ++ rest ∧ side.step = group.length ∧
      side.wf = some p ∧ side.wl = some e ∧ Tiles p group (e + 1) ∧ CoversFrom (e + 1) sides rest

/-- The lines tile the corpora on both sides. -/
def AlignTask.Tiled (t : AlignTask) (lines : List PrintedLine) : Prop :=
  CoversFrom 0 (lines.map PrintedLine.source) t.s1.regions ∧ CoversFrom 0 (lines.map PrintedLine.target) t.s2.regions

/-- The last step of a path is neither 1:0 nor 0:1. -/
def LastStepAdvances (points : List (ℤ × ℤ)) : Prop :=
  ∀ init p c, points = init ++ [p, c] → p.1 < c.1 ∧ p.2 < c.2

end CWB
