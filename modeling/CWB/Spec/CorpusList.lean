import Mathlib.Data.List.Sort

/-! The query result of `cqp/corpmanag.h` and the operations of `cqp/ranges.c`
that sort, merge and filter its ranges. C keeps ranges, targets and keywords in
parallel vectors of one length; here a line of the three vectors is one `Match`,
and a flag says whether the target or keyword vector is allocated. -/

namespace CWB

/-- One matching range (`end` is a Lean keyword, hence `stop`) with its anchors. -/
structure Match where
  start : ℤ
  stop : ℤ
  target : ℤ := -1
  keyword : ℤ := -1
deriving Repr, DecidableEq

def Match.pair (m : Match) : ℤ × ℤ := (m.start, m.stop)

/-- `range[i].start = -1`: the line is marked for deletion by `RReduce`. -/
def Match.mark (m : Match) : Match := { m with start := -1 }

/-- A line that `RReduce` keeps. -/
def Match.kept (m : Match) : Bool := !(m.start < 0 || m.stop < 0)

inductive CorpusType where
  | system | sub | temp
deriving Repr, DecidableEq

structure CorpusList where
  type : CorpusType := .sub
  range : List Match := []
  targets : Bool := false
  keywords : Bool := false
  sortidx : Option (List ℕ) := none
deriving Repr, DecidableEq

def CorpusList.size (c : CorpusList) : ℕ := c.range.length

/-- The ranges alone, without their anchors. -/
def CorpusList.pairs (c : CorpusList) : List (ℤ × ℤ) := c.range.map Match.pair

/-- The order of the ranges in a query result: by start, then by end. -/
def PairLt (p p' : ℤ × ℤ) : Prop := p.1 < p'.1 ∨ (p.1 = p'.1 ∧ p.2 < p'.2)

/-- The range `p` lies inside `p'`. -/
def Inside (p p' : ℤ × ℤ) : Prop := p'.1 ≤ p.1 ∧ p.2 ≤ p'.2

/-- The `qsort` callback: by start, and of two ranges with one start the longer first. -/
def rsCompareRanges (a b : Match) : ℤ :=
  if a.start < b.start then -1
  else if a.start > b.start then 1
  else if a.stop > b.stop then -1
  else if a.stop < b.stop then 1
  else 0

def rsLe (a b : Match) : Bool := rsCompareRanges a b ≤ 0

/-- `RangeSort`. The index vector is sorted, not the ranges, so that the new
sort index can undo the permutation. Ties of `qsort` are kept in input order. -/
def rangeSort (c : CorpusList) (mkSortidx : Bool) : CorpusList :=
  match c.type with
  | .system => c
  | .sub | .temp =>
    let sorted := c.range.zipIdx.mergeSort (fun a b => rsLe a.1 b.1)
    let index := sorted.map Prod.snd
    { c with
      range := sorted.map Prod.fst
      sortidx := if mkSortidx then some ((List.range c.size).map index.idxOf) else none }

/-- `RReduce`: drop the marked lines; a sort index only survives if nothing was dropped. -/
def rReduce (c : CorpusList) : CorpusList :=
  let range := c.range.filter Match.kept
  if range.length ≠ c.size then { c with range := range, sortidx := none } else c

/-- `rs_cp_range`: the copy of a line of `c` into the vectors of a union. -/
def rsCpRange (c : CorpusList) (m : Match) : Match :=
  { m with
    target := if c.targets then m.target else -1
    keyword := if c.keywords then m.keyword else -1 }

/-- The merge loop of `RUnion`; the second list carries the restrictor bits. -/
def unionLoop (cp1 cp2 : Match → Match) : List Match → List (Match × Bool) → List Match
  | [], [] => []
  | a :: as, [] => cp1 a :: unionLoop cp1 cp2 as []
  | [], (b, bit) :: bs =>
    if bit then cp2 b :: unionLoop cp1 cp2 [] bs else unionLoop cp1 cp2 [] bs
  | a :: as, (b, bit) :: bs =>
    if a.start < b.start then cp1 a :: unionLoop cp1 cp2 as ((b, bit) :: bs)
    else if a.start > b.start then
      if bit then cp2 b :: unionLoop cp1 cp2 (a :: as) bs else unionLoop cp1 cp2 (a :: as) bs
    else if a.stop = b.stop then cp1 a :: unionLoop cp1 cp2 as bs
    else if a.stop < b.stop then cp1 a :: unionLoop cp1 cp2 as ((b, bit) :: bs)
    else if bit then cp2 b :: unionLoop cp1 cp2 (a :: as) bs else unionLoop cp1 cp2 (a :: as) bs
termination_by as bs => as.length + bs.length

/-- `RUnion`. The sort index of `corpus1` is left as it is, as in the source. -/
def rUnion (c1 c2 : CorpusList) (restrictor : Option (ℕ → Bool)) : CorpusList :=
  if c2.size = 0 then c1
  else
    let bits := c2.range.zipIdx.map fun p => (p.1, (restrictor.map (· p.2)).getD true)
    { c1 with
      range := unionLoop (rsCpRange c1) (rsCpRange c2) c1.range bits
      targets := c1.targets || c2.targets
      keywords := c1.keywords || c2.keywords }

/-- The marking loop of `RIntersection`, with the tail loop that marks what is
left of `corpus1` when `corpus2` is exhausted. -/
def intersectionLoop : List Match → List Match → List Match
  | [], _ => []
  | a :: as, [] => a.mark :: intersectionLoop as []
  | a :: as, b :: bs =>
    if a.start < b.start then a.mark :: intersectionLoop as (b :: bs)
    else if a.start > b.start then intersectionLoop (a :: as) bs
    else if a.stop = b.stop then a :: intersectionLoop as bs
    else if a.stop < b.stop then a.mark :: intersectionLoop as (b :: bs)
    else intersectionLoop (a :: as) bs
termination_by as bs => as.length + bs.length

def rIntersection (c1 c2 : CorpusList) : CorpusList :=
  rReduce { c1 with range := intersectionLoop c1.range c2.range }

/-- The marking loop of `RDiff`. -/
def diffLoop : List Match → List Match → List Match
  | [], _ => []
  | a :: as, [] => a :: as
  | a :: as, b :: bs =>
    if a.start < b.start then a :: diffLoop as (b :: bs)
    else if a.start > b.start then diffLoop (a :: as) bs
    else if a.stop = b.stop then a.mark :: diffLoop as bs
    else if a.stop < b.stop then a :: diffLoop as (b :: bs)
    else diffLoop (a :: as) bs
termination_by as bs => as.length + bs.length

def rDiff (c1 c2 : CorpusList) : CorpusList :=
  rReduce { c1 with range := diffLoop c1.range c2.range }

/-- The inner loop of `RMinimalMatches` for the line `ri` with original start
`start`: the line itself and what follows it, as marked by the loop. -/
def minimalScan (start : ℤ) (ri : Match) : List Match → Match × List Match
  | [] => (ri, [])
  | rj :: rest =>
    if rj.start ≤ ri.stop then
      if rj.stop ≤ ri.stop then (ri.mark, rj :: rest)
      else
        let (ri', rest') := minimalScan start ri rest
        (ri', (if start = rj.start then rj.mark else rj) :: rest')
    else (ri, rj :: rest)

theorem minimalScan_length (start : ℤ) (ri : Match) (l : List Match) :
    (minimalScan start ri l).2.length = l.length := by
  induction l with
  | nil => rfl
  | cons rj rest ih => unfold minimalScan; split_ifs <;> simp [ih]

def minimalLoop : List Match → List Match
  | [] => []
  | ri :: rest =>
    if ri.start ≠ -1 then
      (minimalScan ri.start ri rest).1 :: minimalLoop (minimalScan ri.start ri rest).2
    else ri :: minimalLoop rest
termination_by l => l.length
decreasing_by all_goals simp [minimalScan_length]

def rMinimalMatches (c : CorpusList) : CorpusList :=
  rReduce { c with range := minimalLoop c.range }

/-- The inner loop of `RMaximalMatches`. Unlike the minimal one it goes on after
its own line is marked, with the start it remembers in `start`. -/
def maximalScan (start : ℤ) (ri : Match) : List Match → Match × List Match
  | [] => (ri, [])
  | rj :: rest =>
    if rj.start ≤ ri.stop then
      if rj.stop ≤ ri.stop then
        let (ri', rest') := maximalScan start ri rest
        (ri', rj.mark :: rest')
      else if start = rj.start then
        let (ri', rest') := maximalScan start ri.mark rest
        (ri', rj :: rest')
      else
        let (ri', rest') := maximalScan start ri rest
        (ri', rj :: rest')
    else (ri, rj :: rest)

theorem maximalScan_length (start : ℤ) (ri : Match) (l : List Match) :
    (maximalScan start ri l).2.length = l.length := by
  induction l generalizing ri with
  | nil => rfl
  | cons rj rest ih => unfold maximalScan; split_ifs <;> simp [ih]

def maximalLoop : List Match → List Match
  | [] => []
  | ri :: rest =>
    if ri.start ≠ -1 then
      (maximalScan ri.start ri rest).1 :: maximalLoop (maximalScan ri.start ri rest).2
    else ri :: maximalLoop rest
termination_by l => l.length
decreasing_by all_goals simp [maximalScan_length]

def rMaximalMatches (c : CorpusList) : CorpusList :=
  rReduce { c with range := maximalLoop c.range }

/-- The scan shared by the remaining filters: mark the lines selected by `del`
as long as `run` holds. -/
def markWhile (run del : Match → Bool) : List Match → List Match
  | [] => []
  | rj :: rest =>
    if run rj then (if del rj then rj.mark else rj) :: markWhile run del rest
    else rj :: rest

theorem markWhile_length (run del : Match → Bool) (l : List Match) :
    (markWhile run del l).length = l.length := by
  induction l with
  | nil => rfl
  | cons rj rest ih => unfold markWhile; split_ifs <;> simp [ih]

/-- The outer loop around `markWhile`: lines already marked are skipped. -/
def markLoop (run del : Match → Match → Bool) : List Match → List Match
  | [] => []
  | ri :: rest =>
    if ri.start ≠ -1 then ri :: markLoop run del (markWhile (run ri) (del ri) rest)
    else ri :: markLoop run del rest
termination_by l => l.length
decreasing_by all_goals simp [markWhile_length]

/-- First pass of `RLeftMaximalMatches`: of the lines with one start keep the first. -/
def sameStartLoop : List Match → List Match :=
  markLoop (fun ri rj => rj.start = ri.start) (fun _ _ => true)

/-- Second pass: of the lines with one end keep the first. -/
def sameEndLoop : List Match → List Match :=
  markLoop (fun ri rj => rj.start ≤ ri.stop) (fun ri rj => rj.stop = ri.stop)

def rLeftMaximalMatches (c : CorpusList) : CorpusList :=
  let c := rReduce { c with range := sameStartLoop c.range }
  rReduce { c with range := sameEndLoop c.range }

def overlapLoop : List Match → List Match :=
  markLoop (fun ri rj => rj.start ≤ ri.stop) (fun _ _ => true)

def rNonOverlapping (c : CorpusList) : CorpusList :=
  rReduce { c with range := overlapLoop c.range }

def uniqLoop : List Match → List Match :=
  markLoop (fun ri rj => ri.start = rj.start ∧ ri.stop = rj.stop) (fun _ _ => true)

def rUniq (c : CorpusList) : CorpusList :=
  rReduce { c with range := uniqLoop c.range }

inductive RangeSetOp where
  | union | intersection | diff
  | maximalMatches | minimalMatches | leftMaximalMatches | nonOverlapping
  | uniq | reduce
deriving Repr, DecidableEq

/-- `RangeSetop`. A NULL second operand is the empty one: only `RUnion` may be
given NULL, and it treats both alike. -/
def rangeSetop (c1 : CorpusList) (operation : RangeSetOp) (c2 : CorpusList)
    (restrictor : Option (ℕ → Bool)) : CorpusList :=
  match operation with
  | .union => rUnion c1 c2 restrictor
  | .intersection => rIntersection c1 c2
  | .diff => rDiff c1 c2
  | .maximalMatches => rMaximalMatches c1
  | .minimalMatches => rMinimalMatches c1
  | .leftMaximalMatches => rLeftMaximalMatches c1
  | .nonOverlapping => rNonOverlapping c1
  | .uniq => rUniq c1
  | .reduce => rReduce c1

/-! The match lists of `cqp/matchlist.c` as `simulate_dfa` uses them: never inverted, NULL
exactly if empty. A flag says whether a vector is allocated, as in a query result. -/

structure Matchlist where
  tab : List Match := []
  ends : Bool := false
  targets : Bool := false
  keywords : Bool := false
deriving Repr, DecidableEq

/-- A list of starts without end positions. -/
def Matchlist.ofStarts (starts : List ℤ) : Matchlist := { tab := starts.map fun s => { start := s, stop := s } }

def Matchlist.starts (ml : Matchlist) : List ℤ := ml.tab.map Match.start

/-- `Setop(Reduce)`: drop the elements marked with start -1, all vectors if none is left. -/
def setopReduce (ml : Matchlist) : Matchlist :=
  match ml.tab.filter fun m => m.start ≠ -1 with
  | [] => {}
  | tab => { ml with tab := tab }

/-- The merge loop of `Setop(Union)`, duplicates being copied once. -/
def setopUnionLoop (ends : Bool) : List Match → List Match → List Match
  | [], [] => []
  | a :: as, [] =>
    if a.start = -1 then setopUnionLoop ends as [] else a :: setopUnionLoop ends as []
  | [], b :: bs =>
    if b.start = -1 then setopUnionLoop ends [] bs else b :: setopUnionLoop ends [] bs
  | a :: as, b :: bs =>
    if a.start = -1 then setopUnionLoop ends as (b :: bs)
    else if b.start = -1 then setopUnionLoop ends (a :: as) bs
    else if a.start < b.start then a :: setopUnionLoop ends as (b :: bs)
    else if a.start > b.start then b :: setopUnionLoop ends (a :: as) bs
    else if !ends || a.stop = b.stop then a :: setopUnionLoop ends as bs
    else if a.stop < b.stop then a :: setopUnionLoop ends as (b :: bs)
    else b :: setopUnionLoop ends (a :: as) bs
termination_by as bs => as.length + bs.length

/-- `Setop(Union)`. A vector survives only if both lists have it. -/
def setopUnion (l1 l2 : Matchlist) : Matchlist :=
  if l2.tab = [] then l1
  else if l1.tab = [] then l2
  else
    { tab := setopUnionLoop (l1.ends && l2.ends) l1.tab l2.tab
      ends := l1.ends && l2.ends
      targets := l1.targets && l2.targets
      keywords := l1.keywords && l2.keywords }

end CWB
