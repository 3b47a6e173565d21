import CWB.Spec.CorpusList

/-! The vectors of a query result as `struct CorpusList` keeps them, each of its own, and
the operations of `cqp/ranges.c` and `cqp/parse_actions.c` that move, sort, read and print
them. Nothing here makes the vectors fit together: that is proved. -/

namespace CWB

structure QueryResult where
  type : CorpusType := .sub
  range : List (ℤ × ℤ) := []
  targets : Option (List ℤ) := none
  keywords : Option (List ℤ) := none
  sortidx : Option (List ℕ) := none
deriving Repr, DecidableEq

/-- The columns that `do_dump` prints for a line. -/
def Match.row (m : Match) : ℤ × ℤ × ℤ × ℤ := (m.start, m.stop, m.target, m.keyword)

namespace QueryResult

def size (c : QueryResult) : ℕ := c.range.length

def rangeAt (c : QueryResult) (j : ℕ) : ℤ × ℤ := c.range.getD j (0, 0)

/-- `(cl->targets) ? cl->targets[j] : -1`. -/
def targetAt (c : QueryResult) (j : ℕ) : ℤ := (c.targets.map (·.getD j 0)).getD (-1)

def keywordAt (c : QueryResult) (j : ℕ) : ℤ := (c.keywords.map (·.getD j 0)).getD (-1)

/-- `(cl->sortidx) ? cl->sortidx[i] : i`. -/
def realLine (c : QueryResult) (i : ℕ) : ℕ := (c.sortidx.map (·.getD i 0)).getD i

/-- The entry of all three vectors at `j`. -/
def line (c : QueryResult) (j : ℕ) : Match :=
  ⟨(c.rangeAt j).1, (c.rangeAt j).2, c.targetAt j, c.keywordAt j⟩

def lines (c : QueryResult) : List Match := (List.range c.size).map c.line

/-- The ranges in the order in which they are shown. -/
def listing (c : QueryResult) : List (ℤ × ℤ) :=
  (List.range c.size).map fun i => c.rangeAt (c.realLine i)

/-- `do_dump`: one row for each line from `first` to `last`. -/
def doDump (c : QueryResult) (first last : ℤ) : List (ℤ × ℤ × ℤ × ℤ) :=
  let f := if first ≥ 0 then first else 0
  let l := if last < c.size then last else (c.size : ℤ) - 1
  (List.range (l + 1 - f).toNat).map fun k => (c.line (c.realLine (f.toNat + k))).row

/-- `_RS_compare_ranges` on the range vector. -/
def rsCompareRanges (c : QueryResult) (a b : ℕ) : ℤ :=
  CWB.rsCompareRanges ⟨(c.rangeAt a).1, (c.rangeAt a).2, -1, -1⟩ ⟨(c.rangeAt b).1, (c.rangeAt b).2, -1, -1⟩

/-- `qsort` of an index vector that starts as `0, 1, ..`. -/
def qsortIndex (n : ℕ) (compare : ℕ → ℕ → ℤ) : List ℕ :=
  (List.range n).mergeSort fun a b => compare a b ≤ 0

/-- `RangeSort`: all vectors follow the sorted index, `new_sortidx[index[i]] = i` undoes it. -/
def rangeSort (c : QueryResult) (mkSortidx : Bool) : QueryResult :=
  match c.type with
  | .system => c
  | .sub | .temp =>
    let index := qsortIndex c.size c.rsCompareRanges
    { c with
      range := index.map c.rangeAt
      targets := c.targets.map fun v => index.map (v.getD · 0)
      keywords := c.keywords.map fun v => index.map (v.getD · 0)
      sortidx := if mkSortidx then some ((List.range c.size).map index.idxOf) else none }

end QueryResult

/-! The random generator of `cl/macros.c`. -/

structure RngState where
  i1 : UInt32 := 1234
  i2 : UInt32 := 5678
deriving Repr, DecidableEq

def clSetRngState (i1 i2 : UInt32) : RngState :=
  { i1 := if i1 ≠ 0 then i1 else 1
    i2 := if i2 ≠ 0 then i2 else 1 }

def clRandom (s : RngState) : UInt32 × RngState :=
  let i1 : UInt32 := (36969 : UInt32) * (s.i1 &&& (0xffff : UInt32)) + (s.i1 >>> 16)
  let i2 : UInt32 := (18000 : UInt32) * (s.i2 &&& (0xffff : UInt32)) + (s.i2 >>> 16)
  ((i1 <<< 16) ^^^ (i2 &&& (0xffff : UInt32)), ⟨i1, i2⟩)

/-- The loop that fills `random_sort_keys`. With a seed the generator is set anew for each
range, without one it runs on. -/
def randomSortKeys (seed : ℤ) : List (ℤ × ℤ) → RngState → List UInt32 × RngState
  | [], rng => ([], rng)
  | (start, stop) :: rest, rng =>
    let (key, rng) :=
      if seed ≠ 0 then
        let rng := clSetRngState (UInt32.ofInt start + UInt32.ofInt seed)
          ((UInt32.ofInt seed * (UInt32.ofInt stop - UInt32.ofInt start)) ^^^ UInt32.ofInt stop)
        clRandom (clRandom (clRandom rng).2).2
      else clRandom rng
    let (keys, rng) := randomSortKeys seed rest rng
    (key :: keys, rng)

section Spaceship

variable {α : Type} [LT α] [DecidableLT α]

/-- The macro `spaceship(A,B)`. -/
def spaceship (a b : α) : ℤ := if a > b then 1 else if a < b then -1 else 0

/-- `-spaceship(A,B)`: the macro has no outer parentheses, so the minus sign applies to the
condition `(A) > (B)` of its conditional expression alone. -/
def minusSpaceship (a b : α) : ℤ :=
  if (-(if a > b then 1 else 0) : ℤ) ≠ 0 then 1 else if a < b then -1 else 0

end Spaceship

namespace QueryResult

def randomCompare (c : QueryResult) (keys : List UInt32) (idx1 idx2 : ℕ) : ℤ :=
  let result := spaceship (keys.getD idx1 0) (keys.getD idx2 0)
  let result := if result = 0 then spaceship (c.rangeAt idx1).1 (c.rangeAt idx2).1 else result
  if result = 0 then minusSpaceship (c.rangeAt idx1).2 (c.rangeAt idx2).2 else result

/-- `SortSubcorpusRandomize`, not interrupted by the user. -/
def sortSubcorpusRandomize (c : QueryResult) (seed : ℤ) (rng : RngState) : QueryResult × RngState :=
  if c.size = 0 then (c, rng)
  else
    let filled := randomSortKeys seed c.range rng
    ({ c with sortidx := some (qsortIndex c.size (c.randomCompare filled.1)) }, filled.2)

end QueryResult

/-! `do_undump` of `cqp/parse_actions.c`: a table of corpus positions is read, checked and
sorted into a query result. A line is the list of its fields; `sscanf` sees for each field
whether it is an integer. -/

inductive UndumpField where
  | int (n : ℤ)
  | word (s : String)
deriving Repr, DecidableEq

/-- The integers that `%d %d ..` with `n` conversions reads from a line. -/
def scanInts : ℕ → List UndumpField → List ℤ
  | n + 1, .int z :: rest => z :: scanInts n rest
  | _, _ => []

/-- The value of `sscanf(line, "%d %s", &size, junk)`. -/
def scanHeader (line : List UndumpField) : ℕ :=
  match line with
  | [.int _] => 1
  | .int _ :: _ => 2
  | _ => 0

/-- The value of `sscanf(line, "%d %d %d %d %s", ..)`. -/
def scanRow (line : List UndumpField) : ℕ :=
  if (scanInts 4 line).length = 4 ∧ line.length > 4 then 5 else (scanInts 4 line).length

inductive UndumpError where
  | header
  | format (row : ℕ)
  | order (start stop : ℤ) (row : ℕ)
  | range (start stop maxCpos : ℤ) (row : ℕ)
  | overlap (start : ℤ) (row : ℕ) (mark : ℤ)
  | target (cpos maxCpos : ℤ) (row : ℕ)
  | keyword (cpos maxCpos : ℤ) (row : ℕ)
deriving Repr, DecidableEq

/-- What an undump is given: the size of the corpus, the number of extension fields (the
parser passes at most two), whether ranges are to be sorted, and the stream. -/
structure Undump where
  motherSize : ℕ
  extensionFields : Fin 3
  sortRanges : Bool := true
  stdin : Bool := false
  lines : List (List UndumpField)

namespace Undump

variable (u : Undump)

def maxCpos : ℤ := u.motherSize - 1

/-- The checks of one row, the messages of those that fail. -/
def rowErrors (mark : ℤ) (row : ℕ) (m : Match) : List UndumpError :=
  (if m.stop < m.start then [.order m.start m.stop row]
    else if m.start < 0 ∨ m.stop > u.maxCpos then [.range m.start m.stop u.maxCpos row]
    else if !u.sortRanges ∧ m.start ≤ mark then [.overlap m.start row mark]
    else []) ++
  (if u.extensionFields.val ≥ 1 ∧ (m.target < -1 ∨ m.target > u.maxCpos) then [.target m.target u.maxCpos row]
    else []) ++
  (if u.extensionFields.val ≥ 2 ∧ (m.keyword < -1 ∨ m.keyword > u.maxCpos) then
      [.keyword m.keyword u.maxCpos row]
    else [])

/-- The loop over the rows; `mark` is the end of the row before, `i` the number of rows
read. Fields that are not there are not read later either. -/
def readRows : ℕ → ℕ → ℤ → List (List UndumpField) → Except (List UndumpError) (List Match)
  | 0, _, _, _ => .ok []
  | _ + 1, i, _, [] => .error [.format (i + 1)]
  | size + 1, i, mark, line :: rest =>
    if scanRow line ≠ 2 + u.extensionFields.val then .error [.format (i + 1)]
    else
      let z := scanInts 4 line
      let m : Match := ⟨z.getD 0 0, z.getD 1 0, z.getD 2 (-1), z.getD 3 (-1)⟩
      match u.rowErrors mark (i + 1) m with
      | [] => (readRows size (i + 1) m.stop rest).map (m :: ·)
      | errors => .error errors

/-- The number of rows and the lines to read them from: either the first line says how many,
or, if the stream can be opened again, all its lines are rows. A negative number fails in
`cl_malloc`. -/
def tableSize : Option (ℕ × List (List UndumpField)) :=
  match u.lines with
  | [] => none
  | line :: rest =>
    if scanHeader line = 1 then
      match scanInts 1 line with
      | [.ofNat size] => some (size, rest)
      | _ => none
    else if (scanInts 2 line).length = 2 ∧ !u.stdin then some (u.lines.length, u.lines)
    else none

/-- The vectors that the loop fills. -/
def filled (rows : List Match) : QueryResult :=
  { type := .temp
    range := rows.map Match.pair
    targets := if u.extensionFields.val ≥ 1 then some (rows.map Match.target) else none
    keywords := if u.extensionFields.val ≥ 2 then some (rows.map Match.keyword) else none }

/-- `do_undump` up to the assignment of the result to its name. -/
def doUndump : Except (List UndumpError) QueryResult :=
  match u.tableSize with
  | none => .error [.header]
  | some (size, lines) =>
    (u.readRows size 0 (-1) lines).map fun rows =>
      let new := u.filled rows
      { (if u.sortRanges then new.rangeSort true else new) with type := .sub }

end Undump

end CWB
