import CWB.Spec.QueryResult
import CWB.Spec.ScanCorpus

/-! `SortSubcorpus` in `cqp/ranges.c` with its callbacks for `qsort`, not interrupted by the user.
A callback gets the addresses of two entries, here with the numbers that stand there. -/

namespace CWB

structure SortClause where
  flags : ℕ
  anchor1 : AnchorField
  offset1 : ℤ
  anchor2 : AnchorField
  offset2 : ℤ
  sortAscending : Bool
  sortReverse : Bool
deriving Repr, DecidableEq

/-- A comparison of the numbers `a` and `b` in the entries at `p` and `q`. -/
abbrev Callback := (p q a b : ℕ) → ℤ

/-- The static variables that the callbacks read. -/
structure SortTables where
  srtAttribute : PAttribute
  /-- `cl_string_qsort_compare` in the character set of the corpus, with its flags and `reverse` -/
  clStringQsortCompare : ℕ → Bool → String → String → ℤ
  srtFlags : ℕ
  srtReverse : Bool
  srtAscending : Bool
  srtStart : ℕ → ℤ
  srtEnd : ℕ → ℤ
  sortIdCache : ℕ → ℤ

/-- The position of an anchor with the offset, which is added as an `int`, moved into the text. -/
def sortPosition (textSize : ℕ) (cl : QueryResult) (anchor : AnchorField) (offset : ℤ) (i : ℕ) : ℤ :=
  let pos := ((match anchor with
    | .matchField => (cl.rangeAt i).1
    | .matchEndField => (cl.rangeAt i).2
    | .keywordField => cl.keywordAt i
    | .targetField => cl.targetAt i) + offset).bmod (2 ^ 32)
  if pos < 0 then 0 else if pos ≥ textSize then textSize - 1 else pos

/-- Is the anchor defined? -/
def QueryResult.hasAnchor (cl : QueryResult) : AnchorField → Bool
  | .keywordField => cl.keywords.isSome
  | .targetField => cl.targets.isSome
  | .matchField | .matchEndField => true

/-- The entries `2*i` and `2*i+1` of the cache. -/
def loadSortCache (attr : PAttribute) (start stop : ℕ → ℤ) (k : ℕ) : ℤ :=
  let i := k / 2
  let len := (stop i - start i).natAbs + 1
  let step := if stop i ≥ start i then 1 else -1
  if k % 2 = 0 then attr.clCpos2id (start i)
  else if len > 1 then attr.clCpos2id (start i + step)
  else 0

/-- The tables that are computed before the sort, `none` for an error. -/
def sortTables (attr : PAttribute) (compare : ℕ → Bool → String → String → ℤ) (cl : QueryResult) (sc : SortClause) :
    Option SortTables :=
  if !cl.hasAnchor sc.anchor1 ∨ !cl.hasAnchor sc.anchor2 then none
  else
    let first := sortPosition attr.ids.length cl sc.anchor1 sc.offset1
    let second := sortPosition attr.ids.length cl sc.anchor2 sc.offset2
    let start := if sc.sortReverse then second else first
    let stop := if sc.sortReverse then first else second
    some
      { srtAttribute := attr
        clStringQsortCompare := compare
        srtFlags := sc.flags
        srtReverse := sc.sortReverse
        srtAscending := sc.sortAscending
        srtStart := start
        srtEnd := stop
        sortIdCache := loadSortCache attr start stop }

namespace SortTables

variable (t : SortTables)

/-- The direction in which the interval of a match is read. -/
def step (i : ℕ) : ℤ := if t.srtEnd i < t.srtStart i then -1 else 1

def len (i : ℕ) : ℕ := (t.srtEnd i - t.srtStart i).natAbs + 1

/-- The ID of the `i`-th token of the interval, the first two from the cache. -/
def idAt (idx i : ℕ) (pos : ℤ) : ℤ :=
  if i = 1 then t.sortIdCache (2 * idx)
  else if i = 2 then t.sortIdCache (2 * idx + 1)
  else t.srtAttribute.clCpos2id pos

/-- The same lexicon IDs always compare equal. -/
def compareIds (compare : String → String → ℤ) (id1 id2 : ℤ) : ℤ :=
  if id1 ≠ id2 then compare (t.srtAttribute.id2str id1.toNat) (t.srtAttribute.id2str id2.toNat) else 0

/-- The loop over the tokens, of which `left` are still to be compared. -/
def compareLoop (compare : String → String → ℤ) (idx1 idx2 : ℕ) : (left i : ℕ) → (pos1 pos2 : ℤ) → ℤ
  | 0, _, _, _ => 0
  | left + 1, i, pos1, pos2 =>
    let comp := t.compareIds compare (t.idAt idx1 i pos1) (t.idAt idx2 i pos2)
    if comp = 0 then compareLoop compare idx1 idx2 left (i + 1) (pos1 + t.step idx1) (pos2 + t.step idx2)
    else comp

/-- One pass: the tokens, then the lengths. -/
def comparePass (flags : ℕ) (idx1 idx2 : ℕ) : ℤ :=
  let compare := t.clStringQsortCompare flags t.srtReverse
  let comp := t.compareLoop compare idx1 idx2 (min (t.len idx1) (t.len idx2)) 1 (t.srtStart idx1) (t.srtStart idx2)
  if comp = 0 then
    if t.len idx1 > t.len idx2 then 1 else if t.len idx1 < t.len idx2 then -1 else 0
  else comp

/-- `i2compare` -/
def i2compare (breakTies : Bool) : Callback := fun p q idx1 idx2 =>
  if idx1 = idx2 then 0
  else
    let comp := t.comparePass t.srtFlags idx1 idx2
    let comp := if comp = 0 ∧ breakTies ∧ t.srtFlags ≠ 0 then t.comparePass 0 idx1 idx2 else comp
    let comp := if comp = 0 ∧ breakTies then if p > q then 1 else -1 else comp
    if t.srtAscending then comp else -comp

/-- The groups of equivalent matches, each with its first place and its size. `rest` begins at the place `i`, and the
current group at `first`. -/
def collectGroups (sortidx : List ℕ) : (i first : ℕ) → (rest : List ℕ) → List (ℕ × ℕ)
  | i, first, [] => [(first, i - first)]
  | i, first, idx :: rest =>
    if t.i2compare false first i (sortidx.getD first 0) idx ≠ 0 then
      (first, i - first) :: collectGroups sortidx (i + 1) i rest
    else collectGroups sortidx (i + 1) first rest

/-- `group2compare` -/
def group2compare (sortidx : List ℕ) (groups : List (ℕ × ℕ)) : Callback := fun _ _ idx1 idx2 =>
  if idx1 = idx2 then 0
  else
    let g1 := groups.getD idx1 (0, 0)
    let g2 := groups.getD idx2 (0, 0)
    if g1.2 > g2.2 then -1
    else if g1.2 < g2.2 then 1
    else t.i2compare false g1.1 g2.1 (sortidx.getD g1.1 0) (sortidx.getD g2.1 0)

end SortTables

/-- What `SortSubcorpus` leaves: in count mode also the groups, and the order in which they are listed. -/
structure SortedSubcorpus where
  sortidx : List ℕ
  groups : List (ℕ × ℕ)
  groupidx : List ℕ
deriving Repr, DecidableEq

/-- `SortSubcorpus` in count mode, with the `qsort` of the C library. -/
def sortSubcorpusCount (qsort : Callback → List ℕ → List ℕ) (t : SortTables) (size : ℕ) : SortedSubcorpus :=
  let sortidx := qsort (t.i2compare true) (List.range size)
  let groups := t.collectGroups sortidx 1 0 sortidx.tail
  { sortidx, groups, groupidx := qsort (t.group2compare sortidx groups) (List.range groups.length) }

end CWB
