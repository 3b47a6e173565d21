import CWB.Library.Intervals
import CWB.Spec.ClAccess
import CWB.Spec.Query

/-! The query types of CQP on a query corpus: beside `do_StandardQuery` the evaluation of MU
and TAB queries in `cqp/eval.c`. Interruptions by the user are left out. Of a TAB query the
list pointers are kept as what is left of the lists. -/

namespace CWB

/-- `CDA_EPOSORNG` -/
def cdaEposorng : ℤ := -4

/-- `cl_cpos_offset`: a position plus an offset, clamped to the corpus or refused outside it. -/
def clCposOffset (cpos offset corpusSize : ℤ) (clamp : Bool) : ℤ :=
  if offset > 0 then
    if corpusSize - cpos ≤ offset then if clamp then corpusSize - 1 else cdaEposorng
    else cpos + offset
  else if offset < 0 then
    if corpusSize + offset < 0 then if clamp then 0 else cdaEposorng
    else cpos + offset
  else cpos

/-- The loop of `mark_offrange_cells` on a list with end positions: the cells, and how many
of them were marked. -/
def offrangeMatchesLoop : List Match → List Match → List Match × ℕ
  | [], _ => ([], 0)
  | m :: cells, [] =>
    let (out, del) := offrangeMatchesLoop cells []
    ({ m with start := -1, stop := -1 } :: out, del + 1)
  | m :: cells, r :: range =>
    if m.start < r.start then
      let (out, del) := offrangeMatchesLoop cells (r :: range)
      ({ m with start := -1, stop := -1 } :: out, del + 1)
    else if m.start > r.stop then offrangeMatchesLoop (m :: cells) range
    else
      let (out, del) := offrangeMatchesLoop cells (r :: range)
      (m :: out, del)
termination_by cells range => cells.length + range.length

/-- `mark_offrange_cells`; nothing to do if the query corpus is the whole corpus. -/
def markOffrangeMatches (motherSize : ℕ) (range : List Match) (cells : List Match) : List Match × ℕ :=
  match range with
  | [r] => if r.start = 0 ∧ r.stop = motherSize - 1 then (cells, 0) else offrangeMatchesLoop cells [r]
  | range => offrangeMatchesLoop cells range

/-- The window of a `meet`: the region of an attribute, or offsets to the left and right. -/
inductive MeetContext (A : Type) where
  | word (lw rw : ℤ)
  | structure (struc : A)

/-- The tree of an MU query. -/
inductive MuTree (A : Type) where
  | leaf (patindex : ℕ)
  | meet (left right : MuTree A) (context : MeetContext A)
  | union (left right : MuTree A)

/-- A column of a TAB query behind the first, with its distance from the column before.
No greatest distance stands for `repeat_inf`. -/
structure TabColumn where
  patindex : ℕ
  minDist : ℕ
  maxDist : Option ℕ

/-- The loop of `meet_mu`: the cells of the first list with a cell of the second in their window. -/
def meetLoop (window : ℤ → Option (ℤ × ℤ)) : List ℤ → List ℤ → List ℤ
  | a :: as, b :: bs =>
    match window a with
    | none => meetLoop window as (b :: bs)
    | some (start, stop) =>
      if stop < b then meetLoop window as (b :: bs)
      else
        let bs := (b :: bs).dropWhile (· < start)
        if bs.head?.any (· ≤ stop) then a :: meetLoop window as bs else meetLoop window as bs
  | _, _ => []

section

variable {window : ℤ → Option (ℤ × ℤ)} {a b : ℤ} {as bs : List ℤ}

theorem meetLoop_nil : meetLoop window [] bs = [] := rfl

theorem meetLoop_nil_right : meetLoop window as [] = [] := by
  cases as <;> rfl

theorem meetLoop_cons : meetLoop window (a :: as) (b :: bs) =
    match window a with
    | none => meetLoop window as (b :: bs)
    | some (start, stop) =>
      if stop < b then meetLoop window as (b :: bs)
      else if ((b :: bs).dropWhile (· < start)).head?.any (· ≤ stop) then
        a :: meetLoop window as ((b :: bs).dropWhile (· < start))
      else meetLoop window as ((b :: bs).dropWhile (· < start)) :=
  rfl

end

variable {C A R : Type}

namespace EvalEnv

variable (env : EvalEnv C A R)

/-- The window of a cell. A minimum distance that leads out of the corpus has none. -/
def meetWindow (context : MeetContext A) (cpos : ℤ) : Option (ℤ × ℤ) :=
  match context with
  | .structure struc => (env.corpus.cpos2struc struc cpos).map (env.corpus.struc2cpos struc)
  | .word lw rw =>
    let start := clCposOffset cpos lw env.corpus.size (lw ≤ 0)
    let stop := clCposOffset cpos rw env.corpus.size (rw ≥ 0)
    if start < 0 ∨ stop < 0 then none else some (start, stop)

/-- The initial match list of a pattern. The constraint of `[]` reads as NULL, for which the
list is empty. -/
def patternMatchlist (patindex : ℕ) : Option (List ℤ) :=
  match env.patternlist patindex with
  | .pattern _ constraint _ _ => env.corpus.calculateInitialMatchlist constraint env.queryCorpus
  | .matchAll .. | .tag .. | .anchor .. => some []

/-- `eval_mu_tree`; `none` for failure. -/
def evalMuTree : MuTree A → Option (List ℤ)
  | .leaf patindex => env.patternMatchlist patindex
  | .meet left right context => do
    let ml ← evalMuTree left
    let arg2 ← evalMuTree right
    some (meetLoop (env.meetWindow context) ml arg2)
  | .union left right => do
    let ml ← evalMuTree left
    let arg2 ← evalMuTree right
    some (setopUnion (.ofStarts ml) (.ofStarts arg2)).starts

/-- `cqp_run_mu_query`: each cell is a match of one token. -/
def cqpRunMuQuery (tree : MuTree A) (keepOldRanges : Bool) (cutValue : ℤ) : CorpusList :=
  let matchlist : Matchlist := .ofStarts ((env.evalMuTree tree).getD [])
  let marked := { matchlist with tab := (markOffrangeMatches env.corpus.size env.queryCorpus.range matchlist.tab).1 }
  let reduced := setopReduce marked
  let cut := if cutValue > 0 then { reduced with tab := reduced.tab.take cutValue.toNat } else reduced
  setCorpusMatchlists env.queryCorpus
    { cut with tab := cut.tab.map fun m => { m with stop := m.start }, ends := true } keepOldRanges

/-- The positions that a column accepts behind `thisPos`. -/
def tabWindow (hardBoundary boundary : ℤ) (col : TabColumn) (thisPos : ℤ) : Option (ℤ × ℤ) :=
  let lPos := clCposOffset thisPos col.minDist (boundary + 1) false
  if lPos < 0 then none
  else
    let maxDist : ℤ := match col.maxDist with
      | none => hardBoundary
      | some d => d
    some (lPos, clCposOffset thisPos maxDist (boundary + 1) true)

/-- The loop of `cqp_run_tab_query` over the columns behind the first: the position in the last
column if there is a match, and what is left of the lists. -/
def tabColumns (hardBoundary boundary : ℤ) :
    ℤ → List (TabColumn × List ℤ) → Option ℤ × List (TabColumn × List ℤ)
  | thisPos, [] => (some thisPos, [])
  | thisPos, (col, list) :: cols =>
    match tabWindow hardBoundary boundary col thisPos with
    | none => (none, (col, list) :: cols)
    | some (lPos, rPos) =>
      match list.dropWhile (· < lPos) with
      | [] => (none, (col, []) :: cols)
      | nextPos :: rest =>
        if nextPos > rPos then (none, (col, nextPos :: rest) :: cols)
        else
          let (stop, left) := tabColumns hardBoundary boundary nextPos cols
          (stop, (col, nextPos :: rest) :: left)

/-- The loop over the first column. `last` is the end of the last match found; a match that
does not go beyond it is nested. -/
def tabLoop (hardBoundary : ℤ) : List ℤ → List (TabColumn × List ℤ) → Option ℤ → List Match
  | [], _, _ => []
  | start :: starts, cols, last =>
    let boundary := env.calculateRightboundary start
    if boundary < 0 then tabLoop hardBoundary starts cols last
    else match tabColumns hardBoundary boundary start cols with
      | (none, cols) => tabLoop hardBoundary starts cols last
      | (some stop, cols) =>
        if last.all (stop > ·) then { start, stop } :: tabLoop hardBoundary starts cols (some stop)
        else tabLoop hardBoundary starts cols last

def isPattern (patindex : ℕ) : Bool :=
  match env.patternlist patindex with
  | .pattern .. => true
  | .matchAll .. | .tag .. | .anchor .. => false

/-- The match lists of all columns; `none` if a column is no token pattern. A lookup that fails
leaves its list empty. -/
def tabLists (first : ℕ) (cols : List TabColumn) : Option (List ℤ × List (TabColumn × List ℤ)) :=
  if (first :: cols.map TabColumn.patindex).all env.isPattern then
    some ((env.patternMatchlist first).getD [],
      cols.map fun col => (col, (env.patternMatchlist col.patindex).getD []))
  else none

/-- `cqp_run_tab_query` -/
def cqpRunTabQuery (hardBoundary : ℤ) (first : ℕ) (cols : List TabColumn) : CorpusList :=
  match env.tabLists first cols with
  | none => setCorpusMatchlists env.queryCorpus {} false
  | some (starts, lists) =>
    if starts = [] ∨ [] ∈ lists.map Prod.snd then setCorpusMatchlists env.queryCorpus {} false
    else match env.tabLoop hardBoundary starts lists none with
      | [] => setCorpusMatchlists env.queryCorpus {} false
      | tab =>
        let (cells, del) := markOffrangeMatches env.corpus.size env.queryCorpus.range tab
        let result : Matchlist := { tab := cells, ends := true }
        setCorpusMatchlists env.queryCorpus (if del > 0 then setopReduce result else result) false

end EvalEnv

/-- A query. The automaton of a standard query and its matching strategy are part of the
environment, like the patterns of the other two. -/
inductive CqpQuery (A : Type) where
  | standard (cut : ℤ) (keepFlag : Bool)
  | mu (tree : MuTree A) (keepFlag : Bool) (cut : ℤ)
  | tab (first : ℕ) (cols : List TabColumn)

/-- The result of a query with the settings `HardCut` and `HardBoundary`. -/
def EvalEnv.runQuery (env : EvalEnv C A R) (hardCut hardBoundary : ℤ) (fuel : ℕ) : CqpQuery A → Option CorpusList
  | .standard cut keepFlag => env.doStandardQuery hardCut cut keepFlag fuel
  | .mu tree keepFlag cut => some (env.cqpRunMuQuery tree keepFlag cut)
  | .tab first cols => some (env.cqpRunTabQuery hardBoundary first cols)

end CWB

/-! TAB queries with the room that `cqp_run_tab_query` allocates for the result, and the greedy choice
of the items of a match that they are to make. -/

namespace CWB

variable {C A R : Type}

/-- `max_res`: the size of the smallest list. -/
def maxRes (starts : List ℤ) (lists : List (TabColumn × List ℤ)) : ℕ :=
  lists.foldl (fun size c => min size c.2.length) starts.length

namespace EvalEnv

variable (env : EvalEnv C A R)

/-- The loop of `cqp_run_tab_query` over the first column with the result so far; `none` if the assertion
`n_res < max_res` fails. -/
def tabResults (hardBoundary : ℤ) (maxRes : ℕ) :
    List ℤ → List (TabColumn × List ℤ) → List Match → Option (List Match)
  | [], _, result => some result
  | start :: starts, cols, result =>
    let boundary := env.calculateRightboundary start
    if boundary < 0 then tabResults hardBoundary maxRes starts cols result
    else match tabColumns hardBoundary boundary start cols with
      | (none, cols) => tabResults hardBoundary maxRes starts cols result
      | (some stop, cols) =>
        if result.getLast?.all (stop > ·.stop) then
          if result.length < maxRes then tabResults hardBoundary maxRes starts cols (result ++ [{ start, stop }]) else none
        else tabResults hardBoundary maxRes starts cols result

/-- `cqp_run_tab_query`, `none` if its assertion fails. -/
def cqpRunTabQueryAssert (hardBoundary : ℤ) (first : ℕ) (cols : List TabColumn) : Option CorpusList :=
  match env.tabLists first cols with
  | none => some (setCorpusMatchlists env.queryCorpus {} false)
  | some (starts, lists) =>
    if maxRes starts lists = 0 then some (setCorpusMatchlists env.queryCorpus {} false)
    else match env.tabResults hardBoundary (maxRes starts lists) starts lists [] with
      | none => none
      | some [] => some (setCorpusMatchlists env.queryCorpus {} false)
      | some tab =>
        let (cells, del) := markOffrangeMatches env.corpus.size env.queryCorpus.range tab
        let result : Matchlist := { tab := cells, ends := true }
        some (setCorpusMatchlists env.queryCorpus (if del > 0 then setopReduce result else result) false)

end EvalEnv

/-! What a TAB query is to return. -/

/-- The greedy choice from `p` on: in each column the first item at the least distance or further, if it lies
inside the boundary and not beyond the greatest distance, where there is one. -/
def greedyEnd (greatest : TabColumn → Option ℤ) (boundary : ℤ) : ℤ → List (TabColumn × List ℤ) → Option ℤ
  | p, [] => some p
  | p, (col, list) :: cols =>
    match list.find? (p + col.minDist ≤ ·) with
    | none => none
    | some x =>
      if (greatest col).all (x ≤ p + ·) && x ≤ boundary then greedyEnd greatest boundary x cols else none

/-- An unlimited distance ends at `HardBoundary`. -/
def TabColumn.reach (hardBoundary : ℤ) (col : TabColumn) : Option ℤ := some ((col.maxDist.map Int.ofNat).getD hardBoundary)

/-- The greedy choice from a start inside its right boundary. -/
def EvalEnv.greedyMatch (env : EvalEnv C A R) (greatest : TabColumn → Option ℤ) (lists : List (TabColumn × List ℤ))
    (p : ℤ) : Option ℤ :=
  if env.calculateRightboundary p < 0 then none else greedyEnd greatest (env.calculateRightboundary p) p lists

end CWB

/-! `meet_mu` of `cqp/eval.c` with its two lists as arrays, the first of them filtered in place, and
`cl_cpos_offset` of `cl/macros.c` with the range of an `int`. A read or write outside of an array,
an assertion that fails and an overflow are `none`. -/

namespace CWB

/-- The result of an `int` computation. -/
def intResult (n : ℤ) : Option ℤ := if -2 ^ 31 ≤ n ∧ n < 2 ^ 31 then some n else none

/-- `cl_cpos_offset`, every intermediate result with its range. -/
def clCposOffsetInt (cpos offset corpusSize : ℤ) (clamp : Bool) : Option ℤ :=
  if offset > 0 then do
    let rest ← intResult (corpusSize - cpos)
    if rest ≤ offset then
      if clamp then intResult (corpusSize - 1) else some cdaEposorng
    else intResult (cpos + offset)
  else if offset < 0 then do
    let rest ← intResult (corpusSize + offset)
    if rest < 0 then some (if clamp then 0 else cdaEposorng)
    else intResult (cpos + offset)
  else some cpos

/-- The window of a cell of the first list, over the corpus or over the regions of an attribute. -/
def meetMuWindow (corpusSize : ℤ) : MeetContext Cqi.StrucAttribute → ℤ → Option (Option (ℤ × ℤ))
  | .structure struc, cpos =>
    match Cqi.clCpos2struc2cpos (.struc struc) cpos with
    | (some region, .ok) => some (some region)
    | _ => some none
  | .word lw rw, cpos => do
    let start ← clCposOffsetInt cpos lw corpusSize (lw ≤ 0)
    let stop ← clCposOffsetInt cpos rw corpusSize (rw ≥ 0)
    some (if start < 0 ∨ stop < 0 then none else some (start, stop))

/-- The array of the first list, the indices in the two lists and the insertion point. -/
structure MeetState where
  start : List ℤ
  i : ℕ
  j : ℕ
  k : ℕ
deriving Repr, DecidableEq

/-- Skips items of the second list before the window, with the items that are left. -/
def skipItems (list2 : List ℤ) (start : ℤ) : ℕ → ℕ → Option ℕ
  | 0, j => some j
  | rest + 1, j => do
    let b ← list2[j]?
    if b < start then skipItems list2 start rest (j + 1) else some j

/-- `list1->start[k] = list1->start[i]` -/
def upcopy (s : MeetState) : Option MeetState := do
  let a ← s.start[s.i]?
  if s.k < s.start.length then some { s with start := s.start.set s.k a, i := s.i + 1, k := s.k + 1 } else none

/-- The cell at `i` with its window. -/
def meetInside (list2 : List ℤ) (start stop : ℤ) (s : MeetState) : Option MeetState := do
  let b ← list2[s.j]?
  if stop < b then some { s with i := s.i + 1 }
  else do
    let j ← skipItems list2 start (list2.length - s.j) s.j
    if j < list2.length then do
      let b ← list2[j]?
      if b ≤ stop then
        if start ≤ b then upcopy { s with j := j } else none
      else some { s with i := s.i + 1, j := j }
    else some { s with i := s.i + 1, j := j }

/-- One round of the loop of `meet_mu`, up to the assertion at its end. -/
def meetRound (window : ℤ → Option (Option (ℤ × ℤ))) (list2 : List ℤ) (s : MeetState) : Option MeetState := do
  let a ← s.start[s.i]?
  let bounds ← window a
  match bounds with
  | none => some { s with i := s.i + 1 }
  | some (start, stop) => do
    let s ← meetInside list2 start stop s
    if s.k ≤ s.start.length ∧ s.k ≤ s.i then some s else none

/-- The loop, with the cells of the first list that are left. -/
def meetRounds (window : ℤ → Option (Option (ℤ × ℤ))) (list2 : List ℤ) : ℕ → MeetState → Option MeetState
  | 0, s => some s
  | rest + 1, s =>
    if s.j < list2.length then do
      let s ← meetRound window list2 s
      meetRounds window list2 rest s
    else some s

/-- `meet_mu`: the first list afterwards. -/
def meetMu (corpusSize : ℤ) (list1 list2 : List ℤ) (context : MeetContext Cqi.StrucAttribute) : Option (List ℤ) :=
  if list1 = [] ∨ list2 = [] then some []
  else do
    let s ← meetRounds (meetMuWindow corpusSize context) list2 list1.length { start := list1, i := 0, j := 0, k := 0 }
    some (s.start.take s.k)

end CWB
