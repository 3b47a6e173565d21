import Mathlib.Algebra.Order.Field.Rat
import CWB.Spec.Query
import CWB.Spec.QueryResult

/-! The commands of a CQP session that create or change query results, on the vectors as
they are. What the commands learn from the corpus (matches, constraints, boundaries, sort
keys, random choices) is part of the command. -/

namespace CWB

def Match.ofRange (p : ℤ × ℤ) : Match := ⟨p.1, p.2, -1, -1⟩

namespace QueryResult

/-- What the insertion point of `RReduce` passes in a vector. -/
def compact {α : Type} : List (ℤ × ℤ) → List α → List α
  | p :: ps, x :: xs => if p.1 < 0 ∨ p.2 < 0 then compact ps xs else x :: compact ps xs
  | _, _ => []

/-- `RReduce`. A vector that is reallocated to no bytes is gone. -/
def rReduce (c : QueryResult) : QueryResult :=
  let range := compact c.range c.range
  if range.length ≠ c.size then
    { c with
      range
      targets := if range = [] then none else c.targets.map (compact c.range)
      keywords := if range = [] then none else c.keywords.map (compact c.range)
      sortidx := none }
  else c

/-- A loop that marks ranges for deletion, then `RReduce`. -/
def markReduce (c : QueryResult) (loop : List Match → List Match) : QueryResult :=
  rReduce { c with range := (loop (c.range.map Match.ofRange)).map Match.pair }

/-- `RUnion`; `rs_cp_range` reads the lines of both operands. The sort index of `c1` stays. -/
def rUnion (c1 c2 : QueryResult) (restrictor : Option (ℕ → Bool)) : QueryResult :=
  if c2.size = 0 then c1
  else
    let tmp := unionLoop id id c1.lines (c2.lines.zipIdx.map fun p => (p.1, (restrictor.map (· p.2)).getD true))
    { c1 with
      range := tmp.map Match.pair
      targets := if c1.targets.isSome ∨ c2.targets.isSome then some (tmp.map Match.target) else none
      keywords := if c1.keywords.isSome ∨ c2.keywords.isSome then some (tmp.map Match.keyword) else none }

def rangeSetop (c1 : QueryResult) (operation : RangeSetOp) (c2 : QueryResult)
    (restrictor : Option (ℕ → Bool)) : QueryResult :=
  match operation with
  | .union => c1.rUnion c2 restrictor
  | .intersection => c1.markReduce (intersectionLoop · (c2.range.map Match.ofRange))
  | .diff => c1.markReduce (diffLoop · (c2.range.map Match.ofRange))
  | .maximalMatches => c1.markReduce maximalLoop
  | .minimalMatches => c1.markReduce minimalLoop
  | .leftMaximalMatches => (c1.markReduce sameStartLoop).markReduce sameEndLoop
  | .nonOverlapping => c1.markReduce overlapLoop
  | .uniq => c1.markReduce uniqLoop
  | .reduce => c1.rReduce

inductive DeletionMode where
  | allLines | selectedLines | unselectedLines
deriving Repr, DecidableEq

/-- Mark the lines that satisfy `del`, in both members of the range. -/
def markLines (c : QueryResult) (del : ℕ → Bool) : QueryResult :=
  { c with range := c.range.zipIdx.map fun p => if del p.2 then (-1, -1) else p.1 }

/-- `delete_interval`. -/
def deleteInterval (c : QueryResult) (nr : ℤ) : QueryResult :=
  if c.type = .system ∨ c.size = 0 ∨ nr < 0 ∨ nr ≥ c.size then c
  else rReduce (markLines { c with sortidx := none } fun k => k = nr.toNat)

/-- `delete_intervals`. -/
def deleteIntervals (c : QueryResult) (intervals : ℕ → Bool) (mode : DeletionMode) : QueryResult :=
  if c.type = .system ∨ c.size = 0 then c
  else
    let del : ℕ → Bool := match mode with
      | .allLines => fun _ => true
      | .selectedLines => intervals
      | .unselectedLines => fun k => !intervals k
    let modified := (List.range c.size).countP del
    if modified = 0 then c
    else if modified = c.size then { type := c.type }
    else rReduce (markLines { c with sortidx := none } del)

/-- `make_temp_corpus`: the sort index is not copied. An anchor vector of an empty result
fails an assertion. -/
def makeTempCorpus (c : QueryResult) : Option QueryResult :=
  if (c.targets.isSome ∨ c.keywords.isSome) ∧ c.size = 0 then none
  else some { c with type := .temp, sortidx := none }

/-- `duplicate_corpus` copies every vector, `assign_temp_to_sub` moves them. -/
def toSub (c : QueryResult) : QueryResult := { c with type := .sub }

/-- `set_corpus_matchlists`. -/
def setCorpusMatchlists (c : QueryResult) (ml : Matchlist) (keepOldRanges : Bool) : QueryResult :=
  if keepOldRanges then
    markReduce { c with sortidx := none } (EvalEnv.keepRanges · ml.tab)
  else
    { c with
      range := ml.tab.map Match.pair
      targets := if ml.targets then some (ml.tab.map Match.target) else none
      keywords := if ml.keywords then some (ml.tab.map Match.keyword) else none
      sortidx := none }

/-- `expansion`, with the boundaries it leads to (negative for none). -/
structure Expansion where
  left : Option (ℤ → ℤ) := none
  right : Option (ℤ → ℤ) := none

def Expansion.bound (side : Option (ℤ → ℤ)) (cpos : ℤ) : ℤ :=
  match side with
  | none => cpos
  | some f => if f cpos ≥ 0 then f cpos else cpos

def Expansion.expand (e : Expansion) (p : ℤ × ℤ) : ℤ × ℤ := (bound e.left p.1, bound e.right p.2)

/-- `expand_dataspace`, with the expansion where its size is positive. -/
def expandDataspace (c : QueryResult) (expansion : Option Expansion) : QueryResult :=
  match expansion with
  | none => c
  | some e =>
    if c.type = .system then c
    else rangeSetop { c with range := c.range.map e.expand } .uniq {} none

/-- In the expansion of a name such as `A/s` a range without a region on either side is
left alone. -/
def implicitExpand (left right : ℤ → ℤ) (p : ℤ × ℤ) : ℤ × ℤ :=
  if left p.1 ≥ 0 ∧ right p.2 ≥ 0 then (left p.1, right p.2) else p

/-- The part of `findcorpus` that expands a copy. -/
def implicitExpansion (c : QueryResult) (left right : ℤ → ℤ) : QueryResult :=
  rangeSetop { c with range := c.range.map (implicitExpand left right) } .uniq {} none

/-- `evaluate_subset`, interrupted after the first `processed` lines. -/
def evaluateSubset (c : QueryResult) (field : AnchorField) (holds : ℤ → Bool) (processed : ℕ) : QueryResult :=
  let position : ℕ → ℤ := fun k => match field with
    | .matchField => (c.rangeAt k).1
    | .matchEndField => (c.rangeAt k).2
    | .targetField => c.targetAt k
    | .keywordField => c.keywordAt k
  rReduce (c.markLines fun k => k ≥ processed ∨ position k < 0 ∨ !holds (position k))

/-- `do_translate`: the bead of each range, -1 where it has none. -/
def doTranslate (c : QueryResult) (bead : ℤ → Option (ℤ × ℤ)) : QueryResult :=
  rangeSort (rReduce { type := .temp, range := c.range.map fun p => (bead p.1).getD (-1, 0) }) true

/-- `do_reduce`, with the lines that its random selection takes. -/
def doReduce (c : QueryResult) (number : ℤ) (percent : Bool) (selected : ℕ → Bool) : QueryResult :=
  if c.type ≠ .sub ∨ c.size = 0 then c
  else if percent ∧ (number ≤ 0 ∨ number ≥ 100) then c
  else if !percent ∧ (number ≤ 0 ∨ number ≥ c.size) then c
  else c.deleteIntervals selected .unselectedLines

/-- `do_cut` deletes the lines before `first` and behind `last` in the current order. -/
def doCut (c : QueryResult) (first : ℕ) (last : ℤ) : QueryResult :=
  if c.type ≠ .sub ∨ c.size = 0 then c
  else
    let last := if last ≥ c.size then (c.size : ℤ) - 1 else last
    let first := if first ≥ c.size then c.size else first
    let (first, last) : ℕ × ℤ := if last < first then (c.size, c.size) else (first, last)
    let deleted := ((List.range c.size).filter fun i => decide (i < first) || decide (last < i)).map c.realLine
    rReduce (c.markLines fun k => k ∈ deleted)

/-- `do_delete_lines_num`. A negative line number would be written outside the bit field. -/
def doDeleteLinesNum (c : QueryResult) (start : ℕ) (stop : ℤ) : QueryResult :=
  if c.type ≠ .sub then c
  else c.deleteIntervals (fun k => start ≤ k ∧ (k : ℤ) ≤ stop) .selectedLines

/-- `do_delete_lines` for a target or keyword field. -/
def doDeleteLines (c : QueryResult) (field : AnchorField) (mode : DeletionMode) : QueryResult :=
  if c.type ≠ .sub then c
  else match field with
    | .matchField | .matchEndField => c
    | .targetField => if c.targets.isNone then c else c.deleteIntervals (fun k => c.targetAt k ≥ 0) mode
    | .keywordField => if c.keywords.isNone then c else c.deleteIntervals (fun k => c.keywordAt k ≥ 0) mode

def setStart (p : ℤ × ℤ) (cpos : ℤ) : ℤ × ℤ :=
  let start := if cpos ≥ 0 then cpos else p.1
  (if start > p.2 then p.2 else start, p.2)

def setStop (p : ℤ × ℤ) (cpos : ℤ) : ℤ × ℤ :=
  let stop := if cpos ≥ 0 then cpos else p.2
  (p.1, if stop < p.1 then p.1 else stop)

/-- The table of positions that `set_target` and `evaluate_target` write into a field. -/
def setField (c : QueryResult) (goal : AnchorField) (table : List ℤ) : QueryResult :=
  match goal with
  | .matchField => { c with range := c.range.zipIdx.map fun p => setStart p.1 (table.getD p.2 0) }
  | .matchEndField => { c with range := c.range.zipIdx.map fun p => setStop p.1 (table.getD p.2 0) }
  | .targetField => { c with targets := some table }
  | .keywordField => { c with keywords := some table }

/-- Changed ranges are sorted again, without a sort index. -/
def resort (c : QueryResult) (goal : AnchorField) : QueryResult :=
  match goal with
  | .matchField | .matchEndField => c.rangeSort false
  | .targetField | .keywordField => c

/-- `set_target`; without a source field the target or keyword field is deleted. -/
def setTarget (c : QueryResult) (goal : AnchorField) (source : Option AnchorField) : QueryResult :=
  if source = some goal ∨ c.size = 0 then c
  else match source with
    | none => match goal with
      | .targetField => { c with targets := none }
      | .keywordField => { c with keywords := none }
      | .matchField | .matchEndField => c.resort goal
    | some .matchField => match goal with
      | .matchEndField => resort { c with range := c.range.map fun p => (p.1, p.1) } goal
      | _ => c.setField goal (c.range.map Prod.fst)
    | some .matchEndField => match goal with
      | .matchField => resort { c with range := c.range.map fun p => (p.2, p.2) } goal
      | _ => c.setField goal (c.range.map Prod.snd)
    | some .targetField => match c.targets with
      | none => c.resort goal
      | some table => (c.setField goal table).resort goal
    | some .keywordField => match c.keywords with
      | none => c.resort goal
      | some table => (c.setField goal table).resort goal

/-- `evaluate_target`, with the position found for each line. -/
def evaluateTarget (c : QueryResult) (goal : AnchorField) (found : ℕ → ℤ) : QueryResult :=
  if c.size = 0 then c
  else (c.setField goal ((List.range c.size).map found)).resort goal

end QueryResult

/-- How a `sort` or `count` command ends. -/
inductive SortRun where
  /-- no sort clause: back to corpus order -/
  | reset
  /-- an error before anything is sorted -/
  | failed
  /-- `qsort` with a callback, or an interrupt -/
  | internal (compare : ℕ → ℕ → ℤ) (aborted : Bool)
  /-- the line numbers that the external sort command prints, each line at most once -/
  | external (out : List ℤ) (once : out.Nodup)

namespace QueryResult

/-- `SortSubcorpus`, and `SortExternally` where that option is set. -/
def sortSubcorpus (c : QueryResult) (run : SortRun) : QueryResult :=
  if c.size = 0 then c
  else match run with
    | .reset => { c with sortidx := none }
    | .failed => c
    | .internal compare aborted =>
      { c with sortidx := if aborted then none else some (qsortIndex c.size compare) }
    | .external out _ =>
      let read := (out.take c.size).takeWhile fun num : ℤ => decide (0 ≤ num) && decide (num < c.size)
      { c with sortidx := if read.length = c.size then some (read.map Int.toNat) else none }

/-- The filter of a matching strategy. -/
def applyStrategy (c : QueryResult) (strategy : MatchingStrategy) : QueryResult :=
  match strategy with
  | .shortestMatch => c.rangeSetop .minimalMatches {} none
  | .standardMatch => c.rangeSetop .leftMaximalMatches {} none
  | .longestMatch => c.rangeSetop .maximalMatches {} none
  | .traditional => c

def cutLines (c : QueryResult) (cut : ℤ) : QueryResult :=
  if cut > 0 ∧ c.size > cut then c.deleteIntervals (fun k => k < cut.toNat) .unselectedLines else c

end QueryResult

/-- The commands. A query may be a standard query or one without strategy and cut; `found`
is what its evaluation hands over, if it gets so far. -/
inductive Command where
  | query (corpus result : String) (found : Option Matchlist) (keep : Bool) (strategy : MatchingStrategy)
      (cut : ℤ) (sort : Option SortRun) (expansion : Option QueryResult.Expansion)
  | setop (operation : RangeSetOp) (left right result : String) (expansion : Option QueryResult.Expansion)
  | subset (corpus result : String) (field : AnchorField) (holds : ℤ → Bool) (processed : ℕ)
      (expansion : Option QueryResult.Expansion)
  | expand (corpus result : String) (expansion : QueryResult.Expansion)
  | expandName (corpus result : String) (left right : ℤ → ℤ)
  | translate (corpus result : String) (bead : ℤ → Option (ℤ × ℤ))
  | assign (corpus result : String)
  | undump (result : String) (u : Undump)
  | cut (corpus : String) (first : ℕ) (last : ℤ)
  | reduce (corpus : String) (number : ℤ) (percent : Bool) (selected : ℕ → Bool)
  | reduceMaximal (corpus : String)
  | deleteLines (corpus : String) (field : AnchorField) (mode : QueryResult.DeletionMode)
  | deleteLinesNum (corpus : String) (start : ℕ) (stop : ℤ)
  | deleteInterval (corpus : String) (nr : ℤ)
  | setTarget (corpus : String) (goal : AnchorField) (source : Option AnchorField)
  | setComplexTarget (corpus : String) (goal : AnchorField) (found : ℕ → ℤ)
  | sort (corpus : String) (run : SortRun)
  | randomize (corpus : String) (seed : ℤ)
  | discard (corpus : String)

/-- The named query results (and system corpora) and the random generator. -/
structure Session where
  results : String → Option QueryResult := fun _ => none
  rng : RngState := {}

namespace Session

open QueryResult

def store (s : Session) (name : String) (c : QueryResult) : Session :=
  { s with results := Function.update s.results name (some c) }

/-- Look up a name; the command ends with an error message if there is no such corpus. -/
def lookup (s : Session) (name : String) (f : QueryResult → Option Session) : Option Session :=
  match s.results name with
  | none => some s
  | some c => f c

/-- A command that changes a query result where it is. -/
def modify (s : Session) (name : String) (f : QueryResult → QueryResult) : Option Session :=
  s.lookup name fun c => some (s.store name (f c))

/-- A command that works on a temporary copy and assigns it to a name. -/
def derive (s : Session) (name result : String) (f : QueryResult → QueryResult) : Option Session :=
  s.lookup name fun c => c.makeTempCorpus.map fun tmp => s.store result (f tmp).toSub

def isSystem (s : Session) (name : String) : Bool := s.results name |>.any fun c => c.type = .system

/-- The checks of `prepare_do_subset`. -/
def hasField (s : Session) (name : String) (field : AnchorField) : Bool :=
  s.results name |>.any fun c => decide (c.type = .sub) && decide (c.size > 0) &&
    match field with
    | .matchField | .matchEndField => true
    | .targetField => c.targets.isSome
    | .keywordField => c.keywords.isSome

/-- One command; `none` if an assertion stops the program. -/
def step (s : Session) : Command → Option Session
  | .query corpus result found keep strategy cut sort expansion =>
    s.derive corpus result fun tmp =>
      let tmp := tmp.rangeSetop .nonOverlapping {} none
      let tmp := match found with
        | none => tmp
        | some ml => tmp.setCorpusMatchlists ml keep
      let tmp := (tmp.applyStrategy strategy).cutLines cut
      let tmp := match sort with
        | none => tmp
        | some run => tmp.sortSubcorpus run
      tmp.expandDataspace expansion
  | .setop operation left right result expansion =>
    s.lookup right fun c2 =>
      s.derive left result fun tmp => (tmp.rangeSetop operation c2 none).expandDataspace expansion
  | .subset corpus result field holds processed expansion =>
    -- the anchor must be there; for an empty result the command is said to have no effect
    if !s.hasField corpus field then some s
    else s.derive corpus result fun tmp => (tmp.evaluateSubset field holds processed).expandDataspace expansion
  | .expand corpus result expansion =>
    if s.isSystem corpus then some s
    else s.derive corpus result fun tmp => tmp.expandDataspace (some expansion)
  | .expandName corpus result left right =>
    s.lookup corpus fun c =>
      some (if c.type = .system then s else s.store result (c.toSub.implicitExpansion left right))
  | .translate corpus result bead =>
    s.lookup corpus fun c => some (s.store result (c.doTranslate bead).toSub)
  | .assign corpus result =>
    s.lookup corpus fun c => some (if c.type = .system ∨ corpus = result then s else s.store result c.toSub)
  | .undump result u =>
    match u.doUndump with
    | .error _ => some s
    | .ok c => some (s.store result c)
  | .cut corpus first last => s.modify corpus (·.doCut first last)
  | .reduce corpus number percent selected => s.modify corpus (·.doReduce number percent selected)
  | .reduceMaximal corpus => s.modify corpus (·.rangeSetop .maximalMatches {} none)
  | .deleteLines corpus field mode => s.modify corpus (·.doDeleteLines field mode)
  | .deleteLinesNum corpus start stop => s.modify corpus (·.doDeleteLinesNum start stop)
  | .deleteInterval corpus nr => s.modify corpus (·.deleteInterval nr)
  | .setTarget corpus goal source => s.modify corpus (·.setTarget goal source)
  | .setComplexTarget corpus goal found => s.modify corpus (·.evaluateTarget goal found)
  | .sort corpus run => s.modify corpus (·.sortSubcorpus run)
  | .randomize corpus seed =>
    s.lookup corpus fun c =>
      let sorted := c.sortSubcorpusRandomize seed s.rng
      some { s.store corpus sorted.1 with rng := sorted.2 }
  | .discard corpus => some { s with results := Function.update s.results corpus none }

def run (s : Session) : List Command → Option Session
  | [] => some s
  | cmd :: cmds => (s.step cmd).bind (run · cmds)

end Session

/-! The lines that a command works with: where each anchor belongs. -/

def Matchlist.lines (ml : Matchlist) : List Match :=
  ml.tab.map fun m => ⟨m.start, m.stop, if ml.targets then m.target else -1, if ml.keywords then m.keyword else -1⟩

def Undump.rows (u : Undump) : List Match :=
  match u.tableSize with
  | none => []
  | some (size, lines) => match u.readRows size 0 (-1) lines with
    | .error _ => []
    | .ok rows => rows

namespace Match

def onRange (f : ℤ × ℤ → ℤ × ℤ) (m : Match) : Match := ⟨(f m.pair).1, (f m.pair).2, m.target, m.keyword⟩

def setField (goal : AnchorField) (cpos : ℤ) (m : Match) : Match :=
  match goal with
  | .matchField => m.onRange (QueryResult.setStart · cpos)
  | .matchEndField => m.onRange (QueryResult.setStop · cpos)
  | .targetField => { m with target := cpos }
  | .keywordField => { m with keyword := cpos }

/-- What `set_target` does to a line. -/
def assign (goal : AnchorField) (source : Option AnchorField) (m : Match) : Match :=
  match source, goal with
  | none, .targetField => { m with target := -1 }
  | none, .keywordField => { m with keyword := -1 }
  | none, _ => m
  | some .matchField, .matchEndField => { m with stop := m.start }
  | some .matchField, _ => m.setField goal m.start
  | some .matchEndField, .matchField => { m with start := m.stop }
  | some .matchEndField, _ => m.setField goal m.stop
  | some .targetField, _ => m.setField goal m.target
  | some .keywordField, _ => m.setField goal m.keyword

end Match

/-- The lines that `set_target` leaves: as they were if there is nothing to copy. -/
def QueryResult.assigned (c : QueryResult) (goal : AnchorField) (source : Option AnchorField) : List Match :=
  if source = some goal ∨ (source = some .targetField ∧ c.targets = none) ∨
      (source = some .keywordField ∧ c.keywords = none) then c.lines
  else c.lines.map (Match.assign goal source)

namespace Session

def linesOf (s : Session) (name : String) : List Match := ((s.results name).map QueryResult.lines).getD []

/-- The lines of a result with their expansions. -/
def expanded (expansion : Option QueryResult.Expansion) (ls : List Match) : List Match :=
  match expansion with
  | none => ls
  | some e => ls ++ ls.map (Match.onRange e.expand)

/-- The lines that the command may leave in the result it changes. -/
def given (s : Session) : Command → List Match
  | .query corpus _ found keep _ _ _ expansion =>
    expanded expansion (match found with
      | none => s.linesOf corpus
      | some ml => if keep then s.linesOf corpus else ml.lines)
  | .setop _ left right _ expansion => expanded expansion (s.linesOf left ++ s.linesOf right)
  | .subset corpus _ _ _ _ expansion => expanded expansion (s.linesOf corpus)
  | .expand corpus _ expansion => expanded (some expansion) (s.linesOf corpus)
  | .expandName corpus _ left right => (s.linesOf corpus).map (Match.onRange (QueryResult.implicitExpand left right))
  | .translate corpus _ bead => (s.linesOf corpus).filterMap fun m => (bead m.start).map Match.ofRange
  | .undump _ u => u.rows
  | .setTarget corpus goal source => ((s.results corpus).map (·.assigned goal source)).getD []
  | .setComplexTarget corpus goal found => (s.linesOf corpus).zipIdx.map fun p => p.1.setField goal (found p.2)
  | .assign corpus _ | .cut corpus _ _ | .reduce corpus _ _ _ | .reduceMaximal corpus | .deleteLines corpus _ _
  | .deleteLinesNum corpus _ _ | .deleteInterval corpus _ | .sort corpus _ | .randomize corpus _ | .discard corpus =>
    s.linesOf corpus

end Session

/-! `RUnion` of `RangeSetop` with its three temporary vectors, whose size is computed before the loop
that writes them. A write behind the end of a vector is an error, `none`. -/

/-- `tmp`, `tmp_target` and `tmp_keyword`; the latter may be NULL. -/
structure UnionVectors where
  tmp : List (ℤ × ℤ)
  tmpTarget : Option (List ℤ)
  tmpKeyword : Option (List ℤ)
deriving Repr, DecidableEq

/-- Is `ins` inside all vectors? -/
def UnionVectors.hasRoom (v : UnionVectors) (ins : ℕ) : Bool :=
  ins < v.tmp.length && v.tmpTarget.all (ins < ·.length) && v.tmpKeyword.all (ins < ·.length)

/-- `rs_cp_range`: the line `j` of `corpus` is copied to `ins`. -/
def UnionVectors.rsCpRange (v : UnionVectors) (ins : ℕ) (corpus : QueryResult) (j : ℕ) : Option UnionVectors :=
  if v.hasRoom ins then
    some {
      tmp := v.tmp.set ins (corpus.rangeAt j)
      tmpTarget := v.tmpTarget.map (·.set ins (corpus.targetAt j))
      tmpKeyword := v.tmpKeyword.map (·.set ins (corpus.keywordAt j)) }
  else none

namespace QueryResult

/-- `restrictor == NULL || get_bit(restrictor, j)`. -/
def selects (restrictor : Option (ℕ → Bool)) (j : ℕ) : Bool := (restrictor.map (· j)).getD true

def intervalsToCopy (c2 : QueryResult) (restrictor : Option (ℕ → Bool)) : ℕ :=
  match restrictor with
  | some bits => ((List.range c2.size).filter bits).length
  | none => c2.size

/-- The loop of `RUnion` with the positions `i` and `j` in the operands and the insertion point; the
final insertion point and the vectors. -/
def unionVectorsLoop (c1 c2 : QueryResult) (restrictor : Option (ℕ → Bool)) (i j ins : ℕ) (v : UnionVectors) :
    Option (ℕ × UnionVectors) :=
  if i < c1.size ∨ j < c2.size then
    if j ≥ c2.size ∨ (i < c1.size ∧ (c1.rangeAt i).1 < (c2.rangeAt j).1) then
      (v.rsCpRange ins c1 i).bind (unionVectorsLoop c1 c2 restrictor (i + 1) j (ins + 1))
    else if i ≥ c1.size ∨ (c1.rangeAt i).1 > (c2.rangeAt j).1 then
      if selects restrictor j then
        (v.rsCpRange ins c2 j).bind (unionVectorsLoop c1 c2 restrictor i (j + 1) (ins + 1))
      else unionVectorsLoop c1 c2 restrictor i (j + 1) ins v
    else if (c1.rangeAt i).2 = (c2.rangeAt j).2 then
      (v.rsCpRange ins c1 i).bind (unionVectorsLoop c1 c2 restrictor (i + 1) (j + 1) (ins + 1))
    else if (c1.rangeAt i).2 < (c2.rangeAt j).2 then
      (v.rsCpRange ins c1 i).bind (unionVectorsLoop c1 c2 restrictor (i + 1) j (ins + 1))
    else if selects restrictor j then
      (v.rsCpRange ins c2 j).bind (unionVectorsLoop c1 c2 restrictor i (j + 1) (ins + 1))
    else unionVectorsLoop c1 c2 restrictor i (j + 1) ins v
  else some (ins, v)
termination_by (c1.size - i) + (c2.size - j)

/-- `RUnion`: the vectors are allocated, filled and cut to the insertion point. -/
def rUnionVectors (c1 c2 : QueryResult) (restrictor : Option (ℕ → Bool)) : Option QueryResult :=
  if c2.size = 0 then some c1
  else
    let tmpSize := c1.size + intervalsToCopy c2 restrictor
    let allocate (needed : Bool) : Option (List ℤ) := if needed then some (List.replicate tmpSize 0) else none
    (unionVectorsLoop c1 c2 restrictor 0 0 0 {
      tmp := List.replicate tmpSize (0, 0)
      tmpTarget := allocate (c1.targets.isSome || c2.targets.isSome)
      tmpKeyword := allocate (c1.keywords.isSome || c2.keywords.isSome) }).map fun out =>
      { c1 with
        range := out.2.tmp.take out.1
        targets := out.2.tmpTarget.map (·.take out.1)
        keywords := out.2.tmpKeyword.map (·.take out.1) }

end QueryResult

/-! The random choice of `do_reduce` in `cqp/parse_actions.c`, with the random values that
`cl_random` returns given. A `double` is the rational number that it stands for, and an arithmetic
operation on it the exact one with its result rounded. -/

/-- The rounding of `double` arithmetic, in whatever direction: it keeps the order, and the numbers
that a `double` can hold. -/
structure DoubleRounding where
  round : ℚ → ℚ
  mono : ∀ {x y : ℚ}, x ≤ y → round x ≤ round y
  exact : ∀ (m e : ℕ), m < 2 ^ 53 → e ≤ 1000 → round (m / 2 ^ e) = m / 2 ^ e

/-- The `double` next to 2.328306437080797e-10. -/
def runifFactor : ℚ := 4503599628419071 / 2 ^ 84

/-- `cl_runif`, with the value of `cl_random`. -/
def clRunif (dbl : DoubleRounding) (random : UInt32) : ℚ := dbl.round (random.toNat * runifFactor)

/-- One round: is the line selected, with `size` lines left of which `toSelect` should be? -/
def selectsLine (dbl : DoubleRounding) (random toSelect : UInt32) (size : ℕ) : Bool :=
  clRunif dbl random ≤ dbl.round (toSelect.toNat / size)

/-- `to_select` after the round, an `unsigned int`. -/
def nextToSelect (dbl : DoubleRounding) (random toSelect : UInt32) (size : ℕ) : UInt32 :=
  if selectsLine dbl random toSelect size then toSelect - 1 else toSelect

/-- The loop of `do_reduce`: the lines whose bit is set. For each line the random value is given. -/
def selectLines (dbl : DoubleRounding) (random : ℕ → UInt32) : ℕ → UInt32 → List ℕ
  | 0, _ => []
  | size + 1, toSelect =>
    let rest := selectLines dbl random size (nextToSelect dbl (random size) toSelect (size + 1))
    if selectsLine dbl (random size) toSelect (size + 1) then size :: rest else rest

/-- `cl_set_seed` -/
def clSetSeed (seed : UInt32) : RngState := clSetRngState seed (69069 * seed + 1)

/-- What `cl_random` returns for each of `size` lines, of which the last comes first. -/
def draws (rng : RngState) (size line : ℕ) : UInt32 :=
  (clRandom ((fun s => (clRandom s).2)^[size - 1 - line] rng)).1

namespace QueryResult

/-- The number of lines asked for. The product of `cl->size * number` is an `int`, `none` if it does
not fit. -/
def reduceNumber (c : QueryResult) (number : ℤ) (percent : Bool) : Option ℤ :=
  if percent then if c.size * number < 2 ^ 31 then some (c.size * number / 100) else none
  else some number

/-- `do_reduce` -/
def doReduceRandom (dbl : DoubleRounding) (random : ℕ → UInt32) (c : QueryResult) (number : ℤ) (percent : Bool) :
    Option QueryResult :=
  if c.type ≠ .sub ∨ c.size = 0 then some c
  else if percent ∧ (number ≤ 0 ∨ number ≥ 100) then some c
  else if !percent ∧ (number ≤ 0 ∨ number ≥ c.size) then some c
  else do
    let number ← c.reduceNumber number percent
    let lines := selectLines dbl random c.size (UInt32.ofInt number)
    some (c.deleteIntervals (· ∈ lines) .unselectedLines)

end QueryResult

/-! The global `expansion` of `cqp/options.h`, and `expand_dataspace` in `cqp/parse_actions.c` with the
boundaries of `cqp/ranges.c`. -/

inductive ContextDirection where
  | left | right | leftRight
deriving Repr, DecidableEq

/-- The `Context` of an expansion. -/
structure ExpansionContext (A : Type) where
  direction : ContextDirection
  space : Context A

variable {C A R : Type}

def Context.size : Context A → ℤ
  | .word size | .structure _ size => size

namespace Corpus

variable (corpus : Corpus C A R)

/-- `calculate_ranges` -/
def calculateRanges (spc : Context A) (cpos : ℤ) : Option (ℤ × ℤ) :=
  match spc with
  | .word d =>
    if d < 0 then none
    else some (max 0 (cpos - d), cpos + min d (corpus.size - 1 - cpos))
  | .structure attrib size =>
    if size - 1 < 0 then none
    else match corpus.cpos2struc attrib cpos with
      | none => none
      | some n =>
        let r1 : ℤ := max 0 (n - (size - 1))
        let r2 : ℤ := min ((corpus.maxStruc attrib : ℤ) - 1) (n + (size - 1))
        some ((corpus.struc2cpos attrib r1.toNat).1, (corpus.struc2cpos attrib r2.toNat).2)

def calculateLeftboundary (spc : Context A) (cpos : ℤ) : ℤ := ((corpus.calculateRanges spc cpos).map Prod.fst).getD (-1)

def calculateRightboundary (spc : Context A) (cpos : ℤ) : ℤ := ((corpus.calculateRanges spc cpos).map Prod.snd).getD (-1)

/-- What an expansion does to the start and to the end of a range. -/
def expansion (e : ExpansionContext A) : QueryResult.Expansion where
  left := if e.direction = .right then none else some (corpus.calculateLeftboundary e.space)
  right := if e.direction = .left then none else some (corpus.calculateRightboundary e.space)

/-- `expand_dataspace` -/
def expandDataspace (e : ExpansionContext A) (c : QueryResult) : QueryResult :=
  c.expandDataspace (if e.space.size > 0 then some (corpus.expansion e) else none)

end Corpus

end CWB
