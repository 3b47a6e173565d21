import CWB.Spec.Constraint

/-! The index lookup for the first pattern of a query: `calculate_initial_matchlist` of
`cqp/eval.c` with the initial match lists of `cqp/matchlist.c`, which have start positions
only. `none` stands for a failed assertion or an invalid pointer. The index delivers
the positions of an ID in ascending order, restricted to the ranges that are passed to it. -/

namespace CWB

/-- A query corpus: ranges inside a corpus of `size` tokens, sorted by start. They may overlap. -/
structure QueryCorpus (size : ℕ) where
  range : List Match
  sorted : range.Pairwise fun r r' => r.start ≤ r'.start
  inside : ∀ r ∈ range, 0 ≤ r.start ∧ r.stop < size

/-- A position of the query corpus. -/
def QueryCorpus.Contains {size : ℕ} (qc : QueryCorpus size) (cpos : ℤ) : Prop :=
  ∃ r ∈ qc.range, r.start ≤ cpos ∧ cpos ≤ r.stop

structure InitialMatchlist where
  start : List ℤ := []
  isInverted : Bool := false
deriving Repr, DecidableEq

/-- The corpus positions `0 .. size - 1`. -/
def allPositions (size : ℕ) : List ℤ := (List.range size).map Int.ofNat

/-- The loop of `Setop(Complement)` from position `k` on; the list must not fall behind. -/
def complementLoop : ℕ → ℤ → List ℤ → Option (List ℤ)
  | 0, _, _ => some []
  | n + 1, k, [] => do some (k :: (← complementLoop n (k + 1) []))
  | n + 1, k, s :: start =>
    if k < s then do some (k :: (← complementLoop n (k + 1) (s :: start)))
    else if k = s then complementLoop n (k + 1) start
    else none

namespace InitialMatchlist

/-- `Setop(Complement)`: only the flag is cleared if the list is inverted. -/
def complement (size : ℕ) (ml : InitialMatchlist) : Option InitialMatchlist :=
  if ml.isInverted then some { ml with isInverted := false }
  else
    let tabsize : ℤ := size - ml.start.length
    if tabsize = 0 then some {}
    else if tabsize = size then some { start := allPositions size }
    else do
      let start ← complementLoop size 0 ml.start
      if (start.length : ℤ) = tabsize then some { start := start } else none

/-- The complement of an inverted list before a union, which by the above only clears its flag. -/
def complementIfInverted (size : ℕ) (ml : InitialMatchlist) : Option InitialMatchlist :=
  if ml.isInverted then ml.complement size else some ml

/-- The positions of a list that may be inverted. -/
def materialise (size : ℕ) (ml : InitialMatchlist) : Option InitialMatchlist :=
  if ml.isInverted then complement size { ml with isInverted := false } else some ml

/-- `Setop(Reduce)` -/
def reduce (ml : InitialMatchlist) : InitialMatchlist :=
  let start := ml.start.filter (· ≠ -1)
  { start := start, isInverted := ml.isInverted && start.length == ml.start.length }

/-- The loop of `Setop(Intersection)`. -/
def intersectionLoop : List ℤ → List ℤ → List ℤ
  | a :: as, b :: bs =>
    if a < b then intersectionLoop as (b :: bs)
    else if a > b then intersectionLoop (a :: as) bs
    else a :: intersectionLoop as bs
  | _, _ => []
termination_by as bs => as.length + bs.length

/-- `Setop(Union)` -/
def union (size : ℕ) (l1 l2 : InitialMatchlist) : Option InitialMatchlist :=
  if l2.start = [] then if l2.isInverted then some l2 else some l1
  else if l1.start = [] then if l1.isInverted then some l1 else some l2
  else if l1.isInverted && l2.isInverted then
    some { start := intersectionLoop l1.start l2.start, isInverted := true }
  else do
    let l1 ← l1.materialise size
    let l2 ← l2.materialise size
    some { start := (setopUnion (.ofStarts l1.start) (.ofStarts l2.start)).starts }

end InitialMatchlist

/-- The loop of `mark_offrange_cells`: the cells, and how many of them were marked. -/
def offrangeLoop : List ℤ → List Match → List ℤ × ℕ
  | [], _ => ([], 0)
  | _ :: start, [] =>
    let (cells, del) := offrangeLoop start []
    (-1 :: cells, del + 1)
  | cpos :: start, r :: range =>
    if cpos < r.start then
      let (cells, del) := offrangeLoop start (r :: range)
      (-1 :: cells, del + 1)
    else if cpos > r.stop then offrangeLoop (cpos :: start) range
    else
      let (cells, del) := offrangeLoop start (r :: range)
      (cpos :: cells, del)
termination_by start range => start.length + range.length

/-- `mark_offrange_cells`; nothing to do if the query corpus is the whole corpus. -/
def QueryCorpus.markOffrangeCells {size : ℕ} (qc : QueryCorpus size) (start : List ℤ) : List ℤ × ℕ :=
  match qc.range with
  | [r] => if r.start = 0 ∧ r.stop = size - 1 then (start, 0) else offrangeLoop start [r]
  | range => offrangeLoop start range

/-- Mark the cells off the query corpus and drop them if there are any. -/
def QueryCorpus.restrict {size : ℕ} (qc : QueryCorpus size) (ml : InitialMatchlist) : InitialMatchlist :=
  let (start, del) := qc.markOffrangeCells ml.start
  if del > 0 then { ml with start := start }.reduce else { ml with start := start }

/-- The result of a lookup: the return value, the list, and `EvaluationIsRunning`. -/
structure LookupResult where
  ok : Bool
  matchlist : InitialMatchlist
  running : Bool
deriving Repr, DecidableEq

/-- What the parser makes of a constraint: a tree that is constantly true matches everything. -/
inductive WordformPattern (P S : Type) where
  | matchAll
  | pattern (constraint : Constraint P S)
deriving Repr, DecidableEq

def doWordformPattern {P S : Type} (boolt : Constraint P S) : WordformPattern P S :=
  match boolt with
  | .cnode true => .matchAll
  | boolt => .pattern boolt

namespace ConstraintCorpus

variable {P S : Type} (corpus : ConstraintCorpus P S)

/-- `cl_idlist2cpos`, sorted. -/
def idlist2cpos (attr : P) (items : List ℤ) : List ℤ :=
  (items.flatMap fun id => (positions (corpus.pos attr).ids id.toNat).map Int.ofNat).insertionSort (· ≤ ·)

/-- `get_positions`; an empty list of ranges restricts nothing. -/
def getPositions (attr : P) (id : ℤ) (restrictor : List Match) : List ℤ :=
  if id < 0 ∨ id ≥ (corpus.pos attr).lexsize then []
  else ((positions (corpus.pos attr).ids id.toNat).map Int.ofNat).filter fun cpos =>
    restrictor.isEmpty || restrictor.any fun r => r.start ≤ cpos ∧ cpos ≤ r.stop

/-- `get_corpus_positions` -/
def getCorpusPositions (attr : P) (wordform : String) : List ℤ :=
  match (corpus.pos attr).str2id wordform with
  | none => []
  | some id => corpus.idlist2cpos attr [(id : ℤ)]

/-- `get_matched_corpus_positions` -/
def getMatchedCorpusPositions (attr : P) (regstr : String) (canonicalize : ℕ) : List ℤ :=
  if regstr = ".*" then allPositions corpus.size
  else
    let wordIds := corpus.collectMatchingIds attr regstr canonicalize
    if wordIds.length = (corpus.pos attr).lexsize then allPositions corpus.size
    else if wordIds.length > 0 then corpus.idlist2cpos attr wordIds
    else []

variable [DecidableEq P]

/-- The loop that evaluates the constraint at every cell; `none` if the evaluation was stopped. -/
def scanLoop (ctptr : Constraint P S) : List ℤ → Bool → Option (List ℤ) × Bool
  | [], running => (some [], running)
  | cpos :: start, running =>
    if !running then (none, running)
    else if cpos ≥ 0 then
      let (value, running') := corpus.evalBool ctptr cpos
      let (cells, running) := scanLoop ctptr start (running && running')
      (cells.map ((if value then cpos else -1) :: ·), running)
    else
      let (cells, running) := scanLoop ctptr start running
      (cells.map (cpos :: ·), running)

/-- The loop of a conjunction over the list of its left part. -/
def andLoop (right : Constraint P S) : List ℤ → Bool → List ℤ × Bool
  | [], running => ([], running)
  | cpos :: start, running =>
    if !running then (cpos :: start, running)
    else if cpos ≥ 0 then
      let (value, running') := corpus.evalBool right cpos
      let (cells, running) := andLoop right start (running && running')
      ((if value then cpos else -1) :: cells, running)
    else
      let (cells, running) := andLoop right start running
      (cpos :: cells, running)

variable (qc : QueryCorpus corpus.size)

/-- The "dummy implementation": all positions of the query corpus are tried. -/
def scanCorpus (ctptr : Constraint P S) (running : Bool) : Option LookupResult := do
  let ml ← InitialMatchlist.complement corpus.size {}
  match corpus.scanLoop ctptr (qc.markOffrangeCells ml.start).1 running with
  | (none, running) => some { ok := false, matchlist := {}, running }
  | (some start, running) => some { ok := true, matchlist := { ml with start := start }.reduce, running }

/-- The index lookup for an attribute and a string: a list for any operator, complemented for `!=`. -/
def lookupString (op : CmpOp) (attr : P) (leaf : StringLeaf) (running : Bool) : Option LookupResult :=
  match leaf with
  | .regexp ".*" _ =>
    if op = .cmpNeq then some { ok := true, matchlist := {}, running }
    else some { ok := true, matchlist := qc.restrict { start := corpus.getMatchedCorpusPositions attr ".*" 0 }, running }
  | _ => do
    let start := match leaf with
      | .regexp sconst canon => corpus.getMatchedCorpusPositions attr sconst canon
      | .normal sconst => corpus.getCorpusPositions attr sconst
      | .cid cidconst => corpus.getPositions attr cidconst qc.range
    let ml := qc.restrict { start := start }
    if op = .cmpNeq then some { ok := true, matchlist := ← ml.complement corpus.size, running }
    else some { ok := true, matchlist := ml, running }

/-- `calculate_initial_matchlist_1` -/
def calculateInitialMatchlist1 : Constraint P S → Bool → Option LookupResult
  | .bAnd left right, running => do
    let l ← calculateInitialMatchlist1 left running
    if l.ok then
      let (start, running) := corpus.andLoop right l.matchlist.start l.running
      some { ok := true, matchlist := { start := ({ l.matchlist with start := start }.reduce).start }, running }
    else some { ok := false, matchlist := {}, running := l.running }
  | .bOr left right, running => do
    let l ← calculateInitialMatchlist1 left running
    if l.ok then
      let r ← calculateInitialMatchlist1 right l.running
      if r.ok then
        let ll ← l.matchlist.complementIfInverted corpus.size
        let rl ← r.matchlist.complementIfInverted corpus.size
        let ml ← ll.union corpus.size rl
        some { ok := true, matchlist := { start := ml.start }, running := r.running }
      else some { ok := false, matchlist := {}, running := r.running }
    else some { ok := false, matchlist := {}, running := l.running }
  | ctptr@(.bImplies ..), running => corpus.scanCorpus qc ctptr running
  | .bNot left, running => do
    let l ← calculateInitialMatchlist1 left running
    if l.ok then
      let ml ← l.matchlist.complement corpus.size
      some { ok := true, matchlist := qc.restrict ml, running := l.running }
    else some { ok := false, matchlist := {}, running := l.running }
  | ctptr@(.cmp op left right), running =>
    match left, right with
    | .saRef _, _ => corpus.scanCorpus qc ctptr running
    | .paRef attr, .stringLeaf leaf => corpus.lookupString qc op attr leaf running
    | .paRef _, _ => corpus.scanCorpus qc ctptr running
    | .stringLeaf _, _ | .intLeaf _, _ => none
  | ctptr@(.cmpEx left), running =>
    match left with
    | .saRef _ | .paRef _ => corpus.scanCorpus qc ctptr running
    | .stringLeaf _ | .intLeaf _ => none
  | .cnode val, running =>
    -- the attribute of a constant node is read through an uninitialised pointer
    if val then none else some { ok := true, matchlist := {}, running }
  | .idList attr items negated, running => do
    let ml : InitialMatchlist := if items.length > 0 then { start := corpus.idlist2cpos attr items } else {}
    if negated then some { ok := true, matchlist := qc.restrict (← ml.complement corpus.size), running }
    else some { ok := true, matchlist := qc.restrict ml, running }

section

variable {corpus} {qc : QueryCorpus corpus.size} {left right : Constraint P S} {running : Bool}

theorem calculateInitialMatchlist1_bAnd : corpus.calculateInitialMatchlist1 qc (.bAnd left right) running = (do
    let l ← corpus.calculateInitialMatchlist1 qc left running
    if l.ok then
      let (start, running) := corpus.andLoop right l.matchlist.start l.running
      some { ok := true, matchlist := { start := ({ l.matchlist with start := start }.reduce).start }, running }
    else some { ok := false, matchlist := {}, running := l.running }) :=
  rfl

theorem calculateInitialMatchlist1_bOr : corpus.calculateInitialMatchlist1 qc (.bOr left right) running = (do
    let l ← corpus.calculateInitialMatchlist1 qc left running
    if l.ok then
      let r ← corpus.calculateInitialMatchlist1 qc right l.running
      if r.ok then
        let ll ← l.matchlist.complementIfInverted corpus.size
        let rl ← r.matchlist.complementIfInverted corpus.size
        let ml ← ll.union corpus.size rl
        some { ok := true, matchlist := { start := ml.start }, running := r.running }
      else some { ok := false, matchlist := {}, running := r.running }
    else some { ok := false, matchlist := {}, running := l.running }) :=
  rfl

theorem calculateInitialMatchlist1_bNot : corpus.calculateInitialMatchlist1 qc (.bNot left) running = (do
    let l ← corpus.calculateInitialMatchlist1 qc left running
    if l.ok then
      let ml ← l.matchlist.complement corpus.size
      some { ok := true, matchlist := qc.restrict ml, running := l.running }
    else some { ok := false, matchlist := {}, running := l.running }) :=
  rfl

theorem calculateInitialMatchlist1_string {op : CmpOp} {attr : P} {leaf : StringLeaf} :
    corpus.calculateInitialMatchlist1 qc (.cmp op (.paRef attr) (.stringLeaf leaf)) running =
      corpus.lookupString qc op attr leaf running :=
  rfl

theorem calculateInitialMatchlist1_idList {attr : P} {items : List ℤ} {negated : Bool} :
    corpus.calculateInitialMatchlist1 qc (.idList attr items negated) running = (do
      let ml : InitialMatchlist := if items.length > 0 then { start := corpus.idlist2cpos attr items } else {}
      if negated then some { ok := true, matchlist := qc.restrict (← ml.complement corpus.size), running }
      else some { ok := true, matchlist := qc.restrict ml, running }) :=
  rfl

end

/-- `calculate_initial_matchlist` -/
def calculateInitialMatchlist (ctptr : Constraint P S) (running : Bool) : Option LookupResult := do
  let res ← corpus.calculateInitialMatchlist1 qc ctptr running
  if res.ok then
    let ml ← res.matchlist.materialise corpus.size
    some { res with matchlist := qc.restrict ml }
  else some res

/-- `matchfirstpattern` for a token pattern. -/
def matchfirstpattern (pattern : WordformPattern P S) (running : Bool) : Option LookupResult :=
  match pattern with
  | .pattern constraint => corpus.calculateInitialMatchlist qc constraint running
  | .matchAll => some { ok := true, matchlist := { start := allPositions corpus.size }, running }

/-- `eval_constraint` for a token pattern without labels. -/
def evalPattern (pattern : WordformPattern P S) (corppos : ℤ) : Bool × Bool :=
  match pattern with
  | .pattern constraint => corpus.evalBool constraint corppos
  | .matchAll => (true, true)

end ConstraintCorpus

/-! `Setop` of `cqp/matchlist.c` on the vectors of the match lists. A vector that is not allocated
is `none`. A failed assertion and a write behind the end of a vector make the result `none`. -/

/-- `Matchlist`; an initial list has no end positions. -/
structure MatchVectors where
  start : Option (List ℤ) := none
  stop : Option (List ℤ) := none
  targetPositions : Option (List ℤ) := none
  keywordPositions : Option (List ℤ) := none
  tabsize : ℕ := 0
  matchesWholeCorpus : Bool := false
  isInverted : Bool := false
deriving Repr, DecidableEq

inductive MLSetOp where
  | union | intersection | complement | identity | uniq | reduce
deriving Repr, DecidableEq

namespace MatchVectors

def valueAt (vec : Option (List ℤ)) (i : ℕ) : ℤ := (vec.getD []).getD i 0

def startAt (l : MatchVectors) (i : ℕ) : ℤ := valueAt l.start i

def stopAt (l : MatchVectors) (i : ℕ) : ℤ := valueAt l.stop i

/-- Is `k` inside all vectors? -/
def hasRoom (l : MatchVectors) (k : ℕ) : Bool :=
  l.start.all (k < ·.length) && l.stop.all (k < ·.length) && l.targetPositions.all (k < ·.length) &&
    l.keywordPositions.all (k < ·.length)

/-- Item `i` of the vectors of `src` is copied to `k`. -/
def copyItem (l src : MatchVectors) (k i : ℕ) : Option MatchVectors :=
  if l.hasRoom k then
    some { l with
      start := l.start.map (·.set k (valueAt src.start i))
      stop := l.stop.map (·.set k (valueAt src.stop i))
      targetPositions := l.targetPositions.map (·.set k (valueAt src.targetPositions i))
      keywordPositions := l.keywordPositions.map (·.set k (valueAt src.keywordPositions i)) }
  else none

/-- The vectors are allocated that both lists have. -/
def allocate (l1 l2 : MatchVectors) (tabsize : ℕ) : MatchVectors :=
  let vector (both : Bool) : Option (List ℤ) := if both then some (List.replicate tabsize 0) else none
  { start := vector true
    stop := vector (l1.stop.isSome && l2.stop.isSome)
    targetPositions := vector (l1.targetPositions.isSome && l2.targetPositions.isSome)
    keywordPositions := vector (l1.keywordPositions.isSome && l2.keywordPositions.isSome)
    tabsize := tabsize }

/-- `cl_realloc` to `k` elements; to none it returns NULL. -/
def reallocVector (k : ℕ) (vec : Option (List ℤ)) : Option (List ℤ) :=
  if k = 0 then none else vec.map (·.take k)

/-- The vectors are cut to `k` items if they have more. -/
def realloc (l : MatchVectors) (k : ℕ) : MatchVectors :=
  if k < l.tabsize then
    { start := reallocVector k l.start
      stop := reallocVector k l.stop
      targetPositions := reallocVector k l.targetPositions
      keywordPositions := reallocVector k l.keywordPositions
      tabsize := k }
  else l

/-- The loop of `Union` with the positions `i` and `j` in the lists and the insertion point `k`. -/
def unionLoop (l1 l2 : MatchVectors) (i j k : ℕ) (tmp : MatchVectors) : Option (ℕ × MatchVectors) :=
  if i < l1.tabsize ∨ j < l2.tabsize then
    if i < l1.tabsize ∧ l1.startAt i = -1 then unionLoop l1 l2 (i + 1) j k tmp
    else if j < l2.tabsize ∧ l2.startAt j = -1 then unionLoop l1 l2 i (j + 1) k tmp
    else if j ≥ l2.tabsize ∨ (i < l1.tabsize ∧ l1.startAt i < l2.startAt j) then
      (tmp.copyItem l1 k i).bind (unionLoop l1 l2 (i + 1) j (k + 1))
    else if i ≥ l1.tabsize ∨ l1.startAt i > l2.startAt j then
      (tmp.copyItem l2 k j).bind (unionLoop l1 l2 i (j + 1) (k + 1))
    else if tmp.stop.isNone ∨ l1.stopAt i = l2.stopAt j then
      (tmp.copyItem l1 k i).bind (unionLoop l1 l2 (i + 1) (j + 1) (k + 1))
    else if l1.stopAt i < l2.stopAt j then
      (tmp.copyItem l1 k i).bind (unionLoop l1 l2 (i + 1) j (k + 1))
    else (tmp.copyItem l2 k j).bind (unionLoop l1 l2 i (j + 1) (k + 1))
  else some (k, tmp)
termination_by (l1.tabsize - i) + (l2.tabsize - j)

/-- The loop of `Intersection`. -/
def intersectionLoop (l1 l2 : MatchVectors) (i j k : ℕ) (tmp : MatchVectors) : Option (ℕ × MatchVectors) :=
  if i < l1.tabsize ∧ j < l2.tabsize then
    if l1.startAt i < l2.startAt j then intersectionLoop l1 l2 (i + 1) j k tmp
    else if l1.startAt i > l2.startAt j then intersectionLoop l1 l2 i (j + 1) k tmp
    else if tmp.stop.isNone ∨ l1.stopAt i = l2.stopAt j then
      (tmp.copyItem l1 k i).bind (intersectionLoop l1 l2 (i + 1) (j + 1) (k + 1))
    else if l1.stopAt i < l2.stopAt j then intersectionLoop l1 l2 (i + 1) j k tmp
    else intersectionLoop l1 l2 i (j + 1) k tmp
  else some (k, tmp)
termination_by (l1.tabsize - i) + (l2.tabsize - j)

/-- `Union` of two lists that have start positions, the size of the result being computed in advance. -/
def unionItems (l1 l2 : MatchVectors) : Option MatchVectors := do
  let (k, tmp) ← unionLoop l1 l2 0 0 0 (allocate l1 l2 (l1.tabsize + l2.tabsize))
  if k ≤ tmp.tabsize then some (tmp.realloc k) else none

def intersectionItems (l1 l2 : MatchVectors) : Option MatchVectors := do
  let tabsize := if l1.isInverted then l2.tabsize else if l2.isInverted then l1.tabsize else min l1.tabsize l2.tabsize
  let (k, tmp) ← intersectionLoop l1 l2 0 0 0 (allocate l1 l2 tabsize)
  if k ≤ tmp.tabsize then some (tmp.realloc k) else none

/-- The loop of `Complement` over `n` positions from `k` on, with the index `j` in the source list and
`t` in the target list. -/
def complementLoop (l : MatchVectors) : ℕ → ℤ → ℕ → ℕ → List ℤ → Option (ℕ × List ℤ)
  | 0, _, _, t, tmp => some (t, tmp)
  | n + 1, k, j, t, tmp =>
    if j ≥ l.tabsize ∨ k < l.startAt j then
      if t < tmp.length then l.complementLoop n (k + 1) j (t + 1) (tmp.set t k) else none
    else if k = l.startAt j then l.complementLoop n (k + 1) (j + 1) t tmp
    else none

/-- `Setop(Complement)`: the return value and the list. `size` is missing if there is no evaluation
environment, its corpus cannot be accessed or it has no word attribute. -/
def complement (size : Option ℕ) (l : MatchVectors) : Option (Bool × MatchVectors) :=
  if l.stop.isSome then some (false, l)
  else if l.isInverted then some (true, { l with isInverted := false })
  else
    match size with
    | none => some (false, l)
    | some size =>
      let tabsize : ℤ := size - l.tabsize
      if tabsize = 0 then some (true, {})
      else if tabsize = size then
        some (true, { start := some (allPositions size), tabsize := size, matchesWholeCorpus := true })
      else do
        let (t, tmp) ← l.complementLoop size 0 0 0 (List.replicate tabsize.toNat 0)
        if (t : ℤ) = tabsize then some (true, { start := some tmp, tabsize := t }) else none

/-- `Setop(Identity)` -/
def identity (l2 : MatchVectors) : MatchVectors :=
  { l2 with
    start := l2.start.map (·.take l2.tabsize)
    stop := l2.stop.map (·.take l2.tabsize)
    targetPositions := l2.targetPositions.map (·.take l2.tabsize)
    keywordPositions := l2.keywordPositions.map (·.take l2.tabsize) }

/-- Materialised before a union: only the flag is cleared and the complement taken. -/
def materialise (size : Option ℕ) (l : MatchVectors) : Option MatchVectors :=
  if l.isInverted then ({ l with isInverted := false }.complement size).map Prod.snd else some l

/-- `Setop(Union)` -/
def union (size : Option ℕ) (l1 l2 : MatchVectors) : Option (Bool × MatchVectors) :=
  if l2.start = none then if l2.isInverted then some (true, l2.identity) else some (true, l1)
  else if l1.start = none then if l1.isInverted then some (true, l1) else some (true, l2.identity)
  else if l1.isInverted && l2.isInverted then do
    let l ←
      if l1.tabsize = 0 ∨ l2.tabsize = 0 then some {}
      else intersectionItems { l1 with isInverted := false } { l2 with isInverted := false }
    some (true, { l with isInverted := true })
  else do
    let l1 ← l1.materialise size
    let l2 ← l2.materialise size
    some (true, ← unionItems l1 l2)

/-- `Setop(Intersection)` -/
def intersection (l1 l2 : MatchVectors) : Option (Bool × MatchVectors) :=
  if l1.tabsize = 0 ∧ l1.isInverted then some (true, l2.identity)
  else if l2.tabsize = 0 ∧ l2.isInverted then some (true, l1)
  else if l1.tabsize = 0 ∨ l2.tabsize = 0 then some (true, {})
  else if l1.isInverted && l2.isInverted then do
    let l ← unionItems { l1 with isInverted := false } { l2 with isInverted := false }
    some (true, { l with isInverted := true })
  else do some (true, ← intersectionItems l1 l2)

/-- The loop that moves the items down to the insertion point `ins` for which the test succeeds: `n` items
from `i` on are left. -/
def moveLoop (test : MatchVectors → ℕ → ℕ → Bool) : ℕ → ℕ → ℕ → MatchVectors → Option (ℕ × MatchVectors)
  | 0, _, ins, l => some (ins, l)
  | n + 1, i, ins, l =>
    if test l i ins then (l.copyItem l ins i).bind (moveLoop test n (i + 1) (ins + 1))
    else moveLoop test n (i + 1) ins l

/-- The test of `Uniq`: the item is not the one before the insertion point. -/
def isNew (l : MatchVectors) (i ins : ℕ) : Bool :=
  ins = 0 || l.startAt i ≠ l.startAt (ins - 1) || (l.stop.isSome && l.stopAt i ≠ l.stopAt (ins - 1))

/-- The test of `Reduce`. -/
def isUnmarked (l : MatchVectors) (i _ins : ℕ) : Bool := l.startAt i ≠ -1

/-- `Setop(Uniq)` -/
def uniq (l : MatchVectors) : Option (Bool × MatchVectors) :=
  if l.start ≠ none ∧ l.tabsize > 0 then do
    let (ins, l) ← moveLoop isNew l.tabsize 0 0 l
    some (true, l.realloc ins)
  else some (true, l)

/-- `Setop(Reduce)`: the vectors are freed if nothing is left. -/
def reduce (l : MatchVectors) : Option (Bool × MatchVectors) :=
  if l.start ≠ none ∧ l.tabsize > 0 then do
    let (ins, l) ← moveLoop isUnmarked l.tabsize 0 0 l
    if ins = 0 then some (true, {}) else some (true, l.realloc ins)
  else some (true, l)

/-- `Setop` with the result in the first list. -/
def setop (size : Option ℕ) (list1 : MatchVectors) (operation : MLSetOp) (list2 : MatchVectors) :
    Option (Bool × MatchVectors) :=
  match operation with
  | .union => list1.union size list2
  | .intersection => list1.intersection list2
  | .complement => list1.complement size
  | .identity => some (true, list2.identity)
  | .uniq => list1.uniq
  | .reduce => list1.reduce

end MatchVectors

end CWB
