import CWB.Library.Separated
import CWB.Spec.CorpusList

/-! The list of loaded corpora in `cqp/corpmanag.c` with the commands of `cqp/parser.y` and
`cqp/parse_actions.c` that create, replace and delete query results in it. A pointer to an entry
is its number. The contents of query results (ranges, anchors, sort index) do not matter here;
what a command makes of them is part of the command. All entries are loaded and accessible. -/

namespace CWB

open Split

abbrev CorpusName := List Char

structure CorpusEntry (α : Type) where
  id : ℕ
  type : CorpusType
  name : CorpusName
  motherName : CorpusName
  registry : CorpusName
  data : α

/-- `corpuslist` and `current_corpus`, with the number of the next entry to be allocated. -/
structure QueryStore (α : Type) where
  corpuslist : List (CorpusEntry α)
  current : Option ℕ := none
  nextId : ℕ

variable {α : Type}

/-- A query result has been written to `mother:name` (or deleted, where `data` is `none`);
`viaTemp` if `assign_temp_to_sub` did it. -/
structure Assignment (α : Type) where
  before : QueryStore α
  after : QueryStore α
  mother : CorpusName
  name : CorpusName
  data : Option α
  viaTemp : Bool := false

/-- What was last assigned to a pair. -/
def lastAssigned (log : List (Assignment α)) (mother name : CorpusName) : Option α :=
  log.foldl (fun last a => if a.mother = mother ∧ a.name = name then a.data else last) none

structure StoreOptions (α : Type) where
  autoSubquery : Bool := false
  /-- the expansion to the regions of an attribute, if the mother corpus has this attribute -/
  expandTo : CorpusName → CorpusName → Option (α → α) := fun _ _ => none

/-! ## Lookup -/

/-- `is_qualified`. -/
def isQualified (s : CorpusName) : Bool := ':' ∈ s

/-- The characters that `split_subcorpus_name` accepts at the start; the others are not checked. -/
def nameStart (c : Char) : Bool := c.isAlphanum || c = '_' || c = '-' || c = '.'

/-- `split_subcorpus_name`: qualifier (empty if there is none) and local name. -/
def splitSubcorpusName (s : CorpusName) : Option (CorpusName × CorpusName) :=
  if s.head?.any nameStart then
    match splitAtFirst ':' s with
    | none => some ([], s)
    | some (mother, name) => if isQualified name then none else some (mother, name)
  else none

namespace QueryStore

variable (st : QueryStore α)

def get? (p : ℕ) : Option (CorpusEntry α) := st.corpuslist.find? (·.id = p)

/-- The qualifier that `LoadedCorpus` guesses from `current_corpus`. -/
def currentMother : Option CorpusName :=
  (st.current.bind st.get?).map fun cl => if cl.type = .sub then cl.motherName else cl.name

/-- The loop of `LoadedCorpus`. A guessed qualifier stays set, and with a qualifier the first
entry of the name decides. -/
def loadedLoop (guess : Option CorpusName) (name : CorpusName) (type : Option CorpusType) :
    Option CorpusName → List (CorpusEntry α) → Option (CorpusEntry α)
  | _, [] => none
  | qualifier, corp :: rest =>
    if (type = some corp.type ∨ (type = none ∧ corp.type ≠ .temp)) ∧ corp.name = name then
      match qualifier with
      | none =>
        if corp.type = .sub then
          match guess with
          | some mother =>
            if corp.motherName = mother then some corp else loadedLoop guess name type (some mother) rest
          | none => some corp
        else some corp
      | some qualifier =>
        if (corp.type = .system ∧ corp.registry = qualifier) ∨ (corp.type = .sub ∧ corp.motherName = qualifier) then
          some corp
        else none
    else loadedLoop guess name type qualifier rest

/-- `LoadedCorpus`; `type` is `none` for UNDEF. -/
def loadedCorpus (name : CorpusName) (qualifier : Option CorpusName) (type : Option CorpusType) :
    Option (CorpusEntry α) :=
  loadedLoop st.currentMother name type qualifier st.corpuslist

/-- The qualifier and the real name in `findcorpus`. -/
def parseName (s : CorpusName) (type : Option CorpusType) : Option CorpusName × CorpusName :=
  if type = some .system then (none, s)
  else match splitAtFirst ':' s with
    | some (mother, name) => (if mother = [] then none else some mother, name)
    | none => (none, s)

/-- `findcorpus` without recursive search. -/
def findLoaded (s : CorpusName) (type : Option CorpusType) : Option (CorpusEntry α) :=
  if '^' ∈ (parseName s type).2 then none
  else st.loadedCorpus (parseName s type).2 (parseName s type).1 type

/-! ## Entries -/

def modify (p : ℕ) (f : CorpusEntry α → CorpusEntry α) : QueryStore α :=
  { st with corpuslist := st.corpuslist.map fun e => if e.id = p then f e else e }

/-- `NewCL`, with the entry put in front of the list. -/
def insert (type : CorpusType) (name motherName registry : CorpusName) (data : α) : QueryStore α :=
  { st with
    corpuslist := ⟨st.nextId, type, name, motherName, registry, data⟩ :: st.corpuslist
    nextId := st.nextId + 1 }

/-- `dropcorpus`. -/
def dropcorpus (p : ℕ) : QueryStore α :=
  let corpuslist := st.corpuslist.filter (·.id ≠ p)
  { st with
    corpuslist
    current := if st.current = some p then corpuslist.head?.map CorpusEntry.id else st.current }

/-- `drop_temp_corpora`; `none` if `current_corpus` would be left without its entry. -/
def dropTempCorpora : Option (QueryStore α) :=
  if (st.current.bind st.get?).any (·.type = .temp) then none
  else some { st with corpuslist := st.corpuslist.filter (·.type ≠ .temp) }

/-- `duplicate_corpus` with `force_overwrite`. -/
def duplicateCorpus (cl : CorpusEntry α) (newName : CorpusName) : QueryStore α × ℕ :=
  match st.loadedCorpus newName (some (if cl.type = .system then cl.registry else cl.motherName)) (some .sub) with
  | none => (st.insert .sub newName cl.motherName cl.registry cl.data, st.nextId)
  | some newc =>
    if newc.id = cl.id then (st, cl.id)
    else (st.modify newc.id fun e => ⟨e.id, .sub, newName, cl.motherName, cl.registry, cl.data⟩, newc.id)

/-- `make_temp_corpus`: the new entry keeps the name of `cl`. -/
def makeTempCorpus (cl : CorpusEntry α) (newName : CorpusName) : QueryStore α × ℕ :=
  match st.findLoaded newName (some .temp) with
  | none => (st.insert .temp cl.name cl.motherName cl.registry cl.data, st.nextId)
  | some newc =>
    if newc.id = cl.id then (st, cl.id)
    else (st.modify newc.id fun e => ⟨e.id, .temp, cl.name, cl.motherName, cl.registry, cl.data⟩, newc.id)

/-- `assign_temp_to_sub`. -/
def assignTempToSub (tmp : CorpusEntry α) (subname : CorpusName) : QueryStore α × ℕ :=
  match st.findLoaded subname (some .sub) with
  | some cl =>
    ((st.modify cl.id fun e => ⟨e.id, .sub, subname, tmp.motherName, tmp.registry, tmp.data⟩).dropcorpus tmp.id, cl.id)
  | none => (st.modify tmp.id fun e => ⟨e.id, .sub, subname, e.motherName, e.registry, e.data⟩, tmp.id)

end QueryStore

/-! ## Commands -/

/-- The store after (a part of) a command, the assignments it has made and the entry it returns. -/
structure StoreResult (α : Type) where
  store : QueryStore α
  log : List (Assignment α) := []
  corpus : Option ℕ := none

namespace QueryStore

variable (opts : StoreOptions α) (st : QueryStore α)

def setData (p : ℕ) (data : α) : QueryStore α := st.modify p fun e => { e with data }

def duplicate (cl : CorpusEntry α) (newName : CorpusName) : StoreResult α where
  store := (st.duplicateCorpus cl newName).1
  log := [{ before := st, after := (st.duplicateCorpus cl newName).1, mother := cl.motherName, name := newName,
            data := some cl.data }]
  corpus := (st.duplicateCorpus cl newName).2

def assignTemp (tmp : CorpusEntry α) (subname : CorpusName) : StoreResult α where
  store := (st.assignTempToSub tmp subname).1
  log := [{ before := st, after := (st.assignTempToSub tmp subname).1, mother := tmp.motherName, name := subname,
            data := some tmp.data, viaTemp := true }]
  corpus := (st.assignTempToSub tmp subname).2

/-- `findcorpus` with implicit expansion: `A^s` is a copy of `A`, expanded to `s` regions (in the
copy, after it has been made). -/
def findcorpus (s : CorpusName) : StoreResult α :=
  match splitAtFirst '^' (parseName s none).2 with
  | none => { store := st, corpus := (st.findLoaded s none).map CorpusEntry.id }
  | some (name, attr) =>
    match st.loadedCorpus name (parseName s none).1 none with
    | none => { store := st }
    | some sp =>
      if sp.type = .system then { store := st }
      else match opts.expandTo sp.motherName attr with
        | none => { store := st }
        | some f => st.duplicate { sp with data := f sp.data } (parseName s none).2

end QueryStore

/-- The corpus-yielding part of a command. -/
inductive CYCommand (α : Type) where
  | corpus (s : CorpusName)
  | setop (s1 s2 : CorpusName) (f : α → α → α)
  | subset (s : CorpusName) (f : α → α)
  | query (f : α → α)

inductive StoreCommand (α : Type) where
  | corpusCommand (lhs : Option CorpusName) (cy : CYCommand α) (expansion : Option (α → α))
  | translate (lhs s target : CorpusName) (f : α → α → α)
  | undump (s : CorpusName) (table : Option α)
  | discard (s : CorpusName)

namespace QueryStore

variable (opts : StoreOptions α) (st : QueryStore α)

/-- A copy of `cl` as temporary corpus, with other contents. -/
def tempWith (cl : CorpusEntry α) (newName : CorpusName) (data : α) : QueryStore α × ℕ :=
  ((st.makeTempCorpus cl newName).1.setData (st.makeTempCorpus cl newName).2 data, (st.makeTempCorpus cl newName).2)

/-- `CYCommand`: the temporary corpus of a query or set operation, or the corpus that is named. -/
def evalCY : CYCommand α → Option (StoreResult α)
  | .corpus s => some (st.findcorpus opts s)
  | .setop s1 s2 f =>
    let r1 := st.findcorpus opts s1
    let r2 := r1.store.findcorpus opts s2
    match r1.corpus, r2.corpus with
    | some p1, some p2 => do
      let c1 ← r2.store.get? p1
      let c2 ← r2.store.get? p2
      if (c1.registry, c1.motherName) = (c2.registry, c2.motherName) then
        let t := r2.store.tempWith c1 "RHS".toList (f c1.data c2.data)
        pure { store := t.1, log := r1.log ++ r2.log, corpus := some t.2 }
      else pure { store := r2.store, log := r1.log ++ r2.log }
    | _, _ => some { store := r2.store, log := r1.log ++ r2.log }
  | .subset s f =>
    let r := st.findcorpus opts s
    match r.corpus with
    | none => some r
    | some p => do
      let c ← r.store.get? p
      if c.type = .sub then
        let t := r.store.tempWith c "RHS".toList (f c.data)
        pure { store := t.1, log := r.log, corpus := some t.2 }
      else pure { store := r.store, log := r.log }
  | .query f =>
    match st.current with
    | none => some { store := st }
    | some p => do
      let c ← st.get? p
      let t := st.tempWith c "RHS".toList (f c.data)
      pure { store := t.1, corpus := some t.2 }

/-- `in_UnnamedCorpusCommand`: the result is assigned to `Last`, unless a corpus is named
without expansion. -/
def unnamed (cy : CYCommand α) (expansion : Option (α → α)) (r : StoreResult α) : Option (StoreResult α) :=
  match r.corpus with
  | none => some r
  | some p => do
    let c ← r.store.get? p
    match cy with
    | .corpus _ =>
      match expansion with
      | none => pure r
      | some f =>
        if c.type = .system then pure r
        else
          let t := r.store.tempWith c "RHS".toList (f c.data)
          let tmp ← t.1.get? t.2
          let res := t.1.assignTemp tmp "Last".toList
          pure { res with log := r.log ++ res.log }
    | _ =>
      let store := r.store.setData p (expansion.getD id c.data)
      let tmp ← store.get? p
      let res := store.assignTemp tmp "Last".toList
      let store ← res.store.dropTempCorpora
      pure { store, log := r.log ++ res.log, corpus := res.corpus }

/-- `in_CorpusCommand`. -/
def named (lhs : CorpusName) (r : StoreResult α) : Option (StoreResult α) :=
  match r.corpus with
  | none => some r
  | some p =>
    if isQualified lhs then some r
    else do
      let c ← r.store.get? p
      if c.type = .system then pure r
      else
        let res := r.store.duplicate c lhs
        pure { res with log := r.log ++ res.log }

/-- `after_CorpusCommand`, for a command without left hand side. -/
def activate (cy : CYCommand α) (r : StoreResult α) : StoreResult α :=
  match r.corpus, cy with
  | some p, .corpus _ => { r with store := { r.store with current := some p } }
  | some p, _ => if opts.autoSubquery then { r with store := { r.store with current := some p } } else r
  | none, _ => r

/-- `do_undump`, with the table that was read. -/
def doUndump (s : CorpusName) (table : Option α) : Option (StoreResult α) :=
  match splitSubcorpusName s with
  | none => some { store := st }
  | some (mother, name) =>
    let cl :=
      if isQualified s then st.findLoaded mother (some .system)
      else (st.current.bind st.get?).bind fun cl =>
        if cl.type = .system then some cl else st.findLoaded cl.motherName (some .system)
    match cl with
    | none => some { store := st }
    | some cl =>
      match table with
      | none => do
        let store ← (st.makeTempCorpus cl "UNDUMP_TMP".toList).1.dropTempCorpora
        pure { store }
      | some data => do
        let t := st.tempWith cl "UNDUMP_TMP".toList data
        let tmp ← t.1.get? t.2
        let res := t.1.assignTemp tmp name
        let store ← res.store.dropTempCorpora
        pure { res with store }

/-- `Discard`. -/
def discard (s : CorpusName) : Option (StoreResult α) :=
  let r := st.findcorpus opts s
  match r.corpus with
  | none => some r
  | some p => do
    let c ← r.store.get? p
    let store := r.store.dropcorpus p
    if c.type = .sub then
      pure { store, log := r.log ++ [{ before := r.store, after := store, mother := c.motherName, name := c.name, data := none }] }
    else pure { store, log := r.log }

def runCommand : StoreCommand α → Option (StoreResult α)
  | .corpusCommand lhs cy expansion => do
    let r ← st.evalCY opts cy
    let r ← unnamed cy expansion r
    match lhs with
    | none => pure (activate opts cy r)
    | some lhs => named lhs r
  | .translate lhs s target f =>
    let r := st.findcorpus opts s
    match r.corpus, r.store.findLoaded target (some .system) with
    | some p, some cl => do
      let c ← r.store.get? p
      let t := r.store.tempWith cl "RHS".toList (f c.data cl.data)
      named lhs { store := t.1, log := r.log, corpus := some t.2 }
    | _, _ => some r
  | .undump s table => st.doUndump s table
  | .discard s => st.discard opts s

end QueryStore

/-- A session, with the assignments of all its commands. -/
def runCommands (opts : StoreOptions α) : QueryStore α → List (StoreCommand α) → Option (QueryStore α × List (Assignment α))
  | st, [] => some (st, [])
  | st, cmd :: cmds => do
    let r ← st.runCommand opts cmd
    let (store, log) ← runCommands opts r.store cmds
    pure (store, r.log ++ log)

/-! ## The map -/

/-- The entries before the assignment do not collide with it: no other mother corpus has a result
of this name, and where `assign_temp_to_sub` is to find the old result, it is looked up from its
own mother corpus. -/
def Assignment.Free (a : Assignment α) : Prop :=
  a.data.isSome → ∀ e ∈ a.before.corpuslist, e.type = .sub → e.name = a.name →
    e.motherName = a.mother ∧
      (a.viaTemp = true → '^' ∉ a.name ∧ ∀ mother, a.before.currentMother = some mother → mother = a.mother)

instance (a : Assignment α) : Decidable a.Free :=
  inferInstanceAs (Decidable (a.data.isSome → ∀ e ∈ a.before.corpuslist, e.type = .sub → e.name = a.name →
    e.motherName = a.mother ∧ (a.viaTemp = true → '^' ∉ a.name ∧ ∀ mother ∈ a.before.currentMother, mother = a.mother)))

/-- A session starts with system corpora only. -/
structure QueryStore.Initial (st : QueryStore α) : Prop where
  system : ∀ e ∈ st.corpuslist, e.type = .system
  ids : st.corpuslist.Pairwise fun e e' => e.id ≠ e'.id
  below : ∀ e ∈ st.corpuslist, e.id < st.nextId

/-- One entry for each pair, looked up by its qualified name; what was last assigned is there. -/
structure QueryStore.IsMap (st : QueryStore α) (last : CorpusName → CorpusName → Option α) : Prop where
  unique : (st.corpuslist.filter (·.type = .sub)).Pairwise fun e e' => (e.motherName, e.name) ≠ (e'.motherName, e'.name)
  lookup : ∀ mother name, mother ≠ [] → ':' ∉ mother → '^' ∉ name →
    (st.findLoaded (mother ++ ':' :: name) (some .sub)).map CorpusEntry.data = last mother name ∧
    ∀ data, last mother name = some data →
      ∃ e, st.findLoaded (mother ++ ':' :: name) none = some e ∧ e.type = .sub ∧ e.data = data

/-- No entry with another mother corpus or another name has changed. -/
def Assignment.Frame (a : Assignment α) : Prop :=
  ∀ e : CorpusEntry α, e.type = .sub → (e.motherName, e.name) ≠ (a.mother, a.name) →
    (e ∈ a.after.corpuslist ↔ e ∈ a.before.corpuslist)

end CWB

/-! `split_subcorpus_name` and `valid_subcorpus_name` of `cqp/corpmanag.c` with the loop over the
characters. Buffers are long enough, and `isalnum` is that of ASCII. -/

namespace CWB.SubcorpusName

/-- The test in the loop; it is applied to `corpusname[0]` in every round. -/
def nameChar (c : Char) : Bool := c.isAlphanum || c = '_' || c = '-' || c = '^' || c = '.'

/-- The loop from `corpusname[i]` on. The result is `mother_name` and the index of `mark`. -/
def splitLoop (corpusname : CorpusName) (first : Char) :
    CorpusName → ℕ → Bool → CorpusName → ℕ → Option (CorpusName × ℕ)
  | [], _, _, motherName, mark => some (motherName, mark)
  | c :: rest, i, afterColon, motherName, mark =>
    if c = ':' then
      if afterColon then none else splitLoop corpusname first rest (i + 1) true (corpusname.take i) (i + 1)
    else if nameChar first then splitLoop corpusname first rest (i + 1) afterColon motherName mark
    else none

/-- `split_subcorpus_name` with a buffer for the qualifier; the local name starts at `mark`. -/
def splitSubcorpusName (corpusname : CorpusName) : Option (CorpusName × CorpusName) :=
  match corpusname with
  | [] => none
  | first :: rest =>
    if nameStart first then (splitLoop corpusname first rest 1 false [] 0).map fun r => (r.1, corpusname.drop r.2)
    else none

def validSubcorpusName (corpusname : CorpusName) : Bool := (splitSubcorpusName corpusname).isSome

end CWB.SubcorpusName
