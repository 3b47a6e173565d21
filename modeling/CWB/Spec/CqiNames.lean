import CWB.Spec.CqiHandlers

/-! The naming conventions of `CQi/server.c` as the server checks them in memory. A name is a pointer
into memory; `none` stands for a check that reads beyond the end of it. A specifier is split into two
new strings, and other data follow each of them in memory. -/

namespace CWB.Cqi

open Split Terminated

/-- The scheme of the checks of names. -/
def checkNameAt (first rest : List Char) (name : List Char) : Option Bool := do
  let c ← name.head?
  if !strchrFinds '\x00' first c then pure false
  else do
    let n ← strspn '\x00' rest name.tail
    let len ← strlen '\x00' name.tail
    pure (n == len)

def checkCorpusNameAt (name : List Char) : Option Bool := checkNameAt idUcFirst idUc name

def checkAttributeNameAt (name : List Char) : Option Bool := checkNameAt idLcFirst idLc name

def checkSubcorpusNameAt (name : List Char) : Option Bool := checkNameAt idUcFirst idAll name

/-- What follows the terminators of the two strings that a specifier is split into. -/
structure Heap where
  behindFirst : List Char
  behindSecond : List Char

/-- The checks of two new strings, the second one if the first name is accepted. -/
def checkParts (check check' : List Char → Option Bool) (heap : Heap) (part part' : List Char) : Option Bool := do
  let ok ← check (part ++ '\x00' :: heap.behindFirst)
  if ok then check' (part' ++ '\x00' :: heap.behindSecond) else pure false

/-- `split_attribute_spec`; the inner `none` is the return value 0. -/
def splitAttributeSpecAt (heap : Heap) (spec : List Char) : Option (Option (CorpusName × CorpusName)) :=
  match splitAtFirst '.' spec with
  | none => some none
  | some (corpus, att) => do
    let ok ← checkParts checkCorpusNameAt checkAttributeNameAt heap corpus att
    pure (if ok then some (corpus, att) else none)

/-- `split_subcorpus_spec`. -/
def splitSubcorpusSpecAt (heap : Heap) (spec : List Char) : Option (Option (CorpusName × Option CorpusName)) :=
  match splitAtFirst ':' spec with
  | none => do
    let ok ← checkCorpusNameAt (spec ++ '\x00' :: heap.behindFirst)
    pure (if ok then some (spec, none) else none)
  | some (corpus, subcorpus) => do
    let ok ← checkParts checkCorpusNameAt checkSubcorpusNameAt heap corpus subcorpus
    pure (if ok then some (corpus, some subcorpus) else none)

/-- `combine_subcorpus_spec`. -/
def combineSpec (corpus : CorpusName) : Option CorpusName → List Char
  | none => corpus
  | some subcorpus => combineSubcorpusSpec corpus subcorpus

/-! ## The naming conventions -/

/-- The first character is in the first class and all others are in the general class. -/
def ValidName (first rest : List Char) : List Char → Prop
  | [] => False
  | c :: name => c ∈ first ∧ ∀ d ∈ name, d ∈ rest

def ValidCorpusName (name : List Char) : Prop := ValidName idUcFirst idUc name

def ValidAttributeName (name : List Char) : Prop := ValidName idLcFirst idLc name

def ValidSubcorpusName (name : List Char) : Prop := ValidName idUcFirst idAll name

/-- The check does not read beyond the terminator and accepts exactly the valid names. -/
def CheckExact (check : List Char → Option Bool) (Valid : List Char → Prop) (name : List Char) : Prop :=
  ∃ ok, check (name ++ ['\x00']) = some ok ∧ (ok = true ↔ Valid name)

/-- Whatever is in memory, `split_attribute_spec` succeeds with valid parts only. -/
def AttributeSplitSound (spec : List Char) : Prop :=
  ∀ heap corpus att, splitAttributeSpecAt heap spec = some (some (corpus, att)) →
    ValidCorpusName corpus ∧ ValidAttributeName att

def SubcorpusSplitSound (spec : List Char) : Prop :=
  ∀ heap corpus subcorpus, splitSubcorpusSpecAt heap spec = some (some (corpus, subcorpus)) →
    ValidCorpusName corpus ∧ ∀ name ∈ subcorpus, ValidSubcorpusName name

/-- One of the parts is empty, and the other one is empty as well or a valid name. -/
def EmptyPart (Valid Valid' : List Char → Prop) (part part' : List Char) : Prop :=
  part = [] ∧ (part' = [] ∨ Valid' part') ∨ Valid part ∧ part' = []

/-- Splitting the specifier gives an empty part. -/
def HasEmptyPart (sep : Char) (Valid Valid' : List Char → Prop) (spec : List Char) : Prop :=
  ∃ part part', splitAtFirst sep spec = some (part, part') ∧ EmptyPart Valid Valid' part part'

end CWB.Cqi

/-! Runs of attribute look-ups in `CQi/server.c`, from a new attribute hash on, and what a look-up
finds if nothing has been looked up before it. -/

namespace CWB.Cqi

open OpenAddressing

/-! ## Corpora -/

/-- `setup_attribute`: an attribute is declared in the registry. -/
def setupAttribute (corpus : Corpus) (name : CorpusName) (a : ClAttribute) : Corpus :=
  if (clNewAttribute corpus name a.type).isSome then corpus
  else { corpus with attributes := corpus.attributes ++ [(name, a)] }

/-- A corpus with the attributes that its registry entry declares, in their order. -/
def setupCorpus (id : ℕ) (declarations : List (CorpusName × ClAttribute)) : Corpus :=
  declarations.foldl (fun corpus d => setupAttribute corpus d.1 d.2) ⟨id, []⟩

/-! ## Look-ups -/

section Lookup

variable (env : CqiEnv)

/-- What `cqi_lookup_attribute` returns for a name that it has not seen before, with `cqi_errno`. -/
def freshLookup (store : QueryStore CorpusData) (name : CString) (type : AttType) : Option ClAttribute × CqiWord :=
  match splitAttributeSpec env (nameOf name) with
  | none => (none, .syntaxError)
  | some (corpusName, attributeName) =>
    match (store.findLoaded corpusName (some .system)).filter env.accessCorpus with
    | none => (none, .cqpNoSuchCorpus)
    | some cl =>
      match clNewAttribute cl.data.corpus attributeName type with
      | none => (none, .clNoSuchAttribute)
      | some a => (some a.1, .statusOk)

/-- An accessible corpus has the attribute of this name and type. -/
def AttributeNamed (store : QueryStore CorpusData) (name : CString) (type : AttType) (a : ClAttribute) : Prop :=
  ∃ corpusName attributeName cl, splitAttributeSpec env (nameOf name) = some (corpusName, attributeName) ∧
    store.findLoaded corpusName (some .system) = some cl ∧ env.accessCorpus cl = true ∧
    (attributeName, a) ∈ cl.data.corpus.attributes ∧ a.type = type

def ATTHASHSIZE : ℕ := 16384

/-- `make_attribute_hash` -/
def makeAttributeHash (size : ℕ) (st : CqiServer) : CqiServer :=
  { st with attHash := List.replicate (findPrime size) none }

/-- A sequence of look-ups; it has no result if the server exits. -/
def lookUps (requests : List (CString × AttType)) (st : CqiServer) : Option CqiServer :=
  requests.foldlM (fun st r => (cqiLookupAttribute env r.1 r.2 st).map Prod.snd) st

/-! ## Conditions -/

/-- One of the buckets that `att_hash_lookup` may look at is free or has the name, and no bucket with
the name holds an attribute of another type. -/
structure LookupReady (st : CqiServer) (name : CString) (type : AttType) : Prop where
  bucket : ∃ j < st.attHash.length / 5, StopsAt AttBucket.string st.attHash name
    ((hashString (name.bytes.map UInt8.ofBitVec) % st.attHash.length + j) % st.attHash.length)
  sameType : ∀ b, some b ∈ st.attHash → b.string = name → ∀ a ∈ b.att, a.type = type

/-- Each look-up of a sequence returns what a look-up without the earlier ones returns. -/
def AllFresh : List (CString × AttType) → CqiServer → Prop
  | [], _ => True
  | (name, type) :: requests, st =>
    ∃ st', cqiLookupAttribute env name type st = some ((freshLookup env st.store name type).1, st') ∧
      st'.cqiErrno = (freshLookup env st.store name type).2 ∧ AllFresh requests st'

/-- The condition is met before each look-up of a sequence. -/
def AllReady : List (CString × AttType) → CqiServer → Prop
  | [], _ => True
  | (name, type) :: requests, st =>
    LookupReady st name type ∧ ∀ result st', cqiLookupAttribute env name type st = some (result, st') → AllReady requests st'

/-- The names that have been looked up have buckets of their own, in which they are found ever after. -/
structure BucketsKept (requests : List (CString × AttType)) (st : CqiServer) : Prop where
  placed : ∀ r ∈ requests, ∃ p, Placed AttBucket.string st.attHash r.1 p
  found : ∀ more st', lookUps env more st = some st' → ∀ name p, Placed AttBucket.string st.attHash name p →
    attBucket st'.attHash name = some p
  apart : ∀ name name' p, attBucket st.attHash name = some p → Placed AttBucket.string st.attHash name' p → name = name'

end Lookup

end CWB.Cqi
