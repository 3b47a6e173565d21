import CWB.Library.Intervals
import CWB.Library.Separated
import CWB.Spec.Constraint
import CWB.Spec.Lexhash

/-! `utils/cwb-scan-corpus.c`: the key specifiers, the scan over ranges of corpus positions and
the table of n-gram frequencies. Regular expressions and the table of alphanumeric characters are
parameters. `none` stands for a program that stops with an error. -/

namespace CWB

open Split

/-! ## The corpus -/

/-- A region, with the offset of its annotation in the `.avs` data. -/
structure SRegion where
  start : ℤ
  stop : ℤ
  offset : ℤ := 0

/-- A structural attribute as the encoders write it: ascending disjoint regions, each different
annotation stored once, the annotation of the first region in front. -/
structure StrucAttribute where
  regions : List SRegion
  ascending : Intervals.Ascending SRegion.start SRegion.stop regions
  hasValues : Bool
  /-- the string at an offset of the `.avs` data -/
  avs : ℤ → String
  offset_lt : ∀ r ∈ regions, r.offset < 2 ^ 31
  first_le : ∀ first ∈ regions.head?, 0 ≤ first.offset ∧ ∀ r ∈ regions, first.offset ≤ r.offset
  stored_once : ∀ r ∈ regions, ∀ r' ∈ regions, avs r.offset = avs r'.offset → r.offset = r'.offset

structure ScanCorpus where
  size : ℕ
  size_lt : size < 2 ^ 31
  posAttribute : List Char → Option PAttribute
  posAttribute_size : ∀ name a, posAttribute name = some a → a.ids.length = size
  strucAttribute : List Char → Option StrucAttribute
  /-- `cl_new_regex` with the flags `IGNORE_CASE` and `IGNORE_DIAC`, and `cl_regex_match` -/
  newRegex : List Char → Bool → Bool → Option (String → Bool)
  utf8 : Bool
  /-- whether `regular_rx` matches -/
  regularRx : String → Bool
  /-- `cl_iso_char_is_alphanumeric` -/
  isAlphanumeric : Char → Bool

namespace ScanCorpus

variable (c : ScanCorpus)

/-- The loop of `scancorpus_word_is_regular`, one component in each round. -/
def regularLoop : ℕ → List Char → Bool
  | 0, _ => false
  | _, [] => false
  | fuel + 1, ch :: p =>
    let next :=
      if ch.isDigit then some ((ch :: p).dropWhile Char.isDigit)
      else if c.isAlphanumeric ch then some ((ch :: p).dropWhile c.isAlphanumeric)
      else none
    match next with
    | none => false
    | some [] => true
    | some (sep :: p) => if sep = '-' then regularLoop fuel p else false

/-- `scancorpus_word_is_regular`. -/
def wordIsRegular (s : String) : Bool :=
  match s.toList with
  | [] => false
  | ch :: _ => if ch = '-' then false else if c.utf8 then c.regularRx s else c.regularLoop s.length s.toList

end ScanCorpus

/-! ## Keys -/

structure RegexPart where
  isNegated : Bool
  regex : List Char
  ignoreCase : Bool
  ignoreDiac : Bool

/-- A key specifier, cut into its parts. -/
structure KeySpecifier where
  isConstraint : Bool
  att : List Char
  offset : ℕ
  regex : Option RegexPart

/-- The value of a string of digits. -/
def digitsValue (s : List Char) : ℕ := s.foldl (fun n ch => 10 * n + (ch.toNat - '0'.toNat)) 0

/-- `[!]=/<regex>/[cd]`, cut off a key: what is before it, and the regex part if there is one. -/
def readRegexPart (buf : List Char) : Option (List Char × Option RegexPart) :=
  match splitAtFirst '=' buf with
  | none => some (buf, none)
  | some (before, '/' :: regex) => do
    let isNegated := before.getLast? = some '!'
    let (regex, p) ← splitAtLast '/' regex
    if p.all fun ch => ch = 'c' || ch = 'd' then
      pure (if isNegated then before.dropLast else before, some ⟨isNegated, regex, 'c' ∈ p, 'd' ∈ p⟩)
    else none
  | some _ => none

/-- The first part of `scancorpus_add_key`. -/
def readKey (key : List Char) : Option KeySpecifier := do
  let isConstraint := key.head? = some '?'
  let (buf, regex) ← readRegexPart (if isConstraint then key.tail else key)
  match splitAtFirst '+' buf with
  | none => pure ⟨isConstraint, buf, 0, regex⟩
  | some (att, p) => if p.all Char.isDigit then pure ⟨isConstraint, att, digitsValue p, regex⟩ else none

inductive KeyAttribute where
  | pos (a : PAttribute)
  | struc (a : StrucAttribute)

/-- What `Hash` holds for one key. -/
structure ScanKey where
  isConstraint : Bool
  att : KeyAttribute
  offset : ℕ
  isNegated : Bool
  regex : Option (String → Bool)
  /-- `none` for `id_list_size` -1 -/
  idList : Option (List ℤ)

/-- `cl_regex2id`. -/
def clRegex2id (a : PAttribute) (regex : String → Bool) : List ℤ :=
  ((List.range a.lexsize).filter fun id => regex (a.id2str id)).map Int.ofNat

def ScanCorpus.compileRegex (c : ScanCorpus) : Option RegexPart → Option (Option (String → Bool))
  | none => some none
  | some r => (c.newRegex r.regex r.ignoreCase r.ignoreDiac).map some

/-- `scancorpus_add_key`. -/
def ScanCorpus.scancorpusAddKey (c : ScanCorpus) (checkWords : Bool) (key : List Char) : Option ScanKey := do
  let spec ← readKey key
  let regex ← c.compileRegex spec.regex
  let isNegated := spec.regex.any RegexPart.isNegated
  match c.posAttribute spec.att with
  | some a =>
    let idList := regex.map fun rx =>
      if checkWords && !spec.isConstraint then (clRegex2id a rx).filter fun id => c.wordIsRegular (a.id2str id.toNat)
      else clRegex2id a rx
    pure ⟨spec.isConstraint, .pos a, spec.offset, isNegated, regex, idList⟩
  | none => do
    let a ← c.strucAttribute spec.att
    if a.regions = [] then none
    else if !a.hasValues && !(spec.isConstraint && regex.isNone) then none
    else pure ⟨spec.isConstraint, .struc a, spec.offset, isNegated, regex, none⟩

/-! ## One key at one corpus position -/

/-- The state of a key on a structural attribute; `upcoming` are the regions after
`current_struc`. -/
structure RegionCursor where
  upcoming : List SRegion
  startCpos : ℤ := -1
  endCpos : ℤ := -1
  constraintOk : Bool := false
  virtualId : ℤ := 0

/-- `source_base`. -/
def StrucAttribute.sourceBase (a : StrucAttribute) : Option ℤ :=
  if a.hasValues then a.regions.head?.map SRegion.offset else none

/-- The string that stands for a region without annotation is never looked at. -/
def StrucAttribute.annotation (a : StrucAttribute) (r : SRegion) : String :=
  if a.hasValues then a.avs r.offset else "NULL"

def StrucAttribute.virtualId (a : StrucAttribute) (r : SRegion) : ℤ :=
  match a.sourceBase with
  | some base => r.offset - base
  | none => -1

/-- `cl_cpos2id`. -/
def PAttribute.clCpos2id (a : PAttribute) (cpos : ℤ) : ℤ :=
  match a.cpos2id cpos with
  | some id => id
  | none => -4

namespace ScanKey

variable (c : ScanCorpus) (checkWords : Bool) (key : ScanKey)

/-- The check of a lexicon ID against the constraint of the key. -/
def acceptId (a : PAttribute) (id : ℤ) : Bool :=
  match key.idList with
  | some [] => false
  | some idlist =>
    if idlist[BinarySearch.lowerBound id idlist]? = some id then !key.isNegated
    else if key.isNegated then !(checkWords && !key.isConstraint) || c.wordIsRegular (a.id2str id.toNat)
    else false
  | none => !checkWords || c.wordIsRegular (a.id2str id.toNat)

/-- `constraint_ok` of a region with this annotation. -/
def constraintOk (str : String) : Bool :=
  let ok := match key.regex with
    | none => true
    | some rx => if rx str then !key.isNegated else key.isNegated
  if checkWords && !key.isConstraint && !c.wordIsRegular str then false else ok

def enterRegion (a : StrucAttribute) (r : SRegion) (upcoming : List SRegion) : RegionCursor where
  upcoming
  startCpos := r.start
  endCpos := r.stop
  constraintOk := key.constraintOk c checkWords (a.annotation r)
  virtualId := a.virtualId r

/-- `next_cpos` after a region has been entered. -/
def jump (a : StrucAttribute) (cursor : RegionCursor) (nextCpos : ℤ) : ℤ :=
  if key.regex.isSome || a.sourceBase.isNone then
    max nextCpos ((if cursor.constraintOk then cursor.startCpos else cursor.endCpos + 1) - key.offset)
  else nextCpos

/-- The loop that goes on to the first region that does not end before `effectiveCpos`. -/
def advance (a : StrucAttribute) (effectiveCpos : ℤ) : List SRegion → RegionCursor → ℤ → RegionCursor × ℤ
  | [], cursor, nextCpos =>
    if cursor.endCpos < effectiveCpos then ({ upcoming := [], startCpos := c.size, endCpos := c.size, virtualId := -1 }, nextCpos)
    else (cursor, nextCpos)
  | r :: upcoming, cursor, nextCpos =>
    if cursor.endCpos < effectiveCpos then
      let cursor := key.enterRegion c checkWords a r upcoming
      advance a effectiveCpos upcoming cursor (key.jump a cursor nextCpos)
    else (cursor, nextCpos)

/-- One round of the loop over the keys, as long as `accept` is set: the state of the key,
`next_cpos`, `id` and `accept`. -/
def scan (cursor : RegionCursor) (cpos nextCpos : ℤ) : RegionCursor × ℤ × ℤ × Bool :=
  match key.att with
  | .pos a =>
    let id := a.clCpos2id (cpos + key.offset)
    (cursor, nextCpos, id, key.acceptId c checkWords a id)
  | .struc a =>
    let (cursor, nextCpos) := key.advance c checkWords a (cpos + key.offset) cursor.upcoming cursor nextCpos
    if cursor.startCpos ≤ cpos + key.offset then
      (cursor, nextCpos, cursor.virtualId, !(key.regex.isSome || checkWords) || cursor.constraintOk)
    else (cursor, nextCpos, -1, !(key.regex.isSome || key.isConstraint))

end ScanKey

/-! ## The scan -/

/-- All keys at one corpus position. -/
structure TupleScan where
  keys : List (ScanKey × RegionCursor)
  nextCpos : ℤ
  accept : Bool
  tuple : List ℤ

/-- The loop over the keys. -/
def scanKeys (c : ScanCorpus) (checkWords : Bool) (cpos : ℤ) : List (ScanKey × RegionCursor) → ℤ → Bool → TupleScan
  | [], nextCpos, accept => ⟨[], nextCpos, accept, []⟩
  | (key, cursor) :: keys, nextCpos, accept =>
    if accept then
      let (cursor, nextCpos, id, accept) := key.scan c checkWords cursor cpos nextCpos
      let r := scanKeys c checkWords cpos keys nextCpos accept
      { r with keys := (key, cursor) :: r.keys, tuple := if key.isConstraint then r.tuple else id :: r.tuple }
    else
      let r := scanKeys c checkWords cpos keys nextCpos accept
      { r with keys := (key, cursor) :: r.keys }

/-- `atoi`, where the value is an `int`. -/
def ScanCorpus.atoi (s : String) : Option ℤ :=
  let s := s.toList.dropWhile Char.isWhitespace
  let value := match s with
    | '-' :: s => -(digitsValue (s.takeWhile Char.isDigit) : ℤ)
    | '+' :: s => digitsValue (s.takeWhile Char.isDigit)
    | s => digitsValue (s.takeWhile Char.isDigit)
  if -2 ^ 31 ≤ value ∧ value < 2 ^ 31 then some value else none

/-- `frequency_values` and `frequency`. -/
abbrev FrequencyValues := Option (PAttribute × List ℤ)

def ScanCorpus.frequencyValues (c : ScanCorpus) (frequencyAtt : Option (List Char)) : Option FrequencyValues :=
  match frequencyAtt with
  | none => some none
  | some name => do
    let a ← c.posAttribute name
    let frequency ← a.lexicon.mapM fun strval => do
      let intval ← atoi strval
      if intval ≤ 0 then none else pure intval
    pure (some (a, frequency))

/-- What is added to the frequency of the tuple at a corpus position. -/
def FrequencyValues.frequencyAt (frequencies : FrequencyValues) (cpos : ℤ) : ℤ :=
  match frequencies with
  | none => 1
  | some (a, frequency) => frequency.getD (a.clCpos2id cpos).toNat 0

/-- The first `K` integers of the array `tuple`. -/
def ngramOf (K : ℕ) (tuple : List ℤ) : Vector UInt32 K :=
  Vector.ofFn fun k => (Int32.ofInt (tuple.getD k 0)).toUInt32

structure ScanState (K : ℕ) where
  keys : List (ScanKey × RegionCursor)
  table : NgramHash K

section Scan

variable (c : ScanCorpus) (checkWords : Bool) (fill : FillRate) (frequencies : FrequencyValues) {K : ℕ}

/-- One round of the scan loop, with `next_cpos`. -/
def scanPosition (st : ScanState K) (cpos : ℤ) : Option (ScanState K × ℤ) := do
  let r := scanKeys c checkWords cpos st.keys (cpos + 1) true
  let table ←
    if r.accept then clNgramHashAdd fill st.table (ngramOf K r.tuple) (Int32.ofInt (frequencies.frequencyAt cpos)).toUInt32
    else some st.table
  pure (⟨r.keys, table⟩, r.nextCpos)

/-- The scan loop for one range. -/
def scanLoop : ℕ → ℤ → ℤ → ScanState K → Option (ScanState K)
  | 0, _, _, st => some st
  | fuel + 1, cpos, endCpos, st =>
    if cpos ≤ endCpos then do
      let (st, nextCpos) ← scanPosition c checkWords fill frequencies st cpos
      scanLoop fuel nextCpos endCpos st
    else some st

/-- The loop over the ranges. -/
def scanRanges (maxOffset : ℕ) : ℤ → List (ℤ × ℤ) → ScanState K → Option (ScanState K)
  | _, [], st => some st
  | previousEnd, (startCpos, endCpos) :: ranges, st =>
    if startCpos ≤ previousEnd then none
    else if endCpos < startCpos then none
    else do
      let last := (if c.size ≤ endCpos then (c.size : ℤ) - 1 else endCpos) - maxOffset
      let st ← scanLoop c checkWords fill frequencies (last + 1 - startCpos).toNat startCpos last st
      scanRanges maxOffset endCpos ranges st

end Scan

structure ScanOptions where
  checkWords : Bool := false
  frequencyAtt : Option (List Char) := none
  nBuckets : ℤ := 0
  globalStart : ℤ := 0
  globalEnd : ℤ := -1
  /-- the ranges of the file given with `-R` -/
  rangesFile : Option (List (ℤ × ℤ)) := none

/-- The ranges that `get_next_range` delivers. -/
def ScanOptions.ranges (opts : ScanOptions) (size : ℕ) : List (ℤ × ℤ) :=
  match opts.rangesFile with
  | some ranges => ranges
  | none =>
    let globalEnd := if opts.globalEnd < 0 ∨ (size : ℤ) ≤ opts.globalEnd then (size : ℤ) - 1 else opts.globalEnd
    if globalEnd < 0 then [] else [(max opts.globalStart 0, globalEnd)]

/-- The keys that are part of the tuple. -/
def tupleKeys (keys : List ScanKey) : List ScanKey := keys.filter fun key => !key.isConstraint

/-- The largest offset of all keys. -/
def maxOffset (keys : List ScanKey) : ℕ := keys.foldl (fun m key => max m key.offset) 0

/-- The value that `print_ngram_entry` prints for an ID; `none` is printed as an empty string. -/
def ScanKey.valueOf (key : ScanKey) (id : ℤ) : Option String :=
  match key.att with
  | .pos a => some (a.id2str id.toNat)
  | .struc a => if id < 0 then none else a.sourceBase.map fun base => a.avs (base + id)

/-- The values of an entry and its frequency. -/
def entryRow (keys : List ScanKey) {K : ℕ} (entry : NgramHashEntry K) : List (Option String) × ℤ :=
  (((tupleKeys keys).zip entry.ngram.toList).map fun p => p.1.valueOf p.2.toInt32.toInt, entry.freq.toInt32.toInt)

def RegionCursor.initial (key : ScanKey) : RegionCursor where
  upcoming := match key.att with
    | .pos _ => []
    | .struc a => a.regions

/-- `main` up to the output, with all entries of the table. -/
def ScanCorpus.scanCorpus (c : ScanCorpus) (opts : ScanOptions) (fill : FillRate) (args : List (List Char)) :
    Option (List (List (Option String) × ℤ)) := do
  let keys ← args.mapM (c.scancorpusAddKey opts.checkWords)
  -- `cl_new_ngram_hash` does not accept 0
  if (tupleKeys keys).length = 0 then none
  else do
    let frequencies ← c.frequencyValues opts.frequencyAtt
    let table := clNewNgramHash (tupleKeys keys).length opts.nBuckets
    let st ← scanRanges c opts.checkWords fill frequencies (maxOffset keys) (-1) (opts.ranges c.size)
      { keys := keys.map fun key => (key, RegionCursor.initial key)
        table := { table with autoGrow := opts.nBuckets ≤ 0 } }
    let (entries, _) ← clNgramHashGetEntries st.table
    pure (entries.map (entryRow keys))

/-! ## The documented distribution -/

/-- The value of a key: the annotation of the token or of the region around it. -/
def ScanKey.value (key : ScanKey) (cpos : ℤ) : Option String :=
  match key.att with
  | .pos a => (a.cpos2id (cpos + key.offset)).map a.id2str
  | .struc a =>
    (Intervals.containing SRegion.start SRegion.stop (cpos + key.offset) a.regions).map a.annotation

/-- The constraints of a key. They fail outside the regions of a structural attribute; the filter
of `-C` is for values of keys that are part of the tuple. -/
def ScanKey.Holds (c : ScanCorpus) (checkWords : Bool) (key : ScanKey) (cpos : ℤ) : Prop :=
  match key.value cpos with
  | none => key.regex.isNone = true ∧ key.isConstraint = false
  | some str =>
    (∀ rx ∈ key.regex, (rx str = true ↔ key.isNegated = false)) ∧
      (checkWords = true → key.isConstraint = false → c.wordIsRegular str = true)

/-- The positions that are counted: the tuple is inside a range and all constraints hold. -/
structure Counted (c : ScanCorpus) (checkWords : Bool) (keys : List ScanKey) (ranges : List (ℤ × ℤ)) (cpos : ℤ) : Prop where
  inRange : ∃ r ∈ ranges, r.1 ≤ cpos ∧ cpos + maxOffset keys ≤ r.2
  inCorpus : 0 ≤ cpos ∧ cpos + maxOffset keys < c.size
  holds : ∀ key ∈ keys, key.Holds c checkWords cpos

def keyValues (keys : List ScanKey) (cpos : ℤ) : List (Option String) := (tupleKeys keys).map fun key => key.value cpos

open Classical in
/-- The frequency of a tuple of values. -/
noncomputable def jointFrequency (c : ScanCorpus) (checkWords : Bool) (keys : List ScanKey) (ranges : List (ℤ × ℤ))
    (frequencies : FrequencyValues) (values : List (Option String)) : ℤ :=
  (((List.range c.size).filter fun p : ℕ => Counted c checkWords keys ranges p ∧ keyValues keys p = values).map
    fun p : ℕ => frequencies.frequencyAt p).sum

/-- Each tuple that occurs is in the table once, with its frequency, and no other is. -/
structure IsDistribution (table : List (List (Option String) × ℤ)) (frequency : List (Option String) → ℤ) : Prop where
  once : (table.map Prod.fst).Nodup
  mem_iff : ∀ values f, (values, f) ∈ table ↔ f ≠ 0 ∧ f = frequency values

/-- Does the scan reject positions on account of this key although its constraints hold? The list of
matching IDs is empty, which a negated key takes for a failure, or the key is a mere `?att`, which
`-C` does apply to. -/
def ScanKey.Lost (c : ScanCorpus) (checkWords : Bool) (key : ScanKey) (cpos : ℤ) : Prop :=
  ∃ a, key.att = .pos a ∧
    ((∃ rx ∈ key.regex, key.isNegated = true ∧
      ∀ str ∈ a.lexicon, rx str = true → checkWords = true ∧ key.isConstraint = false ∧ c.wordIsRegular str = false) ∨
    (key.regex.isNone = true ∧ key.isConstraint = true ∧ checkWords = true ∧
      ∀ str ∈ key.value cpos, c.wordIsRegular str = false))

end CWB
