import CWB.Library.Comparators
import CWB.Spec.CqiHandlers
import CWB.Spec.ScanCorpus

/-! The group command, `cqp/groups.c`: the IDs of the two anchors of each match are counted, and
the cells that reach the cutoff frequency are sorted. `none` stands for a program that stops with
an error. -/

namespace CWB

open Comparators

inductive FieldType where
  | keywordField | targetField | matchField | matchEndField | noField
deriving DecidableEq

/-- An attribute that `compute_grouping` accepts; `base` is the string of the first region. -/
inductive GroupAttribute where
  | pos (a : PAttribute) (length_lt : a.ids.length < 2 ^ 31)
  | struc (a : StrucAttribute) (base : ℤ) (base_eq : a.sourceBase = some base)

/-- The source or the target of a group; there is no attribute only where there is no field. -/
structure GroupKey where
  field : FieldType
  offset : ℤ
  attr : Option GroupAttribute
  attr_none : attr = none → field = .noField

structure Group where
  /-- the lines of `my_corpus` -/
  range : List Match
  nonempty : range ≠ []
  length_lt : range.length < 2 ^ 31
  source : GroupKey
  target : GroupKey
  cutoffFrequency : ℤ
  cutoff_range : -2 ^ 31 ≤ cutoffFrequency ∧ cutoffFrequency < 2 ^ 31
  isGrouped : Bool
  /-- the bytes of a string in the character set of the corpus -/
  bytes : String → List UInt8

structure IDCountMapping where
  s : ℤ
  t : ℤ
  freq : ℤ
  sFreq : ℤ
deriving DecidableEq

def ANY_ID : ℤ := -2

/-- `cl_cpos2struc2str`: where the string of the region around a position is stored. -/
def StrucAttribute.clCpos2struc2str (a : StrucAttribute) (cpos : ℤ) : Option ℤ :=
  (Intervals.containing SRegion.start SRegion.stop cpos a.regions).map SRegion.offset

namespace GroupKey

variable (key : GroupKey)

/-- The position of a match that is looked at, after the offset has been added as an `int`. -/
def position (m : Match) : ℤ :=
  let pos := match key.field with
    | .keywordField => m.keyword
    | .targetField => m.target
    | .matchField => m.start
    | .matchEndField => m.stop
    | .noField => ANY_ID
  if pos ≥ 0 then (pos + key.offset).bmod (2 ^ 32) else pos

def getGroupId (m : Match) : ℤ :=
  let pos := key.position m
  if pos < 0 then -1
  else match key.attr with
    | some (.struc a base _) =>
      match a.clCpos2struc2str pos with
      | some str => str - base
      | none => -1
    | some (.pos a _) => a.clCpos2id pos
    | none => -1

def groupId2str (id : ℤ) : String :=
  if id = ANY_ID then "(all)"
  else if id < 0 then "(none)"
  else match key.attr with
    | some (.struc a base _) => a.avs (base + id)
    | some (.pos a _) => a.id2str id.toNat
    | none => "(none)"

end GroupKey

namespace Group

variable (group : Group)

/-- `cl_strcmp` of two displayed strings, byte by byte as signed characters. -/
def clStrcmp (w1 w2 : String) : ℤ :=
  strcmp (terminated ((group.bytes w1).map fun c => c.toInt8.toInt))
    (terminated ((group.bytes w2).map fun c => c.toInt8.toInt))

def compareCells (cell1 cell2 : IDCountMapping) : ℤ :=
  let source := fun c c' : IDCountMapping =>
    group.clStrcmp (group.source.groupId2str c.s) (group.source.groupId2str c'.s)
  let target := fun c c' : IDCountMapping =>
    group.clStrcmp (group.target.groupId2str c.t) (group.target.groupId2str c'.t)
  let sFreq := fun c c' : IDCountMapping => descending c.sFreq c'.sFreq
  let freq := fun c c' : IDCountMapping => descending c.freq c'.freq
  if group.isGrouped then thenBy sFreq (thenBy source (thenBy freq target)) cell1 cell2
  else thenBy freq (thenBy source target) cell1 cell2

/-- The loop over the matches, with the tables `pairs` and `groups`. -/
def countMatches (fill : FillRate) : Option (NgramHash 2 × NgramHash 1) :=
  group.range.foldlM
    (fun (pairs, groups) m => do
      let s_t := [group.source.getGroupId m, group.target.getGroupId m]
      let pairs ← clNgramHashAdd fill pairs (ngramOf 2 s_t) 1
      let groups ← clNgramHashAdd fill groups (ngramOf 1 s_t) 1
      pure (pairs, groups))
    (clNewNgramHash 2 0, clNewNgramHash 1 0)

/-- `item->freq >= group->cutoff_frequency`, where the cutoff becomes an `unsigned int`. -/
def reachesCutoff (item : NgramHashEntry 2) : Bool := (Int32.ofInt group.cutoffFrequency).toUInt32 ≤ item.freq

def cellOf (groups : NgramHash 1) (item : NgramHashEntry 2) : IDCountMapping where
  s := item.ngram[0].toInt32.toInt
  t := item.ngram[1].toInt32.toInt
  freq := item.freq.toInt32.toInt
  sFreq := (clNgramHashFreq groups #v[item.ngram[0]]).toInt32.toInt

/-- `ComputeGroupInternally`: the sorted `count_cells`. The iterator returns the entries of the
table bucket by bucket. -/
def computeGroupInternally (fill : FillRate) : Option (List IDCountMapping) := do
  let (pairs, groups) ← group.countMatches fill
  let countCells := (pairs.table.flatten.filter group.reachesCutoff).map (cellOf groups)
  pure (countCells.mergeSort fun cell1 cell2 => group.compareCells cell1 cell2 ≤ 0)

end Group

end CWB

/-! `compute_grouping` of `cqp/groups.c` with its two implementations, as the CQi server calls it for
`CQI_CQP_FDIST_1` and `CQI_CQP_FDIST_2`: without offsets, and never for a grouped display. The attributes of
a corpus and the external command are parameters. -/

namespace CWB

namespace Group

variable (group : Group)

def usesStruc : GroupKey → Bool
  | ⟨_, _, some (.struc _ _ _), _⟩ => true
  | _ => false

/-- The lines of the temporary file. -/
def groupLines : List (ℤ × ℤ) := group.range.map fun m => (group.source.getGroupId m, group.target.getGroupId m)

/-- `ComputeGroupExternally`: `command` is what is read from the pipe, a frequency and two IDs at a time,
where the file could be written and the pipe opened. -/
def computeGroupExternally (command : List (ℤ × ℤ) → Option (List (ℤ × ℤ × ℤ))) : List IDCountMapping :=
  (((command group.groupLines).getD []).filter fun line => group.cutoffFrequency < line.1).map fun line =>
    { s := line.2.1, t := line.2.2, freq := line.1, sFreq := 0 }

end Group

namespace Cqi

/-- What `compute_grouping` uses besides the query result. -/
structure GroupAccess where
  /-- `find_attribute` for `ATT_POS` -/
  posAttribute : Corpus → CString → Option PAttribute
  posAttribute_length : ∀ corpus name a, posAttribute corpus name = some a → a.ids.length < 2 ^ 31
  /-- `find_attribute` for `ATT_STRUC` -/
  strucAttribute : Corpus → CString → Option CWB.StrucAttribute
  /-- `UseExternalGrouping && !insecure` -/
  useExternalGrouping : Bool
  /-- the pipe of `ExternalGroupingCommand` -/
  externalCommand : List (ℤ × ℤ) → Option (List (ℤ × ℤ × ℤ))
  fill : FillRate
  bytes : Corpus → String → List UInt8

/-- A line of the query result. -/
def matchAt (cl : Entry) (i : ℕ) : Match where
  start := (cl.data.range.getD i (0, 0)).1
  stop := (cl.data.range.getD i (0, 0)).2
  target := anchorVector cl.data.targets i
  keyword := anchorVector cl.data.keywords i

def matchesOf (cl : Entry) : List Match := (List.range cl.data.range.length).map (matchAt cl)

/-- Can the matches be grouped by this field? -/
def hasField (cl : Entry) : AnchorField → Bool
  | .keywordField => cl.data.keywords.isSome
  | .targetField => cl.data.targets.isSome
  | .matchField | .matchEndField => true

def fieldType : AnchorField → FieldType
  | .matchField => .matchField
  | .matchEndField => .matchEndField
  | .targetField => .targetField
  | .keywordField => .keywordField

namespace GroupAccess

variable (access : GroupAccess)

/-- The attribute of a field, with the beginning of its annotations for an s-attribute; there is none
for an s-attribute without annotations. -/
def groupAttribute (corpus : Corpus) (name : CString) : Option GroupAttribute :=
  match h : access.posAttribute corpus name with
  | some a => some (.pos a (access.posAttribute_length corpus name a h))
  | none => do
    let a ← access.strucAttribute corpus name
    match h : a.sourceBase with
    | some base => some (.struc a base h)
    | none => none

/-- A field with its attribute. -/
def groupKey (cl : Entry) (key : AnchorField × CString) : Option GroupKey := do
  let attr ← access.groupAttribute cl.data.corpus key.2
  if hasField cl key.1 then some ⟨fieldType key.1, 0, some attr, by simp⟩ else none

/-- The source may be left out. -/
def sourceKey (cl : Entry) : Option (AnchorField × CString) → Option GroupKey
  | none => some ⟨.noField, 0, none, fun _ => rfl⟩
  | some key => access.groupKey cl key

/-- The group that is set up; none if the corpus is empty, or a field or an attribute is missing. -/
def setUp (cl : Entry) (source : Option (AnchorField × CString)) (target : AnchorField × CString) (cutoffFreq : CInt) :
    Option Group :=
  if h : cl.data.range = [] then none
  else do
    let source ← access.sourceKey cl source
    let target ← access.groupKey cl target
    some
      { range := matchesOf cl
        nonempty := by simpa [matchesOf] using h
        length_lt := by simpa [matchesOf] using cl.data.size_lt
        source
        target
        cutoffFrequency := cutoffFreq.toInt
        cutoff_range := ⟨BitVec.le_toInt cutoffFreq, BitVec.toInt_lt⟩
        isGrouped := false
        bytes := access.bytes cl.data.corpus }

/-- `UseExternalGrouping && !insecure && !(source_is_struc || target_is_struc || is_grouped)` -/
def groupsExternally (group : Group) : Bool :=
  access.useExternalGrouping && !(Group.usesStruc group.source || Group.usesStruc group.target || group.isGrouped)

def computeGroup (group : Group) : Option (List IDCountMapping) :=
  if access.groupsExternally group then some (group.computeGroupExternally access.externalCommand)
  else group.computeGroupInternally access.fill

def sentCell (cell : IDCountMapping) : GroupCell where
  s := BitVec.ofInt 32 cell.s
  t := BitVec.ofInt 32 cell.t
  freq := BitVec.ofInt 32 cell.freq

/-- `compute_grouping`; `nr_cells` is an `int`. -/
def computeGrouping (cl : Entry) (source : Option (AnchorField × CString)) (target : AnchorField × CString) (cutoffFreq : ℤ) :
    Option (CList GroupCell) := do
  let group ← access.setUp cl source target (BitVec.ofInt 32 cutoffFreq)
  let cells ← access.computeGroup group
  if h : (cells.map sentCell).length < 2 ^ 31 then some ⟨cells.map sentCell, h⟩ else none

end GroupAccess

/-! ## The two requests -/

/-- A request for a frequency distribution with valid fields. -/
inductive FdistRequest where
  | fdist1 (field : AnchorField) (att : CString)
  | fdist2 (field1 : AnchorField) (att1 : CString) (field2 : AnchorField) (att2 : CString)

/-- The byte that `cqi_field_name` knows for a field. -/
def fieldByte : AnchorField → CqiByte
  | .matchField => 0x10
  | .matchEndField => 0x11
  | .targetField => 0x00
  | .keywordField => 0x09

namespace FdistRequest

def source : FdistRequest → Option (AnchorField × CString)
  | .fdist1 _ _ => none
  | .fdist2 field1 att1 _ _ => some (field1, att1)

def target : FdistRequest → AnchorField × CString
  | .fdist1 field att => (field, att)
  | .fdist2 _ _ field2 att2 => (field2, att2)

/-- The handler of the request. -/
def handler (env : CqiEnv) (subcorpus : CString) (cutoff : CInt) : FdistRequest → Handler
  | .fdist1 field att => doCqiCqpFdist1 env subcorpus cutoff (fieldByte field) att
  | .fdist2 field1 att1 field2 att2 => doCqiCqpFdist2 env subcorpus cutoff (fieldByte field1) att1 (fieldByte field2) att2

/-- The row of the table for a pair of IDs and its frequency. -/
def row (s t freq : CInt) : FdistRequest → List CInt
  | .fdist1 _ _ => [t, freq]
  | .fdist2 _ _ _ _ => [s, t, freq]

/-- The reply with these rows. -/
def tableReply (request : FdistRequest) (rows : List (List CInt)) : List CqiValue :=
  sentWord .dataIntTable :: .int (BitVec.ofNat 32 rows.length) :: .int (BitVec.ofNat 32 (request.row 0 0 0).length) ::
    rows.flatten.map .int

end FdistRequest

end Cqi

end CWB
