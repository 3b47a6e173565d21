import CWB.Library.RegionSearch
import CWB.Spec.CqiServer

/-! The access functions of `cl/cdaccess.c` with `cl_errno`: each returns its value together with
the error number that it leaves. A function that returns an `int` returns the error number, which
is negative, where it fails. What the files of an attribute hold is given by the sequence of its
items; each component may be missing. -/

namespace CWB.Cqi

/-- `CDA_OK` and the errors of `cl.h`, which count down from 0. -/
inductive Cda where
  | ok | enullatt | eatttype | eidorng | eposorng | eidxorng | enostring | epattern | estruc | ealign | eremote | enodata
  | eargs | enomem | eother | enyi | ebadregex | efsetinv | ebuffer | einternal | eaccess | eposix
deriving Repr, DecidableEq

def Cda.toInt (e : Cda) : ℤ := -e.ctorIdx

/-- The return of a function that fails with `e`. -/
def Cda.fail (e : Cda) : ℤ × Cda := (e.toInt, e)

/-- The components of a positional attribute. `sequence` are those of the item sequence, compressed
or not, `reversed` those of the reversed corpus. -/
inductive PosComponent where
  | sequence | lexicon | lexiconIdx | lexiconSrt | freqs | reversed
deriving Repr, DecidableEq

structure PosAttribute where
  ids : List ℕ
  lexicon : List CString
  /-- the sorted lexicon, by ID -/
  lexsrt : List ℕ
  ids_lt : ∀ id ∈ ids, id < lexicon.length
  occurs : ∀ id < lexicon.length, id ∈ ids
  length_lt : ids.length < 2 ^ 31
  /-- the components that can be loaded -/
  ensureComponent : PosComponent → Bool

structure StrucAttribute where
  regions : List (ℤ × ℤ)
  /-- region numbers and annotations, if there are any -/
  values : Option (List (ℤ × CString))
  strucData : Bool
  /-- whether the two components with the annotations can be loaded -/
  strucValues : Bool

/-- The data of an alignment attribute. In the old format each bead ends where the next begins, and
the last entry is the end of the last bead; `following` is what lies behind it in memory. -/
inductive AlignData where
  | align (boundaries : List (ℤ × ℤ)) (following : ℤ)
  | xalign (beads : List ((ℤ × ℤ) × (ℤ × ℤ)))

structure AlignAttribute where
  data : AlignData
  alignData : Bool

inductive ClAttribute where
  | pos (a : PosAttribute)
  | struc (a : StrucAttribute)
  | align (a : AlignAttribute)

inductive AttType where
  | none | pos | struc | align
deriving Repr, DecidableEq

def ClAttribute.type : ClAttribute → AttType
  | .pos _ => .pos
  | .struc _ => .struc
  | .align _ => .align

/-! Positional attributes. -/

def clMaxCpos : ClAttribute → ℤ × Cda
  | .pos a => if a.ensureComponent .sequence then (a.ids.length, .ok) else Cda.enodata.fail
  | .struc _ | .align _ => Cda.eatttype.fail

def clMaxId : ClAttribute → ℤ × Cda
  | .pos a => if a.ensureComponent .lexiconIdx then (a.lexicon.length, .ok) else Cda.enodata.fail
  | .struc _ | .align _ => Cda.eatttype.fail

def clId2str : ClAttribute → ℤ → Option CString × Cda
  | .pos a, id =>
    if ¬(a.ensureComponent .lexicon ∧ a.ensureComponent .lexiconIdx) then (none, .enodata)
    else if id < 0 ∨ id ≥ a.lexicon.length then (none, .eidorng)
    else (a.lexicon[id.toNat]?, .ok)
  | .struc _, _ | .align _, _ => (none, .eatttype)

/-- `cl_strcmp`, on signed characters -/
def clStrcmp : List CqiByte → List CqiByte → ℤ
  | [], [] => 0
  | [], b :: _ => -b.toInt
  | a :: _, [] => a.toInt
  | a :: s, b :: t => if a = b then clStrcmp s t else a.toInt - b.toInt

/-- `scompare`, on the IDs in the index that is being sorted -/
def scompare (lexicon : List CString) (idx1 idx2 : ℕ) : ℤ :=
  clStrcmp ((lexicon[idx1]?.map CString.bytes).getD []) ((lexicon[idx2]?.map CString.bytes).getD [])

/-- `creat_sort_lexicon`: ascending indices, sorted with `scompare`. -/
def creatSortLexicon (lexicon : List CString) : List ℕ :=
  (List.range lexicon.length).mergeSort fun idx1 idx2 => scompare lexicon idx1 idx2 ≤ 0

/-- The binary search in the sorted lexicon, with the rounds that are left. -/
def str2idLoop (a : PosAttribute) (str : CString) : ℕ → ℕ → ℕ → ℤ × Cda
  | 0, _, _ => Cda.eother.fail
  | nr + 1, low, high =>
    let mid := low + (high - low) / 2
    let comp := clStrcmp str.bytes ((a.lexicon[a.lexsrt.getD mid 0]?.map CString.bytes).getD [])
    if comp = 0 then (a.lexsrt.getD mid 0, .ok)
    else if mid = low then Cda.enostring.fail
    else if comp > 0 then str2idLoop a str nr mid high
    else str2idLoop a str nr low mid

/-- `cl_str2id`. In an empty lexicon the search reads behind the end of an empty file. -/
def clStr2id : ClAttribute → CString → Option (ℤ × Cda)
  | .pos a, str =>
    if ¬(a.ensureComponent .lexiconIdx ∧ a.ensureComponent .lexiconSrt ∧ a.ensureComponent .lexicon) then
      some Cda.enodata.fail
    else if a.lexicon = [] then none
    else some (str2idLoop a str 1000000 0 a.lexicon.length)
  | .struc _, _ | .align _, _ => some Cda.eatttype.fail

def clId2freq : ClAttribute → ℤ → ℤ × Cda
  | .pos a, id =>
    if ¬a.ensureComponent .freqs then Cda.enodata.fail
    else if 0 ≤ id ∧ id < a.lexicon.length then (a.ids.count id.toNat, .ok)
    else Cda.eidxorng.fail
  | .struc _, _ | .align _, _ => Cda.eatttype.fail

def clCpos2id : ClAttribute → ℤ → ℤ × Cda
  | .pos a, position =>
    if ¬a.ensureComponent .sequence then Cda.enodata.fail
    else if 0 ≤ position ∧ position < a.ids.length then (a.ids.getD position.toNat 0, .ok)
    else Cda.eposorng.fail
  | .struc _, _ | .align _, _ => Cda.eatttype.fail

def clCpos2str (att : ClAttribute) (position : ℤ) : Option CString × Cda :=
  let (id, errno) := clCpos2id att position
  if id < 0 ∨ errno ≠ .ok then (none, errno) else clId2str att id

/-- The positions of an item in the reversed corpus. -/
def PosAttribute.positions (a : PosAttribute) (id : ℕ) : List ℕ :=
  (List.range a.ids.length).filter fun cpos => a.ids[cpos]? = some id

/-- `cl_id2cpos` -/
def clId2cpos : ClAttribute → ℤ → Option (List ℕ) × Cda
  | .pos a, id =>
    let (size, errno) := clMaxCpos (.pos a)
    if size ≤ 0 ∨ errno ≠ .ok then (none, errno)
    else
      let (range, errno) := clMaxId (.pos a)
      if range ≤ 0 ∨ errno ≠ .ok then (none, errno)
      else if id < 0 ∨ id ≥ range then (none, .eidorng)
      else
        let (freq, errno) := clId2freq (.pos a) id
        if freq < 0 ∨ errno ≠ .ok then (none, errno)
        else if a.ensureComponent .reversed then (some (a.positions id.toNat), .ok)
        else (none, .enodata)
  | .struc _, _ | .align _, _ => (none, .eatttype)

/-- `cl_regex2id`, with the regular expression compiled by `newRegex`. -/
def clRegex2id (newRegex : CString → Option (CString → Bool)) : ClAttribute → CString → Option (List ℕ) × Cda
  | .pos a, pattern =>
    if ¬(a.ensureComponent .lexiconIdx ∧ a.ensureComponent .lexicon) then (none, .enodata)
    else match newRegex pattern with
      | none => (none, .ebadregex)
      | some rx =>
        let table := (List.range a.lexicon.length).filter fun id => a.lexicon[id]?.any rx
        (if table = [] then none else some table, .ok)
  | .struc _, _ | .align _, _ => (none, .eatttype)

/-- The loop of `cl_idlist2freq`; `sum` is an `int`. -/
def idlist2freqLoop (att : ClAttribute) : CInt → List ℤ → ℤ × Cda
  | sum, [] => (sum.toInt, .ok)
  | sum, id :: ids =>
    let (freq, errno) := clId2freq att id
    if errno ≠ .ok then errno.fail else idlist2freqLoop att (sum + BitVec.ofInt 32 freq) ids

/-- `cl_idlist2freq`; the empty list is a NULL pointer. -/
def clIdlist2freq : ClAttribute → List ℤ → ℤ × Cda
  | .pos a, ids => if ids = [] then Cda.enodata.fail else idlist2freqLoop (.pos a) 0 ids
  | .struc _, _ | .align _, _ => Cda.eatttype.fail

/-- The loop of `cl_idlist2cpos_oldstyle` over the IDs, with a table for `size` positions; `none`
if they do not fit into it, or fail to fill it. -/
def idlist2cposLoop (a : PosAttribute) (size : ℤ) : List ℕ → List ℤ → Option (Option (List ℕ) × Cda)
  | table, [] => if table.length = size then some (some table, .ok) else none
  | table, id :: ids =>
    if id < 0 ∨ id ≥ a.lexicon.length then some (none, .eidorng)
    else match clId2cpos (.pos a) id with
      | (none, errno) => if errno ≠ .ok then some (none, errno) else none
      | (some start, _) =>
        if (table ++ start).length ≤ size then idlist2cposLoop a size (table ++ start) ids else none

/-- `cl_idlist2cpos` -/
def clIdlist2cpos (sort : Bool) : ClAttribute → List ℤ → Option (Option (List ℕ) × Cda)
  | .pos a, ids =>
    if ¬a.ensureComponent .lexiconIdx ∨ ids = [] then some (none, .enodata)
    else
      let (size, errno) := clIdlist2freq (.pos a) ids
      if size < 0 ∨ errno ≠ .ok then some (none, errno)
      else if size > 0 then
        (idlist2cposLoop a size [] ids).map fun (table, errno) =>
          (table.map fun table => if sort then table.insertionSort (· ≤ ·) else table, errno)
      else some (none, .ok)
  | .struc _, _ | .align _, _ => some (none, .eatttype)

/-! Structural attributes. -/

/-- `cl_max_struc` -/
def clMaxStruc : ClAttribute → ℤ × Cda
  | .struc a => if a.strucData then (a.regions.length, .ok) else Cda.enodata.fail
  | .pos _ | .align _ => Cda.eatttype.fail

/-- The loop of `get_previous_mark`, with the rounds that are left. `ntohl` returns an unsigned number:
the difference is computed modulo `2 ^ 32` and stored in an `int`, the end is compared unsigned. -/
def previousMarkLoop (starts ends : ℤ → CInt) (position : CInt) : ℕ → ℤ → ℤ → Option ℤ
  | 0, _, _ => none
  | nr + 1, low, high =>
    if low ≤ high then
      let mid := (low + high) / 2
      let comp := (position - starts mid).toInt
      if comp = 0 then some mid
      else if comp > 0 then
        if position.toNat ≤ (ends mid).toNat then some mid
        else previousMarkLoop starts ends position nr (mid + 1) high
      else if mid = low then none
      else previousMarkLoop starts ends position nr low (mid - 1)
    else none

/-- `get_previous_mark`, the number of the region -/
def getPreviousMark (regions : List (ℤ × ℤ)) (position : ℤ) : Option ℤ :=
  previousMarkLoop (fun k => BitVec.ofInt 32 (regions.getD k.toNat (0, 0)).1)
    (fun k => BitVec.ofInt 32 (regions.getD k.toNat (0, 0)).2) (BitVec.ofInt 32 position) 100000 0 (regions.length - 1)

def clCpos2struc : ClAttribute → ℤ → ℤ × Cda
  | .struc a, position =>
    if ¬a.strucData then Cda.enodata.fail
    else match getPreviousMark a.regions position with
      | some struc => (struc, .ok)
      | none => Cda.estruc.fail
  | .pos _, _ | .align _, _ => Cda.eatttype.fail

def clStruc2cpos : ClAttribute → ℤ → Option (ℤ × ℤ) × Cda
  | .struc a, struc =>
    if ¬a.strucData then (none, .enodata)
    else if struc < 0 ∨ struc ≥ a.regions.length then (none, .eidxorng)
    else (a.regions[struc.toNat]?, .ok)
  | .pos _, _ | .align _, _ => (none, .eatttype)

/-- `cl_cpos2struc2cpos`: start and end of the region -/
def clCpos2struc2cpos : ClAttribute → ℤ → Option (ℤ × ℤ) × Cda
  | .struc a, position =>
    if ¬a.strucData then (none, .enodata)
    else match getPreviousMark a.regions position with
      | some struc => (a.regions[struc.toNat]?, .ok)
      | none => (none, .estruc)
  | .pos _, _ | .align _, _ => (none, .eatttype)

def STRUC_INSIDE : ℕ := 1

def STRUC_LBOUND : ℕ := 2

def STRUC_RBOUND : ℕ := 4

/-- `cl_cpos2boundary` -/
def clCpos2boundary (att : ClAttribute) (cpos : ℤ) : ℤ :=
  match clCpos2struc2cpos att cpos with
  | (some (start, stop), _) =>
    let flags := STRUC_INSIDE
    let flags := if cpos = start then flags ||| STRUC_LBOUND else flags
    let flags := if cpos = stop then flags ||| STRUC_RBOUND else flags
    flags
  | (none, errno) => if errno = .estruc then 0 else errno.toInt

/-- `cl_struc2str`; without annotations nothing sets the error number after `cl_struc_values`. -/
def clStruc2str : ClAttribute → ℤ → Option CString × Cda
  | .struc a, struc =>
    match a.values with
    | none => (none, .ok)
    | some values =>
      if ¬a.strucValues then (none, .enodata)
      else match values.find? (·.1 = struc) with
        | some value => (some value.2, .ok)
        | none => (none, .eidxorng)
  | .pos _, _ | .align _, _ => (none, .eatttype)

/-! Alignment attributes. -/

/-- `cl_max_alg` -/
def clMaxAlg : ClAttribute → ℤ × Cda
  | .align a =>
    if ¬a.alignData then Cda.enodata.fail
    else match a.data with
      | .align boundaries _ => ((boundaries.length : ℤ) - 1, .ok)
      | .xalign beads => (beads.length, .ok)
  | .pos _ | .struc _ => Cda.eatttype.fail

/-- The loop of `get_alignment`, with the rounds that are left; `none` is a read that `source` does not allow.
The test `mid * 2 < size` before the read of the next boundary holds in every round. -/
def getAlignmentLoop (source : ℤ → Option CInt) (position : CInt) : ℕ → ℤ → ℤ → Option ℤ
  | 0, _, _ => some (-1)
  | nr + 1, low, high =>
    if low ≤ high then do
      let mid := (low + high) / 2
      let start ← source mid
      let comp := (position - start).toInt
      if comp = 0 then some mid
      else if comp > 0 then do
        let next ← source (mid + 1)
        if position.toNat < next.toNat then some mid else getAlignmentLoop source position nr (mid + 1) high
      else if mid = low then some (-1)
      else getAlignmentLoop source position nr low (mid - 1)
    else some (-1)

/-- `get_alignment`; `none` if it reads behind the component's data. -/
def getAlignment (boundaries : List (ℤ × ℤ)) (position : ℤ) : Option ℤ :=
  getAlignmentLoop (fun k => boundaries[k.toNat]?.map fun boundary => BitVec.ofInt 32 boundary.1) (BitVec.ofInt 32 position)
    100000 0 (boundaries.length - 1)

/-- `get_alignment` where the component lies in memory before `following`. -/
def getAlignmentBefore (boundaries : List (ℤ × ℤ)) (following : ℤ) (position : ℤ) : ℤ :=
  (getAlignmentLoop (fun k => some (BitVec.ofInt 32 ((boundaries.map Prod.fst).getD k.toNat following)))
    (BitVec.ofInt 32 position) 100000 0 (boundaries.length - 1)).getD (-1)

/-- `get_extended_alignment` -/
def getExtendedAlignment (beads : List ((ℤ × ℤ) × (ℤ × ℤ))) (position : ℤ) : ℤ :=
  match RegionSearch.search (fun k => (beads.getD k.toNat ((0, 0), 0, 0)).1.1)
      (fun k => (beads.getD k.toNat ((0, 0), 0, 0)).1.2) position 100000 0 (beads.length - 1) with
  | none => -1
  | some alg => alg.getD Cda.ealign.toInt

def clCpos2alg : ClAttribute → ℤ → ℤ × Cda
  | .align a, cpos =>
    if ¬a.alignData then Cda.enodata.fail
    else match a.data with
      | .align boundaries following =>
        let alg := getAlignmentBefore boundaries following cpos
        if alg ≥ 0 then (alg, .ok) else Cda.eposorng.fail
      | .xalign beads =>
        let alg := getExtendedAlignment beads cpos
        (alg, if alg ≥ 0 then .ok else .ealign)
  | .pos _, _ | .struc _, _ => Cda.eatttype.fail

/-- `cl_alg2cpos`: start and end of the source and the target region. -/
def clAlg2cpos : ClAttribute → ℤ → Option (ℤ × ℤ × ℤ × ℤ) × Cda
  | .align a, alg =>
    if ¬a.alignData then (none, .enodata)
    else match a.data with
      | .align boundaries _ =>
        if alg < 0 ∨ alg ≥ (boundaries.length : ℤ) - 1 then (none, .eidxorng)
        else
          let start := boundaries.getD alg.toNat (0, 0)
          let next := boundaries.getD (alg.toNat + 1) (0, 0)
          (some (start.1, next.1 - 1, start.2, next.2 - 1), .ok)
      | .xalign beads =>
        if alg < 0 ∨ alg ≥ beads.length then (none, .eidxorng)
        else
          let bead := beads.getD alg.toNat ((0, 0), 0, 0)
          (some (bead.1.1, bead.1.2, bead.2.1, bead.2.2), .ok)
  | .pos _, _ | .struc _, _ => (none, .eatttype)

end CWB.Cqi
