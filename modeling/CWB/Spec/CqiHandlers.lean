import CWB.Spec.ClAccess
import CWB.Spec.Eval
import CWB.Spec.Lexhash
import CWB.Spec.QueryStore

/-! The handlers of `CQi/cqpserver.c` for the commands of the groups `CQI_CL` and `CQI_CQP`, with
the look-up functions of `CQi/server.c`. A handler reads its arguments from the connection and
returns what it sends; it returns nothing if the server exits. The CQP parser, the grouping of
`cqp/groups.c` and the compilation of regular expressions are parameters. -/

namespace CWB.Cqi

open Split

/-- The status, error and data words that the handlers send. -/
inductive CqiWord where
  | statusOk
  | generalError | syntaxError
  | dataBool | dataInt | dataIntList | dataStringList | dataIntInt | dataIntIntIntInt | dataIntTable
  | clNoSuchAttribute | clWrongAttributeType | clOutOfRange | clRegex | clCorpusAccess | clOutOfMemory | clInternal
  | cqpGeneral | cqpNoSuchCorpus | cqpInvalidField | cqpOutOfRange
deriving Repr, DecidableEq

def CqiWord.toWord : CqiWord → BitVec 16
  | statusOk => 0x0101
  | generalError => 0x0201
  | syntaxError => 0x0204
  | dataBool => 0x0302
  | dataInt => 0x0303
  | dataIntList => 0x0307
  | dataStringList => 0x0308
  | dataIntInt => 0x0309
  | dataIntIntIntInt => 0x030A
  | dataIntTable => 0x030B
  | clNoSuchAttribute => 0x0401
  | clWrongAttributeType => 0x0402
  | clOutOfRange => 0x0403
  | clRegex => 0x0404
  | clCorpusAccess => 0x0405
  | clOutOfMemory => 0x0406
  | clInternal => 0x0407
  | cqpGeneral => 0x0501
  | cqpNoSuchCorpus => 0x0502
  | cqpInvalidField => 0x0503
  | cqpOutOfRange => 0x0504

/-- The groups `CQI_ERROR`, `CQI_CL_ERROR` and `CQI_CQP_ERROR` -/
def CqiWord.isError (w : CqiWord) : Bool := w.toWord.toNat / 256 ∈ [0x02, 0x04, 0x05]

/-- A word that is sent -/
def sentWord (w : CqiWord) : CqiValue := .word w.toWord

/-! ## The server -/

structure Corpus where
  id : ℕ
  attributes : List (CorpusName × ClAttribute)

/-- `find_attribute` -/
def clNewAttribute (corpus : Corpus) (name : CorpusName) (type : AttType) : Option {a : ClAttribute // a.type = type} :=
  corpus.attributes.findSome? fun a => if h : a.1 = name ∧ a.2.type = type then some ⟨a.2, h.2⟩ else none

/-- What an entry of the corpus list holds. -/
structure CorpusData where
  corpus : Corpus
  range : List (ℤ × ℤ)
  targets : Option (List ℤ)
  keywords : Option (List ℤ)
  targets_length : ∀ t ∈ targets, t.length = range.length
  keywords_length : ∀ k ∈ keywords, k.length = range.length
  size_lt : range.length < 2 ^ 31

abbrev Entry := CorpusEntry CorpusData

/-- A bucket of the attribute hash. -/
structure AttBucket where
  string : CString
  att : Option ClAttribute
  type : AttType
  type_eq : ∀ a ∈ att, a.type = type

theorem AttBucket.type_none : ∀ a ∈ (none : Option ClAttribute), a.type = .none := by simp

/-- The global variables; `attHash` holds `none` in a bucket that has not been initialised. -/
structure CqiServer where
  clErrno : Cda
  cqiErrno : CqiWord
  errorString : String
  attHash : List (Option AttBucket)
  store : QueryStore CorpusData

/-- The return of `yyparse` for the first command of the input: its status, what remains of the
input, the corpora after it, and whether the command has been carried out (`generate_code` is
still set). -/
structure Yyparse where
  status : ℤ
  rest : List Char
  store : QueryStore CorpusData
  carriedOut : Bool

structure GroupCell where
  s : CInt
  t : CInt
  freq : CInt

structure CqiEnv where
  accessCorpus : Entry → Bool
  newRegex : CString → Option (CString → Bool)
  /-- `compute_grouping`, with its source (if any), its target and its cutoff -/
  computeGrouping : Entry → Option (AnchorField × CString) → AnchorField × CString → ℤ → Option (CList GroupCell)
  yyparse : QueryStore CorpusData → List Char → Yyparse
  /-- what follows the terminator of an empty string in memory, up to the next null byte -/
  behind : List Char

abbrev Handler := CqiServer → Option (List CqiValue × CqiServer)

/-! ## Replies -/

def cqiCommand (command : CqiWord) : Handler := fun st => some ([sentWord command], st)

/-- `cqi_command(cqi_errno)` -/
def cqiErrnoCommand : Handler := fun st => cqiCommand st.cqiErrno st

def cqiGeneralError (errstring : String) : Handler := fun st =>
  cqiCommand .generalError { st with errorString := errstring }

def cqiDataBool (b : Bool) : Handler := fun st => some ([sentWord .dataBool, .bool b], st)

def cqiDataInt (n : ℤ) : Handler := fun st => some ([sentWord .dataInt, .int (BitVec.ofInt 32 n)], st)

def cqiDataIntInt (n m : ℤ) : Handler := fun st =>
  some ([sentWord .dataIntInt, .int (BitVec.ofInt 32 n), .int (BitVec.ofInt 32 m)], st)

def cqiDataIntIntIntInt (n m k l : ℤ) : Handler := fun st =>
  some ([sentWord .dataIntIntIntInt, .int (BitVec.ofInt 32 n), .int (BitVec.ofInt 32 m), .int (BitVec.ofInt 32 k),
    .int (BitVec.ofInt 32 l)], st)

/-- `cqi_data_int_list` -/
def cqiDataIntList (list : List ℕ) : Handler := fun st =>
  some (sentWord .dataIntList :: .int (BitVec.ofNat 32 list.length) :: list.map fun n => .int (BitVec.ofNat 32 n), st)

/-- A string; a NULL pointer is sent like the empty string. -/
def sentString (str : Option CString) : CqiValue := .string (str.getD ⟨[], CString.noNull_nil⟩)

/-- `send_cl_error`. The server exits if there is no error, or one that has no CQi error code. -/
def sendClError : Handler := fun st =>
  match st.clErrno with
  | .eatttype => cqiCommand .clWrongAttributeType st
  | .eidorng | .eidxorng | .eposorng => cqiCommand .clOutOfRange st
  | .epattern | .ebadregex => cqiCommand .clRegex st
  | .enodata => cqiCommand .clCorpusAccess st
  | .enomem => cqiCommand .clOutOfMemory st
  | .eother | .enyi => cqiCommand .clInternal st
  | .ok | .enullatt | .enostring | .estruc | .ealign | .eremote | .eargs | .efsetinv | .ebuffer | .einternal | .eaccess
  | .eposix => none

/-! ## Names -/

def nameOf (str : CString) : CorpusName := str.bytes.map fun b => Char.ofNat b.toNat

def idUcFirst : List Char := "ABCDEFGHIJKLMNOPQRSTUVWXYZ_".toList
def idUc : List Char := "ABCDEFGHIJKLMNOPQRSTUVWXYZ_-0123456789".toList
def idLcFirst : List Char := "abcdefghijklmnopqrstuvwxyz_".toList
def idLc : List Char := "abcdefghijklmnopqrstuvwxyz_-0123456789".toList
def idAll : List Char := "ABCDEFGHIJKLMNOPQRSTUVWXYZabcdefghijklmnopqrstuvwxyz_-0123456789".toList

/-! The classes of characters as lists. -/

theorem idUcFirst_eq : idUcFirst =
    ['A', 'B', 'C', 'D', 'E', 'F', 'G', 'H', 'I', 'J', 'K', 'L', 'M', 'N', 'O', 'P', 'Q', 'R', 'S', 'T', 'U', 'V',
     'W', 'X', 'Y', 'Z', '_'] :=
  String.toList_ofList

theorem idUc_eq : idUc =
    ['A', 'B', 'C', 'D', 'E', 'F', 'G', 'H', 'I', 'J', 'K', 'L', 'M', 'N', 'O', 'P', 'Q', 'R', 'S', 'T', 'U', 'V',
     'W', 'X', 'Y', 'Z', '_', '-', '0', '1', '2', '3', '4', '5', '6', '7', '8', '9'] :=
  String.toList_ofList

theorem idAll_eq : idAll =
    ['A', 'B', 'C', 'D', 'E', 'F', 'G', 'H', 'I', 'J', 'K', 'L', 'M', 'N', 'O', 'P', 'Q', 'R', 'S', 'T', 'U', 'V',
     'W', 'X', 'Y', 'Z', 'a', 'b', 'c', 'd', 'e', 'f', 'g', 'h', 'i', 'j', 'k', 'l', 'm', 'n', 'o', 'p', 'q', 'r',
     's', 't', 'u', 'v', 'w', 'x', 'y', 'z', '_', '-', '0', '1', '2', '3', '4', '5', '6', '7', '8', '9'] :=
  String.toList_ofList

theorem idLcFirst_eq : idLcFirst =
    ['a', 'b', 'c', 'd', 'e', 'f', 'g', 'h', 'i', 'j', 'k', 'l', 'm', 'n', 'o', 'p', 'q', 'r', 's', 't', 'u', 'v',
     'w', 'x', 'y', 'z', '_'] :=
  String.toList_ofList

theorem idLc_eq : idLc =
    ['a', 'b', 'c', 'd', 'e', 'f', 'g', 'h', 'i', 'j', 'k', 'l', 'm', 'n', 'o', 'p', 'q', 'r', 's', 't', 'u', 'v',
     'w', 'x', 'y', 'z', '_', '-', '0', '1', '2', '3', '4', '5', '6', '7', '8', '9'] :=
  String.toList_ofList

section Names

variable (env : CqiEnv)

/-- The scheme of the checks of names: `strchr` also finds the terminator of an empty name, and
`strspn` then goes on behind it. -/
def checkName (first rest : List Char) : List Char → Bool
  | [] => env.behind.all (· ∈ rest)
  | c :: cs => decide (c ∈ first) && cs.all (· ∈ rest)

def checkCorpusName (name : CorpusName) : Bool := checkName env idUcFirst idUc name

def checkAttributeName (name : CorpusName) : Bool := checkName env idLcFirst idLc name

def checkSubcorpusName (name : CorpusName) : Bool := checkName env idUcFirst idAll name

def splitAttributeSpec (spec : List Char) : Option (CorpusName × CorpusName) :=
  match splitAtFirst '.' spec with
  | none => none
  | some (corpus, att) => if checkCorpusName env corpus && checkAttributeName env att then some (corpus, att) else none

def splitSubcorpusSpec (spec : List Char) : Option (CorpusName × Option CorpusName) :=
  let (corpus, subcorpus) := match splitAtFirst ':' spec with
    | none => (spec, none)
    | some (corpus, subcorpus) => (corpus, some subcorpus)
  if checkCorpusName env corpus && subcorpus.all (checkSubcorpusName env) then some (corpus, subcorpus) else none

def combineSubcorpusSpec (corpus subcorpus : CorpusName) : List Char := corpus ++ ':' :: subcorpus

/-! ## Look-up -/

/-- The probes of `att_hash_lookup` from the bucket `p` on, with the number that are left. -/
def probe (space : List (Option AttBucket)) (str : CString) : ℕ → ℕ → Option ℕ
  | 0, _ => none
  | i + 1, p =>
    let p := if p ≥ space.length then 0 else p
    match space[p]? with
    | none => none
    | some none => some p
    | some (some b) => if b.string = str then some p else probe space str i (p + 1)

/-- The bucket that `att_hash_lookup` finds for a string; none if there are too many collisions. -/
def attBucket (space : List (Option AttBucket)) (str : CString) : Option ℕ :=
  probe space str (space.length / 5) (hashString (str.bytes.map UInt8.ofBitVec) % space.length)

def cqiLookupAttribute (name : CString) (type : AttType) (st : CqiServer) : Option (Option ClAttribute × CqiServer) :=
  match attBucket st.attHash name with
  | none => none
  | some p =>
    let bucket := (st.attHash.getD p none).getD ⟨name, none, .none, by simp⟩
    let st := { st with attHash := st.attHash.set p (some bucket) }
    match bucket.att with
    | some a =>
      if bucket.type ≠ type then some (none, { st with cqiErrno := .clWrongAttributeType })
      else some (some a, { st with cqiErrno := .statusOk })
    | none =>
      match splitAttributeSpec env (nameOf name) with
      | none => some (none, { st with cqiErrno := .syntaxError })
      | some (corpusName, attributeName) =>
        match (st.store.findLoaded corpusName (some .system)).filter env.accessCorpus with
        | none => some (none, { st with cqiErrno := .cqpNoSuchCorpus })
        | some cl =>
          match clNewAttribute cl.data.corpus attributeName type with
          | none => some (none, { st with cqiErrno := .clNoSuchAttribute })
          | some a =>
            let bucket := ⟨bucket.string, some a.1, type, by rintro _ ⟨⟩; exact a.2⟩
            some (some a.1, { st with attHash := st.attHash.set p (some bucket), cqiErrno := .statusOk })

/-- The corpus that `cqi_find_corpus` finds. -/
def findCorpus (store : QueryStore CorpusData) (name : CorpusName) : Option Entry :=
  (if checkCorpusName env name then store.findLoaded name (some .system)
    else if (splitSubcorpusSpec env name).isSome then store.findLoaded name (some .sub)
    else none).filter env.accessCorpus

def cqiFindCorpus (name : CorpusName) (st : CqiServer) : Option Entry × CqiServer :=
  match findCorpus env st.store name with
  | none => (none, { st with cqiErrno := .cqpNoSuchCorpus })
  | some cl => (some cl, { st with cqiErrno := .statusOk })

/-- `check_corpus_name` and its relatives leave their result in `cqi_errno`. -/
def checked (ok : Bool) (st : CqiServer) : CqiServer :=
  { st with cqiErrno := if ok then .statusOk else .syntaxError }

/-! ## The group `CQI_CL` -/

/-- The scheme of the handlers that look up one attribute. -/
def withAttribute (a : CString) (type : AttType) (handler : ClAttribute → Handler) : Handler := fun st =>
  match cqiLookupAttribute env a type st with
  | none => none
  | some (none, st) => cqiErrnoCommand st
  | some (some att, st) => handler att st

/-- An `int` that is negative in the case of an error. -/
def intOrError (size : ℤ × Cda) : Handler := fun st =>
  let st := { st with clErrno := size.2 }
  if size.1 < 0 then sendClError st else cqiDataInt size.1 st

def doCqiClAttributeSize (a : CString) : Handler := fun st =>
  match cqiLookupAttribute env a .pos st with
  | none => none
  | some (some att, st) => intOrError (clMaxCpos att) st
  | some (none, st) =>
    match cqiLookupAttribute env a .struc st with
    | none => none
    | some (some att, st) =>
      let (size, errno) := clMaxStruc att
      -- no regions are not an error
      cqiDataInt (if size < 0 then 0 else size) { st with clErrno := errno }
    | some (none, st) => withAttribute env a .align (fun att => intOrError (clMaxAlg att)) st

def doCqiClLexiconSize (a : CString) : Handler := withAttribute env a .pos fun att => intOrError (clMaxId att)

def doCqiClDropAttribute : Handler := cqiGeneralError "CQI_CL_DROP_ATTRIBUTE not implemented."

/-- The scheme of the handlers that look up each element of a list: the length of the list, then
one value for each element. -/
def eachElement {α : Type} (word : CqiWord) (list : List α) (f : α → Option (CqiValue × Cda)) : Handler := fun st =>
  match list.mapM f with
  | none => none
  | some results =>
    some (sentWord word :: .int (BitVec.ofNat 32 list.length) :: results.map Prod.fst,
      { st with clErrno := (results.getLast?.map Prod.snd).getD st.clErrno })

/-- An `int` for an element, with the value that stands for an error. -/
def sentInt (error : ℤ) (result : ℤ × Cda) : CqiValue × Cda :=
  (.int (BitVec.ofInt 32 (if result.1 < 0 then error else result.1)), result.2)

def sentStr (result : Option CString × Cda) : CqiValue × Cda := (sentString result.1, result.2)

def doCqiClStr2id (a : CString) (strlist : List CString) : Handler :=
  withAttribute env a .pos fun att => eachElement .dataIntList strlist fun str => (clStr2id att str).map (sentInt (-1))

def doCqiClId2str (a : CString) (idlist : List CInt) : Handler :=
  withAttribute env a .pos fun att => eachElement .dataStringList idlist fun id => some (sentStr (clId2str att id.toInt))

def doCqiClId2freq (a : CString) (idlist : List CInt) : Handler :=
  withAttribute env a .pos fun att => eachElement .dataIntList idlist fun id => some (sentInt 0 (clId2freq att id.toInt))

def doCqiClCpos2str (a : CString) (cposlist : List CInt) : Handler :=
  withAttribute env a .pos fun att =>
    eachElement .dataStringList cposlist fun cpos => some (sentStr (clCpos2str att cpos.toInt))

def doCqiClCpos2id (a : CString) (cposlist : List CInt) : Handler :=
  withAttribute env a .pos fun att => eachElement .dataIntList cposlist fun cpos => some (sentInt (-1) (clCpos2id att cpos.toInt))

def doCqiClCpos2struc (a : CString) (cposlist : List CInt) : Handler :=
  withAttribute env a .struc fun att =>
    eachElement .dataIntList cposlist fun cpos => some (sentInt (-1) (clCpos2struc att cpos.toInt))

/-- A boundary of the region at a position, -1 if there is none. -/
def cpos2bound (bound : ℤ × ℤ → ℤ) (att : ClAttribute) (cpos : ℤ) : CqiValue × Cda :=
  let (struc, errno) := clCpos2struc att cpos
  if struc < 0 then (.int (-1), errno)
  else match clStruc2cpos att struc with
    | (some region, errno) => (.int (BitVec.ofInt 32 (bound region)), errno)
    | (none, errno) => (.int (-1), errno)

def doCqiClCpos2lbound (a : CString) (cposlist : List CInt) : Handler :=
  withAttribute env a .struc fun att => eachElement .dataIntList cposlist fun cpos => some (cpos2bound Prod.fst att cpos.toInt)

def doCqiClCpos2rbound (a : CString) (cposlist : List CInt) : Handler :=
  withAttribute env a .struc fun att => eachElement .dataIntList cposlist fun cpos => some (cpos2bound Prod.snd att cpos.toInt)

def doCqiClCpos2alg (a : CString) (cposlist : List CInt) : Handler :=
  withAttribute env a .align fun att =>
    eachElement .dataIntList cposlist fun cpos => some (sentInt (-1) (clCpos2alg att cpos.toInt))

def doCqiClStruc2str (a : CString) (struclist : List CInt) : Handler :=
  withAttribute env a .struc fun att =>
    eachElement .dataStringList struclist fun struc => some (sentStr (clStruc2str att struc.toInt))

/-- A list of positions, NULL in the case of an error. -/
def listOrError (result : Option (List ℕ) × Cda) : Handler := fun st =>
  let st := { st with clErrno := result.2 }
  match result.1 with
  | none => sendClError st
  | some cposlist => cqiDataIntList cposlist st

def doCqiClId2cpos (a : CString) (id : CInt) : Handler :=
  withAttribute env a .pos fun att => listOrError (clId2cpos att id.toInt)

def doCqiClIdlist2cpos (a : CString) (idlist : List CInt) : Handler :=
  withAttribute env a .pos fun att st =>
    match clIdlist2cpos true att (idlist.map BitVec.toInt) with
    | none => none
    | some result => listOrError result st

def doCqiClRegex2id (a regex : CString) : Handler :=
  withAttribute env a .pos fun att st =>
    let (idlist, errno) := clRegex2id env.newRegex att regex
    let st := { st with clErrno := errno }
    match idlist with
    | none => if st.clErrno ≠ .ok then sendClError st else cqiDataIntList [] st
    | some idlist => cqiDataIntList idlist st

def doCqiClStruc2cpos (a : CString) (struc : CInt) : Handler :=
  withAttribute env a .struc fun att st =>
    let (region, errno) := clStruc2cpos att struc.toInt
    let st := { st with clErrno := errno }
    match region with
    | some (start, stop) => cqiDataIntInt start stop st
    | none => sendClError st

def doCqiClAlg2cpos (a : CString) (alg : CInt) : Handler :=
  withAttribute env a .align fun att st =>
    let (regions, errno) := clAlg2cpos att alg.toInt
    let st := { st with clErrno := errno }
    match regions with
    | some (s1, s2, t1, t2) => cqiDataIntIntIntInt s1 s2 t1 t2 st
    | none => sendClError st

/-! ## The group `CQI_CQP` -/

def doCqiCqpListSubcorpora (corpus : CString) : Handler := fun st =>
  let (mother, st) := cqiFindCorpus env (nameOf corpus) st
  let ok := checkCorpusName env (nameOf corpus)
  let st := checked ok st
  match ok, mother with
  | true, some mother =>
    let subcorpora := st.store.corpuslist.filter fun cl => cl.type = .sub ∧ cl.data.corpus.id = mother.data.corpus.id
    some (sentWord .dataStringList :: .int (BitVec.ofNat 32 subcorpora.length) ::
      subcorpora.map fun cl => .string (CString.ofBuffer (cl.name.map fun c => BitVec.ofNat 8 c.toNat)), st)
  | _, _ => cqiErrnoCommand st

/-- Is the last character that is no blank a semicolon? The first one is never skipped. -/
def queryHasSemicolon (query : List Char) : Bool :=
  match query with
  | [] => false
  | c :: cs => ((cs.reverse.dropWhile fun c => c = ' ' || c = '\t').headD c) = ';'

/-- `cqp_parse_string` in the server: the input must be a single command. -/
def cqpParseString (store : QueryStore CorpusData) (s : List Char) : Bool × QueryStore CorpusData :=
  if s = [] then (true, store)
  else
    let result := env.yyparse store s
    (decide (result.status = 0 ∧ result.rest = []), result.store)

/-- The command that assigns the result of a query to its name. -/
def cqpQuery (child query : List Char) : List Char :=
  child ++ " = ".toList ++ query ++ if queryHasSemicolon query then [] else [';']

def doCqiCqpQuery (mother child query : CString) : Handler := fun st =>
  match splitSubcorpusSpec env (nameOf mother) with
  | none => cqiErrnoCommand (checked false st)
  | some (c, _) =>
    let ok := checkSubcorpusName env (nameOf child)
    let st := checked ok st
    if !ok then cqiErrnoCommand st
    else match cqiFindCorpus env (nameOf mother) st with
      | (none, st) => cqiErrnoCommand st
      | (some cl, st) =>
        let (ok, store) := cqpParseString env { st.store with current := some cl.id } (cqpQuery (nameOf child) (nameOf query))
        let st := { st with store }
        if !ok then cqiCommand .cqpGeneral st
        else match cqiFindCorpus env (combineSubcorpusSpec c (nameOf child)) st with
          | (none, st) => cqiCommand .cqpGeneral st
          | (some _, st) => cqiCommand .statusOk st

def doCqiCqpSubcorpusSize (subcorpus : CString) : Handler := fun st =>
  match cqiFindCorpus env (nameOf subcorpus) st with
  | (none, st) => cqiErrnoCommand st
  | (some cl, st) => cqiDataInt cl.data.range.length st

/-- The fields that `cqi_field_name` knows. -/
def cqiField (field : CqiByte) : Option AnchorField :=
  if field = 0x10 then some .matchField
  else if field = 0x11 then some .matchEndField
  else if field = 0x00 then some .targetField
  else if field = 0x09 then some .keywordField
  else none

def doCqiCqpSubcorpusHasField (subcorpus : CString) (field : CqiByte) : Handler := fun st =>
  match cqiFindCorpus env (nameOf subcorpus) st with
  | (none, st) => cqiErrnoCommand st
  | (some cl, st) =>
    match cqiField field with
    | none => cqiCommand .cqpInvalidField st
    | some .matchField | some .matchEndField => cqiDataBool true st
    | some .targetField => cqiDataBool cl.data.targets.isSome st
    | some .keywordField => cqiDataBool cl.data.keywords.isSome st

/-- The entries of a vector from `first` to `last`. -/
def dumpLines (vector : ℕ → ℤ) (first last : ℤ) : List CqiValue :=
  (List.range (last - first + 1).toNat).map fun i => .int (BitVec.ofInt 32 (vector (first.toNat + i)))

/-- An anchor vector; a vector of -1 is sent in the place of one that is not set. -/
def anchorVector (vector : Option (List ℤ)) (i : ℕ) : ℤ := (vector.map fun v => v.getD i 0).getD (-1)

def fieldVector (cl : Entry) (field : AnchorField) (i : ℕ) : ℤ :=
  match field with
  | .matchField => (cl.data.range.getD i (0, 0)).1
  | .matchEndField => (cl.data.range.getD i (0, 0)).2
  | .targetField => anchorVector cl.data.targets i
  | .keywordField => anchorVector cl.data.keywords i

def doCqiCqpDumpSubcorpus (subcorpus : CString) (field : CqiByte) (first last : CInt) : Handler := fun st =>
  match cqiFindCorpus env (nameOf subcorpus) st with
  | (none, st) => cqiErrnoCommand st
  | (some cl, st) =>
    match cqiField field with
    | none => cqiCommand .cqpInvalidField st
    | some field =>
      if last.toInt < first.toInt ∨ first.toInt < 0 ∨ last.toInt ≥ cl.data.range.length then cqiCommand .cqpOutOfRange st
      else some (sentWord .dataIntList :: .int (last - first + 1) :: dumpLines (fieldVector cl field) first.toInt last.toInt, st)

def doCqiCqpDropSubcorpus (subcorpus : CString) : Handler := fun st =>
  match splitSubcorpusSpec env (nameOf subcorpus) with
  | none => cqiErrnoCommand (checked false st)
  | some (_, none) => cqiCommand .syntaxError (checked true st)
  | some (_, some _) =>
    match cqiFindCorpus env (nameOf subcorpus) (checked true st) with
    | (none, st) => cqiErrnoCommand st
    | (some cl, st) => cqiCommand .statusOk { st with store := st.store.dropcorpus cl.id }

/-- A table with the given columns. -/
def cqiIntTable (table : CList GroupCell) (columns : List (GroupCell → CInt)) : Handler := fun st =>
  some (sentWord .dataIntTable :: .int (BitVec.ofNat 32 table.elems.length) :: .int (BitVec.ofNat 32 columns.length) ::
    table.elems.flatMap fun cell => columns.map fun column => .int (column cell), st)

/-- Cells are kept whose frequency is above the cutoff of `compute_grouping`. -/
def groupCutoff (cutoff : CInt) : ℤ := if cutoff.toInt > 0 then cutoff.toInt - 1 else 0

def doCqiCqpFdist1 (subcorpus : CString) (cutoff : CInt) (field : CqiByte) (att : CString) : Handler := fun st =>
  match cqiFindCorpus env (nameOf subcorpus) st with
  | (none, st) => cqiErrnoCommand st
  | (some cl, st) =>
    match cqiField field with
    | none => cqiCommand .cqpInvalidField st
    | some field =>
      match env.computeGrouping cl none (field, att) (groupCutoff cutoff) with
      | none => cqiCommand .cqpGeneral st
      | some table => cqiIntTable table [GroupCell.t, GroupCell.freq] st

def doCqiCqpFdist2 (subcorpus : CString) (cutoff : CInt) (field1 : CqiByte) (att1 : CString) (field2 : CqiByte)
    (att2 : CString) : Handler := fun st =>
  match cqiFindCorpus env (nameOf subcorpus) st with
  | (none, st) => cqiErrnoCommand st
  | (some cl, st) =>
    match cqiField field1, cqiField field2 with
    | some field1, some field2 =>
      match env.computeGrouping cl (some (field1, att1)) (field2, att2) (groupCutoff cutoff) with
      | none => cqiCommand .cqpGeneral st
      | some table => cqiIntTable table [GroupCell.s, GroupCell.t, GroupCell.freq] st
    | _, _ => cqiCommand .cqpInvalidField st

end Names

/-! ## Requests -/

inductive Command where
  | clAttributeSize | clLexiconSize | clDropAttribute | clStr2id | clId2str | clId2freq | clCpos2id | clCpos2str
  | clCpos2struc | clCpos2lbound | clCpos2rbound | clCpos2alg | clStruc2str | clId2cpos | clIdlist2cpos | clRegex2id
  | clStruc2cpos | clAlg2cpos
  | cqpQuery | cqpListSubcorpora | cqpSubcorpusSize | cqpSubcorpusHasField | cqpDumpSubcorpus | cqpDropSubcorpus
  | cqpFdist1 | cqpFdist2
deriving Repr, DecidableEq

/-- The arguments of a command, from the comments in `cqi.h`. -/
def Command.inputs : Command → List CqiKind
  | .clAttributeSize | .clLexiconSize | .clDropAttribute => [.string]
  | .clStr2id => [.string, .stringList]
  | .clId2str | .clId2freq | .clCpos2id | .clCpos2str | .clCpos2struc | .clCpos2lbound | .clCpos2rbound | .clCpos2alg
  | .clStruc2str | .clIdlist2cpos => [.string, .intList]
  | .clId2cpos | .clStruc2cpos | .clAlg2cpos => [.string, .int]
  | .clRegex2id => [.string, .string]
  | .cqpQuery => [.string, .string, .string]
  | .cqpListSubcorpora | .cqpSubcorpusSize | .cqpDropSubcorpus => [.string]
  | .cqpSubcorpusHasField => [.string, .byte]
  | .cqpDumpSubcorpus => [.string, .byte, .int, .int]
  | .cqpFdist1 => [.string, .int, .byte, .string]
  | .cqpFdist2 => [.string, .int, .byte, .string, .byte, .string]

/-- A byte argument -/
def cqiReadField : Codec.Reader CqiByte CqiByte := fun stream => do
  let (b, stream) ← cqiReadByte stream
  some (b.setWidth 8, stream)

/-- The part of `interpreter` behind the command: the arguments are read, and a reply is sent. The
rest of the connection is left for the next command. -/
def interpret (env : CqiEnv) (command : Command) (stream : List CqiByte) (st : CqiServer) :
    Option (List CqiValue × CqiServer × List CqiByte) :=
  let done (stream : List CqiByte) (handler : Handler) : Option (List CqiValue × CqiServer × List CqiByte) :=
    (handler st).map fun (reply, st) => (reply, st, stream)
  let string (handler : CString → Handler) := do
    let (a, stream) ← cqiReadString stream
    done stream (handler a)
  let stringInts (handler : CString → List CInt → Handler) := do
    let (a, stream) ← cqiReadString stream
    let (list, stream) ← cqiReadIntList stream
    done stream (handler a list)
  let stringInt (handler : CString → CInt → Handler) := do
    let (a, stream) ← cqiReadString stream
    let (n, stream) ← cqiReadInt stream
    done stream (handler a n)
  match command with
  | .clAttributeSize => string (doCqiClAttributeSize env)
  | .clLexiconSize => string (doCqiClLexiconSize env)
  | .clDropAttribute => done stream doCqiClDropAttribute
  | .clStr2id => do
    let (a, stream) ← cqiReadString stream
    let (strlist, stream) ← cqiReadStringList stream
    done stream (doCqiClStr2id env a strlist)
  | .clId2str => stringInts (doCqiClId2str env)
  | .clId2freq => stringInts (doCqiClId2freq env)
  | .clCpos2id => stringInts (doCqiClCpos2id env)
  | .clCpos2str => stringInts (doCqiClCpos2str env)
  | .clCpos2struc => stringInts (doCqiClCpos2struc env)
  | .clCpos2lbound => stringInts (doCqiClCpos2lbound env)
  | .clCpos2rbound => stringInts (doCqiClCpos2rbound env)
  | .clCpos2alg => stringInts (doCqiClCpos2alg env)
  | .clStruc2str => stringInts (doCqiClStruc2str env)
  | .clId2cpos => stringInt (doCqiClId2cpos env)
  | .clIdlist2cpos => stringInts (doCqiClIdlist2cpos env)
  | .clRegex2id => do
    let (a, stream) ← cqiReadString stream
    let (regex, stream) ← cqiReadString stream
    done stream (doCqiClRegex2id env a regex)
  | .clStruc2cpos => stringInt (doCqiClStruc2cpos env)
  | .clAlg2cpos => stringInt (doCqiClAlg2cpos env)
  | .cqpQuery => do
    let (mother, stream) ← cqiReadString stream
    let (child, stream) ← cqiReadString stream
    let (query, stream) ← cqiReadString stream
    done stream (doCqiCqpQuery env mother child query)
  | .cqpListSubcorpora => string (doCqiCqpListSubcorpora env)
  | .cqpSubcorpusSize => string (doCqiCqpSubcorpusSize env)
  | .cqpSubcorpusHasField => do
    let (subcorpus, stream) ← cqiReadString stream
    let (field, stream) ← cqiReadField stream
    done stream (doCqiCqpSubcorpusHasField env subcorpus field)
  | .cqpDumpSubcorpus => do
    let (subcorpus, stream) ← cqiReadString stream
    let (field, stream) ← cqiReadField stream
    let (first, stream) ← cqiReadInt stream
    let (last, stream) ← cqiReadInt stream
    done stream (doCqiCqpDumpSubcorpus env subcorpus field first last)
  | .cqpDropSubcorpus => string (doCqiCqpDropSubcorpus env)
  | .cqpFdist1 => do
    let (subcorpus, stream) ← cqiReadString stream
    let (cutoff, stream) ← cqiReadInt stream
    let (field, stream) ← cqiReadField stream
    let (att, stream) ← cqiReadString stream
    done stream (doCqiCqpFdist1 env subcorpus cutoff field att)
  | .cqpFdist2 => do
    let (subcorpus, stream) ← cqiReadString stream
    let (cutoff, stream) ← cqiReadInt stream
    let (field1, stream) ← cqiReadField stream
    let (att1, stream) ← cqiReadString stream
    let (field2, stream) ← cqiReadField stream
    let (att2, stream) ← cqiReadString stream
    done stream (doCqiCqpFdist2 env subcorpus cutoff field1 att1 field2 att2)

end CWB.Cqi
