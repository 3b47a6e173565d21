import CWB.Library.BinarySearch
import CWB.Spec.EncodeLine

/-! S-attributes of `utils/cwb-encode.c` (`range_open`, `range_close`, the tag handling and the
cleanup of `main`), the region writer of `utils/cwb-s-encode.c`, and the access functions of
`cl/cdaccess.c` for what they have written. A `Range` of C is here its own files
(`RangeFile`), with its recursion children a `Nest`, with its element attributes an `SAttr`.
`encode_error` stops the program and is `none`. -/

namespace CWB

/-! ## Annotations -/

/-- Hash, `.avs` and `.avx` of an attribute with annotations. `data.integer` of the hash entries
is a list, by ID. -/
structure AnnotFiles where
  lh : Lexhash
  data : List ℕ := []
  offset : ℕ := 0
  avs : Block := []
  avx : List (ℕ × ℕ) := []

/-- The annotation of region `num`; a new one goes to `.avs`. The `int` offset has become
negative when it reaches 2^31. -/
def AnnotFiles.store (fill : FillRate) (f : AnnotFiles) (num : ℕ) (annot : List UInt8) : Option AnnotFiles :=
  match clLexhashFind f.lh annot with
  | some entry => some { f with avx := f.avx ++ [(num, f.data.getD entry.id 0)] }
  | none => do
    let lh ← clLexhashAdd fill f.lh annot
    let offset := f.offset + annot.length + 1
    if 2 ^ 31 ≤ offset then none
    else
      pure {
        lh, offset
        data := f.data ++ [f.offset]
        avs := f.avs ++ Block.ofString annot
        avx := f.avx ++ [(num, f.offset)] }

/-! ## One attribute without its children -/

structure RangeFile where
  storeValues : Bool
  featureSet : Bool := false
  isOpen : Bool := false
  startPos : ℤ := 0
  annot : Option (List UInt8) := none
  num : ℕ := 0
  rng : List (ℤ × ℤ) := []
  values : AnnotFiles

/-- The part of `range_close` under `close_this_range`. An empty region is dropped. -/
def RangeFile.closeThis (fill : FillRate) (r : RangeFile) (endPos : ℤ) : Option RangeFile :=
  if r.startPos ≤ endPos then
    let rng := r.rng ++ [(r.startPos, endPos)]
    if r.storeValues then do
      let values ← r.values.store fill r.num (truncateValue (r.annot.getD []))
      pure { r with rng, values, num := r.num + 1, annot := none, isOpen := false }
    else pure { r with rng, isOpen := false }
  else some { r with isOpen := false, annot := none }

/-- The annotation that is kept for the end of the region. -/
def storedAnnot (opts : EncodeOptions) (makeSet : MakeSet) (featureSet : Bool) (annot : List UInt8) : List UInt8 :=
  let annot := if opts.stripBlanks then annot.rdropWhile isBlank else annot
  if featureSet then (makeSet annot).getD [124] else annot

/-- The part of `range_open` under `open_this_range`. -/
def RangeFile.openThis (opts : EncodeOptions) (makeSet : MakeSet) (r : RangeFile) (line : ℤ) (annot : List UInt8) :
    RangeFile :=
  { r with
    isOpen := true
    startPos := line
    annot := if r.storeValues then some (storedAnnot opts makeSet r.featureSet annot) else r.annot }

/-- `range_close` and `range_open` for an attribute with flat structure. -/
def RangeFile.rangeClose (fill : FillRate) (r : RangeFile) (endPos : ℤ) : Option RangeFile :=
  if r.isOpen then r.closeThis fill endPos else some r

def RangeFile.rangeOpen (opts : EncodeOptions) (fill : FillRate) (makeSet : MakeSet) (r : RangeFile) (line : ℤ)
    (annot : List UInt8) : Option RangeFile := do
  let r ← r.rangeClose fill (line - 1)
  pure (r.openThis opts makeSet line annot)

/-! ## Recursion -/

/-- `recursion_children[0]` is the attribute itself. `maxRecursion` is `none` for a flat
structure (-1), whose only file is the attribute itself. -/
structure Nest where
  maxRecursion : Option ℕ
  recursionLevel : ℕ := 0
  elementDropCount : ℕ := 0
  files : List RangeFile

def modifyAtM {α : Type} (f : α → Option α) : ℕ → List α → Option (List α)
  | _, [] => none
  | 0, a :: as => (f a).map (· :: as)
  | k + 1, a :: as => (modifyAtM f k as).map (a :: ·)

def Nest.withFile (n : Nest) (level : ℕ) (f : RangeFile → Option RangeFile) : Option Nest := do
  let files ← modifyAtM f level n.files
  pure { n with files }

def Nest.isOpen (n : Nest) : Bool := (n.files.head?.map RangeFile.isOpen).getD false

def Nest.rangeClose (fill : FillRate) (n : Nest) (endPos : ℤ) : Option Nest :=
  match n.maxRecursion with
  | some maxRecursion =>
    match n.recursionLevel with
    | 0 => some n -- surplus close tag
    | level + 1 =>
      let n := { n with recursionLevel := level }
      if level > maxRecursion then some n
      else if level > 0 then n.withFile level fun r => r.rangeClose fill endPos
      else n.withFile 0 fun r => r.closeThis fill endPos
  | none => n.withFile 0 fun r => r.rangeClose fill endPos

def Nest.rangeOpen (opts : EncodeOptions) (fill : FillRate) (makeSet : MakeSet) (n : Nest) (line : ℤ)
    (annot : List UInt8) : Option Nest :=
  match n.maxRecursion with
  | some maxRecursion =>
    let level := n.recursionLevel
    let n := { n with recursionLevel := level + 1 }
    if level > maxRecursion then some { n with elementDropCount := n.elementDropCount + 1 }
    else if level > 0 then n.withFile level fun r => r.rangeOpen opts fill makeSet line annot
    else n.withFile 0 fun r => some (r.openThis opts makeSet line annot)
  | none => n.withFile 0 fun r => r.rangeOpen opts fill makeSet line annot

/-! ## Element attributes -/

/-- One `attribute="value"` or `attribute=id` pair and the rest of the annotation string; `none`
where the loop stops with a syntax error. -/
def parseAttribute (annot : List UInt8) : Option ((List UInt8 × List UInt8) × List UInt8) :=
  let name := annot.takeWhile clXmlIsNameChar
  match (annot.dropWhile clXmlIsNameChar).dropWhile isBlank with
  | 61 :: rest =>
    match rest.dropWhile isBlank with
    | quote :: body =>
      if quote = 34 ∨ quote = 39 then
        match body.dropWhile (· ≠ quote) with
        | [] => none
        | _ :: rest => if name = [] then none else some ((name, body.takeWhile (· ≠ quote)), rest)
      else
        let value := (quote :: body).takeWhile clXmlIsNameChar
        let rest := (quote :: body).dropWhile clXmlIsNameChar
        if value = [] ∨ name = [] then none else some ((name, value), rest.tail)
    | [] => none
  | _ => none

/-- The attributes of a start tag, up to a syntax error. Each takes at least one character. -/
def parseAttributes : ℕ → List UInt8 → List (List UInt8 × List UInt8)
  | 0, _ => []
  | fuel + 1, annot =>
    if annot = [] then []
    else
      match parseAttribute annot with
      | none => []
      | some (pair, rest) => pair :: parseAttributes fuel (rest.dropWhile isBlank)

/-- A declared attribute with the children for its element attributes. -/
structure SAttr where
  nullAttribute : Bool := false
  nest : Nest
  elAtts : List (List UInt8 × Nest) := []

def SAttr.isOpen (a : SAttr) : Bool := a.nest.isOpen

def SAttr.rangeClose (fill : FillRate) (a : SAttr) (endPos : ℤ) : Option SAttr :=
  if a.nullAttribute then some a
  else do
    let nest ← a.nest.rangeClose fill endPos
    let elAtts ← a.elAtts.mapM fun c => do
      let child ← c.2.rangeClose fill endPos
      pure (c.1, child)
    pure { a with nest, elAtts }

/-- The attribute and its element attributes are opened. Of two values for one element attribute
the first counts, a missing one is empty. -/
def SAttr.openParsed (opts : EncodeOptions) (fill : FillRate) (makeSet : MakeSet) (a : SAttr) (line : ℤ)
    (annot : List UInt8) : Option SAttr := do
  let nest ← a.nest.rangeOpen opts fill makeSet line annot
  let pairs := parseAttributes annot.length annot
  let elAtts ← a.elAtts.mapM fun c => do
    let value := (pairs.lookup c.1).map clXmlEntityDecode
    let child ← c.2.rangeOpen opts fill makeSet line (value.getD [])
    pure (c.1, child)
  pure { a with nest, elAtts }

/-- The implicit close of a flat structure closes the element attributes too. -/
def SAttr.rangeOpen (opts : EncodeOptions) (fill : FillRate) (makeSet : MakeSet) (a : SAttr) (line : ℤ)
    (annot : List UInt8) : Option SAttr :=
  if a.nullAttribute then some a
  else if a.nest.maxRecursion = none ∧ a.isOpen then
    (a.rangeClose fill (line - 1)).bind fun a => a.openParsed opts fill makeSet line annot
  else a.openParsed opts fill makeSet line annot

/-! ## Declarations and the main loop -/

/-- What `range_declare` takes from `-S`, `-V` and `-0` arguments. -/
structure SAttrSpec where
  maxRecursion : Option ℕ := none
  storeValues : Bool := false
  featureSet : Bool := false
  nullAttribute : Bool := false
  /-- the element attributes, with their feature set markers -/
  elAtts : List (List UInt8 × Bool) := []

def newNest (maxRecursion : Option ℕ) (storeValues featureSet : Bool) : Nest where
  maxRecursion := maxRecursion
  files := List.replicate (maxRecursion.getD 0 + 1)
    { storeValues := storeValues, featureSet := featureSet, values := { lh := clNewLexhash 10000 } }

def rangeDeclare (spec : SAttrSpec) : SAttr where
  nullAttribute := spec.nullAttribute
  nest := newNest spec.maxRecursion spec.storeValues spec.featureSet
  elAtts := spec.elAtts.map fun e => (e.1, newNest spec.maxRecursion true e.2)

/-- The tags of `n` declared attributes and the token lines. -/
inductive TagEvent (n : ℕ) where
  | start (i : Fin n) (annot : List UInt8)
  | stop (i : Fin n)
  | token
deriving DecidableEq

def CL_MAX_CORPUS_SIZE : ℕ := 2147483647

structure EncodeState where
  line : ℕ := 0
  attrs : List SAttr

/-- One event of the main loop, which ends when the corpus is full. -/
def EncodeState.step (opts : EncodeOptions) (fill : FillRate) (makeSet : MakeSet) {n : ℕ} (st : EncodeState)
    (ev : TagEvent n) : Option EncodeState :=
  if CL_MAX_CORPUS_SIZE ≤ st.line then some st
  else
    match ev with
    | .start i annot => do
      let attrs ← modifyAtM (fun a => a.rangeOpen opts fill makeSet st.line annot) i st.attrs
      pure { st with attrs }
    | .stop i => do
      let attrs ← modifyAtM (fun a => a.rangeClose fill (st.line - 1)) i st.attrs
      pure { st with attrs }
    | .token => some { st with line := st.line + 1 }

def encodeEvents (opts : EncodeOptions) (fill : FillRate) (makeSet : MakeSet) (specs : List SAttrSpec)
    (evs : List (TagEvent specs.length)) : Option EncodeState :=
  evs.foldlM (EncodeState.step opts fill makeSet) { attrs := specs.map rangeDeclare }

/-- `while (rng->is_open) range_close(rng, line - 1)`, at most `fuel` times. -/
def SAttr.closeLoop (fill : FillRate) (endPos : ℤ) : ℕ → SAttr → Option SAttr
  | 0, a => some a
  | fuel + 1, a =>
    if a.isOpen then do
      let a ← a.rangeClose fill endPos
      closeLoop fill endPos fuel a
    else some a

/-- The end of `main`: the open regions of all attributes but the automatic ones are closed,
those of an attribute in as many rounds as it has levels open. -/
def encodeCorpus (opts : EncodeOptions) (fill : FillRate) (makeSet : MakeSet) (specs : List SAttrSpec)
    (evs : List (TagEvent specs.length)) : Option EncodeState := do
  let st ← encodeEvents opts fill makeSet specs evs
  let attrs ← st.attrs.mapM fun a =>
    if a.nullAttribute then some a else a.closeLoop fill (st.line - 1) (a.nest.recursionLevel + 1)
  pure { st with attrs }

/-! ## cwb-s-encode -/

/-- The attribute that `cwb-s-encode` writes. -/
structure SencodeAttr where
  storeValues : Bool
  num : ℕ := 0
  lastCpos : ℤ := -1
  rng : List (ℤ × ℤ) := []
  values : AnnotFiles := { lh := clNewLexhash 0 }

/-- `sencode_write_region`; it leaves the check `start <= end` to `main`. -/
def sencodeWriteRegion (fill : FillRate) (s : SencodeAttr) (start stop : ℤ) (annot : List UInt8) : Option SencodeAttr := do
  let values ← if s.storeValues then s.values.store fill s.num annot else some s.values
  pure { s with values, rng := s.rng ++ [(start, stop)], num := s.num + 1, lastCpos := stop }

/-! ## Access -/

/-- The number of items of a component is kept in an `int`. -/
def componentSize (items : ℕ) : ℤ := (BitVec.ofNat 32 items).toInt

/-- The integers of a file of pairs. -/
def pairInts {α : Type} (l : List (α × α)) : List α := l.flatMap fun p => [p.1, p.2]

/-- `cl_struc2cpos`. -/
def clStruc2cpos (rng : List (ℤ × ℤ)) (strucNum : ℤ) : Option (ℤ × ℤ) :=
  let data := pairInts rng
  if strucNum < 0 ∨ componentSize data.length / 2 ≤ strucNum then none
  else do
    let start ← data[(strucNum * 2).toNat]?
    let stop ← data[(strucNum * 2 + 1).toNat]?
    pure (start, stop)

/-- `s_v_comp`, a difference of 32-bit values. -/
def sVComp (key id : ℕ) : ℤ := (BitVec.ofNat 32 key - BitVec.ofNat 32 id).toInt

/-- `cl_struc2str`. A negative number of index elements would be converted to an unsigned one
far beyond the data, and has no result here. -/
def clStruc2str (f : AnnotFiles) (strucNum : ℕ) : Option (List UInt8) :=
  let size := componentSize (pairInts f.avx).length / 2
  if size < 0 then none
  else do
    let idx ← BinarySearch.find (fun e => sVComp strucNum e.1) f.avx size.toNat
    let offset : ℤ := (BitVec.ofNat 32 idx.2).toInt
    if 0 ≤ offset ∧ offset < f.avs.length then f.avs.readString offset.toNat else none

end CWB
