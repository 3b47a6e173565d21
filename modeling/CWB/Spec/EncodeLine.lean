import Mathlib.Data.List.DropRight
import CWB.Library.Block
import CWB.Spec.Lexhash

/-! One line of input of `utils/cwb-encode.c`: tag or token, the columns of a token line and
their p-attributes, and the line that `utils/cwb-decode.c` prints in `EncodeMode`. C strings
are lists of bytes without their terminator. -/

namespace CWB

def CL_MAX_LINE_LENGTH : ℕ := 4096

/-! ## Entities -/

/-- `&lt;`, `&gt;`, `&amp;`, `&quot;`, `&apos;` and their characters, in the order of the tests. -/
def entities : List (List UInt8 × UInt8) :=
  [([38, 108, 116, 59], 60), ([38, 103, 116, 59], 62), ([38, 97, 109, 112, 59], 38),
    ([38, 113, 117, 111, 116, 59], 34), ([38, 97, 112, 111, 115, 59], 39)]

/-- The `strncmp` tests at `read`. -/
def entityAt (s : List UInt8) : Option (List UInt8 × UInt8) := entities.find? fun e => e.1.isPrefixOf s

/-- The loop of `cl_xml_entity_decode` over the buffer of the string, with its terminator;
`read` and `write` are offsets in it. It ends at the terminator, with the last offsets. -/
def entityDecodeLoop : ℕ → List UInt8 → ℕ → ℕ → List UInt8 × ℕ × ℕ
  | 0, buf, read, write => (buf, read, write)
  | fuel + 1, buf, read, write =>
    let c := buf.getD read 0
    if c = 0 then (buf, read, write)
    else
      match entityAt (buf.drop read) with
      | some (name, c') => entityDecodeLoop fuel (buf.set write c') (read + name.length) (write + 1)
      | none => entityDecodeLoop fuel (buf.set write c) (read + 1) (write + 1)

/-- The C string at the start of a buffer. -/
def cString (buf : List UInt8) : List UInt8 := buf.takeWhile (· ≠ 0)

def clXmlEntityDecode (s : List UInt8) : List UInt8 :=
  let (buf, _, write) := entityDecodeLoop (s.length + 1) (s ++ [0]) 0 0
  cString (buf.set write 0)

/-! ## Tags -/

structure EncodeOptions where
  fieldSeparators : List UInt8 := [9, 10]
  /-- `__UNDEF__` -/
  undefValue : List UInt8 := [95, 95, 85, 78, 68, 69, 70, 95, 95]
  xmlAware : Bool := false
  skipEmptyLines : Bool := false
  stripBlanks : Bool := false

/-- `cl_xml_is_name_char`: letters, digits, bytes from 0x80 on, `-` and `_`. -/
def clXmlIsNameChar (c : UInt8) : Bool :=
  (65 ≤ c && c ≤ 90) || (97 ≤ c && c ≤ 122) || (48 ≤ c && c ≤ 57) || 128 ≤ c || c = 45 || c = 95

def isBlank (c : UInt8) : Bool := c = 32 || c = 9

/-- `cl_string_chomp`: without trailing CR and LF. -/
def clStringChomp (s : List UInt8) : List UInt8 := s.rdropWhile fun c => c = 13 || c = 10

/-- What `main` makes of a line. -/
inductive InputLine where
  | skipped
  | startTag (name annot : List UInt8)
  | endTag (name : List UInt8)
  | token (str : List UInt8)
deriving DecidableEq

/-- The annotation of a start tag, from the character after the element name and the rest of
the line. A `/` directly before the final `>` marks an empty tag and is left out. -/
def tagAnnot (separator : UInt8) (rest : List UInt8) : List UInt8 :=
  let annot := rest.dropWhile isBlank
  if separator = 62 then []
  else
    let upto := annot.rdropWhile isBlank
    if upto.getLast? = some 62 then
      let body := upto.dropLast
      if body.getLast? = some 47 then body.dropLast else body
    else []

/-- The element name at the start of `body`, and what follows it. A tag without a declared
attribute, or without an element name, is a token line. -/
def parseElement (declared : List UInt8 → Bool) (buf : List UInt8) (closing : Bool) (body : List UInt8) : InputLine :=
  let name := body.takeWhile clXmlIsNameChar
  match body.dropWhile clXmlIsNameChar with
  | [] => .token buf
  | separator :: rest =>
    if name ≠ [] ∧ (separator = 32 ∨ separator = 9 ∨ separator = 62 ∨ separator = 47) ∧ declared name then
      if closing then .endTag name else .startTag name (tagAnnot separator rest)
    else .token buf

/-- The tag handling of `main`; `declared` is `range_find(..) >= 0`. -/
def parseTag (declared : List UInt8 → Bool) (buf : List UInt8) : InputLine :=
  if buf.tail.head? = some 47 then parseElement declared buf true buf.tail.tail
  else parseElement declared buf false buf.tail

def parseLine (opts : EncodeOptions) (declared : List UInt8 → Bool) (linebuf : List UInt8) : InputLine :=
  let linebuf := clStringChomp linebuf
  let buf := if opts.stripBlanks then linebuf.dropWhile (· = 32) else linebuf
  if opts.skipEmptyLines ∧ buf = [] then .skipped
  else if opts.xmlAware ∧ buf.head? = some 60 ∧ (buf.tail.head? = some 63 ∨ buf.tail.head? = some 33) then .skipped
  else if buf.head? = some 60 then parseTag declared buf
  else .token buf

/-! ## Columns -/

/-- The loop of `encode_strtok`: the token up to a delimiter, and the rest after it (`NULL` when
the string ended first). -/
def strtokScan (delim : List UInt8) : List UInt8 → List UInt8 × Option (List UInt8)
  | [] => ([], none)
  | c :: s =>
    if c ∈ delim then ([], some s)
    else
      let (tok, last) := strtokScan delim s
      (c :: tok, last)

/-- `encode_strtok(s, delim)` with its static variable `last`: the token and the new `last`. -/
def encodeStrtok (s : Option (List UInt8)) (delim : List UInt8) (last : Option (List UInt8)) :
    Option (List UInt8) × Option (List UInt8) :=
  match s.or last with
  | none | some [] => (none, none)
  | some s =>
    let (tok, last) := strtokScan delim s
    (some tok, last)

/-- A p-attribute. The files are the integers of `.lexicon.idx` and `.corpus` and the bytes of
`.lexicon`. -/
structure WAttr where
  lh : Lexhash
  position : ℕ := 0
  featureSet : Bool := false
  lex : Block := []
  lexidx : List ℕ := []
  corpus : List ℤ := []

/-- The value of a column: blanks stripped, missing and empty fields `NULL`, entities decoded. -/
def fieldValue (opts : EncodeOptions) (field : Option (List UInt8)) : List UInt8 :=
  let field := if opts.stripBlanks then
      field.map fun f => (f.rdropWhile (· = 32)).dropWhile (· = 32)
    else field
  match field with
  | none | some [] => opts.undefValue
  | some f => if opts.xmlAware then clXmlEntityDecode f else f

/-- Too long a string is cut off and ends in `$`. -/
def truncateValue (s : List UInt8) : List UInt8 :=
  if s.length ≥ CL_MAX_LINE_LENGTH then s.take (CL_MAX_LINE_LENGTH - 2) ++ [36] else s

/-- `cl_make_set(s, 0)`: a feature set in normal form, or `NULL`. -/
abbrev MakeSet := List UInt8 → Option (List UInt8)

/-- One token in one p-attribute. `encode_error` stops the program. -/
def WAttr.addToken (fill : FillRate) (makeSet : MakeSet) (w : WAttr) (field : List UInt8) : Option WAttr := do
  let token := truncateValue (if w.featureSet then (makeSet field).getD [124] else field)
  let id := clLexhashId w.lh token
  if id < 0 then
    -- new entry: the int `position` has become negative when it reaches 2^31
    let position := w.position + token.length + 1
    if 2 ^ 31 ≤ position then none
    else
      let lh ← clLexhashAdd fill w.lh token
      pure { w with
        lh, position
        lexidx := w.lexidx ++ [w.position]
        lex := w.lex ++ Block.ofString token
        corpus := w.corpus ++ [clLexhashId lh token] }
  else pure { w with corpus := w.corpus ++ [id] }

/-- The loop of `encode_add_wattr_line` over the attributes, with the field at hand and `last`;
`encode_strtok` is called once more after the last attribute. -/
def wattrLoop (opts : EncodeOptions) (fill : FillRate) (makeSet : MakeSet) :
    List WAttr → Option (List UInt8) → Option (List UInt8) → Option (List WAttr × Option (List UInt8))
  | [], _, last => some ([], last)
  | w :: ws, field, last => do
    let w ← w.addToken fill makeSet (fieldValue opts field)
    let (field, last) := encodeStrtok none opts.fieldSeparators last
    let (ws, last) ← wattrLoop opts fill makeSet ws field last
    pure (w :: ws, last)

def encodeAddWattrLine (opts : EncodeOptions) (fill : FillRate) (makeSet : MakeSet)
    (st : List WAttr × Option (List UInt8)) (str : List UInt8) : Option (List WAttr × Option (List UInt8)) :=
  let (field, last) := encodeStrtok (some str) opts.fieldSeparators st.2
  wattrLoop opts fill makeSet st.1 field last

/-- The token lines of an input, after `wattr_declare` for attributes with these numbers of
buckets and feature set markers. -/
def encodeTokenLines (opts : EncodeOptions) (fill : FillRate) (makeSet : MakeSet) (declared : List (ℤ × Bool))
    (lines : List (List UInt8)) : Option (List WAttr × Option (List UInt8)) :=
  lines.foldlM (encodeAddWattrLine opts fill makeSet)
    (declared.map fun d => { lh := clNewLexhash d.1, featureSet := d.2 }, none)

/-- Token `i`, read from the three files: ID, offset, string. -/
def WAttr.cpos2str (w : WAttr) (i : ℕ) : Option (List UInt8) := do
  let id ← w.corpus[i]?
  let offset ← w.lexidx[id.toNat]?
  w.lex.readString offset

/-! ## cwb-decode -/

/-- The replacement of a character in `decode_string_escape`, with `xml_compatible` set. -/
def escapeChar (c : UInt8) : List UInt8 :=
  if c = 34 then [38, 113, 117, 111, 116, 59]
  else if c = 39 then [38, 97, 112, 111, 115, 59]
  else if c = 60 then [38, 108, 116, 59]
  else if c = 62 then [38, 103, 116, 59]
  else if c = 38 then [38, 97, 109, 112, 59]
  else if 0 < c ∧ c < 32 then [32]
  else [c]

/-- `decode_string_escape` with `xml_compatible` set. The result has to fit in the static
buffer, with its terminator. -/
def decodeStringEscape (s : List UInt8) : Option (List UInt8) :=
  let coded := s.flatMap escapeChar
  if coded.length < CL_MAX_LINE_LENGTH then some coded else none

/-- The token line of `decode_print_token_sequence` in `EncodeMode`, for the values of the
p-attributes. -/
def printTokenLine (values : List (List UInt8)) : Option (List UInt8) := do
  let coded ← values.mapM decodeStringEscape
  pure (List.intercalate [9] coded ++ [10])

/-- The start tag line of a region in `EncodeMode`. -/
def printStartTag (name : List UInt8) (annot : Option (List UInt8)) : List UInt8 :=
  [60] ++ name ++ (if annot.isSome then [32] else []) ++ annot.getD [] ++ [62, 10]

end CWB
