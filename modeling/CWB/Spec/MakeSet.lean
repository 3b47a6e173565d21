import CWB.Library.Separated
import CWB.Spec.ClAccess

/-! The values of feature set attributes: `cl_make_set` and `cl_set_size` of `cl/attributes.c`, with the string lists of
`cl/list.c`. A result is `none` where an `int` overflows, a block is written behind its end or the program stops for lack
of memory. -/

namespace CWB.FeatureSets

open List Cqi

/-! ## String lists -/

def LUMPSIZE : ℕ := 64

/-- A list of strings, given by where they start in a buffer. Its memory is allocated in lumps. -/
structure StringList where
  data : List ℕ
  allocated : ℕ
  size_le : data.length ≤ allocated
  lumps : LUMPSIZE ∣ allocated
  allocated_lt : allocated < 2 ^ 31

def clNewStringList : StringList where
  data := []
  allocated := LUMPSIZE
  size_le := Nat.zero_le _
  lumps := dvd_rfl
  allocated_lt := by decide

namespace StringList

/-- The items to be allocated for one more string. -/
def newAlloc (l : StringList) : ℕ :=
  let size := l.data.length + 1
  if size > l.allocated then if size - l.allocated < LUMPSIZE then l.allocated + LUMPSIZE else size
  else l.allocated

theorem newAlloc_eq (l : StringList) : l.newAlloc = if l.data.length = l.allocated then l.allocated + LUMPSIZE else l.allocated := by
  have hle := l.size_le
  have hlump : 1 < LUMPSIZE := by decide
  unfold newAlloc
  simp only
  split_ifs <;> omega

theorem size_le_newAlloc (l : StringList) (val : ℕ) : (l.data ++ [val]).length ≤ l.newAlloc := by
  have hle := l.size_le
  have hlump : 1 < LUMPSIZE := by decide
  rw [newAlloc_eq, length_append, length_singleton]
  split_ifs <;> omega

theorem lumps_newAlloc (l : StringList) : LUMPSIZE ∣ l.newAlloc := by
  rw [newAlloc_eq]
  split_ifs
  · exact Nat.dvd_add l.lumps dvd_rfl
  · exact l.lumps

/-- `cl_string_list_append` -/
def append (l : StringList) (val : ℕ) : Option StringList :=
  if h : l.newAlloc < 2 ^ 31 then some ⟨l.data ++ [val], l.newAlloc, l.size_le_newAlloc val, l.lumps_newAlloc, h⟩
  else none

end StringList

/-! ## Splitting the input -/

def bar : CqiByte := 124

def isBlank (c : CqiByte) : Bool := c = 32 || c = 9 || c = 10

/-- The copy that is cut into elements, with the pointers into it. -/
structure Tokens where
  copy : List CqiByte
  p : ℕ
  mark : ℕ
  l : StringList

def charAt (copy : List CqiByte) (p : ℕ) : CqiByte := copy.getD p 0

/-- `while (go(*p)) p++` -/
def skipWhile (go : CqiByte → Bool) (copy : List CqiByte) (p : ℕ) : ℕ := p + ((copy.drop p).takeWhile go).length

/-- One round of the loop that splits on whitespace. -/
def splitRound (t : Tokens) : Option Tokens := do
  let mark := skipWhile isBlank t.copy t.p
  let p := skipWhile (fun c => c ≠ 0 && !isBlank c) t.copy mark
  let (copy, p) := if charAt t.copy p ≠ 0 then (t.copy.set p 0, p + 1) else (t.copy, p)
  let l ← if p ≠ mark then t.l.append mark else some t.l
  some { copy, p, mark, l }

/-- One round of the loop for the delimited syntax. -/
def barRound (t : Tokens) : Option Tokens :=
  if charAt t.copy t.p = bar then do
    let l ← t.l.append t.mark
    some { copy := t.copy.set t.p 0, p := t.p + 1, mark := t.p + 1, l }
  else some { t with p := t.p + 1 }

/-- `while (*p != 0)`, with the rounds that are left. -/
def tokenLoop (round : Tokens → Option Tokens) : ℕ → Tokens → Option Tokens
  | 0, _ => none
  | rounds + 1, t => if charAt t.copy t.p ≠ 0 then (round t).bind (tokenLoop round rounds) else some t

def Tokens.elements (t : Tokens) : List CString := t.l.data.map fun mark => CString.ofBuffer (t.copy.drop mark)

/-- Step (1) of `cl_make_set`, with `ok`. -/
def splitElements (s : CString) (split : Bool) : Option (Bool × List CString) :=
  let copy := s.bytes ++ [0]
  let start (p : ℕ) : Tokens := { copy, p, mark := p, l := clNewStringList }
  if split then (tokenLoop splitRound copy.length (start 0)).map fun t => (true, t.elements)
  else if charAt copy 0 = bar then
    (tokenLoop barRound copy.length (start 1)).map fun t => (decide (t.p = t.mark), t.elements)
  else some (false, [])

/-! ## Combining the elements -/

/-- A block of memory that is written from its start on. -/
structure SetBuffer where
  allocated : ℕ
  written : List CqiByte
  within : written.length ≤ allocated

namespace SetBuffer

variable (b : SetBuffer)

/-- `*p++ = c` -/
def putChar (c : CqiByte) : Option SetBuffer :=
  if h : b.written.length + 1 ≤ b.allocated then
    some { b with written := b.written ++ [c], within := by rwa [length_append] }
  else none

/-- `strcpy(p, e); p += strlen(e)`: the terminator is going to be overwritten. -/
def strcpy (e : CString) : Option SetBuffer :=
  if h : b.written.length + e.bytes.length + 1 ≤ b.allocated then
    some { b with written := b.written ++ e.bytes, within := by rw [length_append]; omega }
  else none

def putElement (e : CString) : Option SetBuffer := (b.strcpy e).bind fun b => b.putChar bar

end SetBuffer

/-- `cl_malloc` for an `int`: a negative number is converted to an unsigned one, for which there is no memory. -/
def clMalloc (bytes : CInt) : Option SetBuffer :=
  if bytes.toInt < 0 then none else some { allocated := bytes.toInt.toNat, written := [], within := Nat.zero_le _ }

/-- A string with the size of the block that has been allocated for it. -/
structure SetValue where
  allocated : ℕ
  string : CString
deriving DecidableEq

/-- The computed size of the block. -/
def setLength (l : List CString) : CInt := l.foldl (fun sl e => sl + BitVec.ofNat 32 (e.bytes.length + 1)) 2

/-- Step (5) of `cl_make_set`. -/
def combineElements (l : List CString) : Option SetValue := do
  let b ← clMalloc (setLength l)
  let b ← b.putChar bar
  let b ← l.foldlM SetBuffer.putElement b
  let b ← b.putChar 0
  some { allocated := b.allocated, string := CString.ofBuffer b.written }

/-- `cl_string_list_qsort` -/
def sortElements (l : List CString) : List CString := l.mergeSort fun e e' => clStrcmp e.bytes e'.bytes ≤ 0

/-- `cl_make_set`: the value or `NULL`, with `cl_errno`. -/
def clMakeSet (s : CString) (split : Bool) : Option (Option SetValue × Cda) := do
  let (ok, l) ← splitElements s split
  if ok && l.all (fun e => !e.bytes.contains bar) then
    let v ← combineElements (sortElements l)
    some (some v, .ok)
  else some (none, .efsetinv)

/-- `cl_set_size` -/
def clSetSize (s : CString) : ℤ × Cda :=
  match s.bytes with
  | [] => (-1, .efsetinv)
  | c :: rest =>
    if c ≠ bar then (-1, .efsetinv)
    else
      let count : CInt := rest.foldl (fun count c => if c = bar then count + 1 else count) 0
      if s.bytes.getLast? ≠ some bar then (-1, .efsetinv) else (count.toInt, .ok)

/-! ## What the values are -/

/-- The elements of an input: the words, or the parts that end in a separator. -/
def inputElements (s : CString) (split : Bool) : List (List CqiByte) :=
  if split then Separated.words isBlank s.bytes
  else if s.bytes.head? = some bar then (s.bytes.tail.splitOn bar).dropLast else []

/-- No word contains a separator, or the input starts and ends with one. -/
def Valid (s : CString) (split : Bool) : Prop :=
  if split then ∀ e ∈ inputElements s true, bar ∉ e else s.bytes.head? = some bar ∧ s.bytes.getLast? = some bar

instance (s : CString) (split : Bool) : Decidable (Valid s split) :=
  inferInstanceAs (Decidable (if split then _ else _))

/-- The elements in standard syntax. -/
def setText (l : List (List CqiByte)) : List CqiByte := bar :: Separated.closed bar l

/-- The normal form of an input. -/
structure NormalForm (s : CString) (split : Bool) (v : SetValue) : Prop where
  elements : ∃ l : List CString, (l.map CString.bytes).Perm (inputElements s split) ∧
    (l.Pairwise fun e e' => clStrcmp e.bytes e'.bytes ≤ 0) ∧ v.string.bytes = setText (l.map CString.bytes)
  exact : v.allocated = v.string.bytes.length + 1
  again : clMakeSet v.string false = some (some v, .ok)
  size : clSetSize v.string = (((inputElements s split).length : ℤ), Cda.ok)

/-- Exactly the valid inputs have a value, and it is in normal form. -/
def MakesNormalForm (s : CString) (split : Bool) : Prop :=
  if Valid s split then ∃ v, clMakeSet s split = some (some v, .ok) ∧ NormalForm s split v
  else clMakeSet s split = some (none, .efsetinv)

/-- The numbers fit into an `int`: the lumps for the elements, and the size of a value. -/
def Fits (s : CString) (split : Bool) : Prop :=
  (inputElements s split).length ≤ 2 ^ 31 - LUMPSIZE ∧
    (Valid s split → (setText (inputElements s split)).length + 1 < 2 ^ 31)

end CWB.FeatureSets
