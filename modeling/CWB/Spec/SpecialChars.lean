import CWB.Library.Block
import CWB.Library.Decimal

/-! String functions of `cl/special-chars.c` that work in the memory of a string. A block is the memory from a pointer
on, and `none` an access outside of it or an `int` that overflows. -/

namespace CWB.SpecialChars

/-! ## cl_string_zap_controls -/

/-- The table `zappable`, with its flags set, for the bytes that it has an entry for. -/
def zappable (zapTabs zapNewlines : Bool) (c : Byte) : Bool :=
  c < 0x20 && (if c = 0x09 then zapTabs else if c = 0x0d ∨ c = 0x0a then zapNewlines else true)

/-- `for (i = 0 ; (str[i] = str[i+1]) ; i++)`, from round `i` on. -/
def downCopy (i : ℕ) : Block → Option Block
  | _ :: next :: str =>
    if i + 1 < 2 ^ 31 then
      if next = 0 then some (next :: next :: str) else (downCopy (i + 1) (next :: str)).map (next :: ·)
    else none
  | _ => none

/-- `str++`, and the rest of the loop. -/
def stepOver (loop : Block → Option (ℕ × Block)) : Block → Option (ℕ × Block)
  | [] => none
  | c :: str => (loop str).map fun r => (r.1, c :: r.2)

/-- The loop over the string; each round moves on by one byte. -/
def zapLoop (zap : Byte → Bool) (replace : Byte) : ℕ → ℕ → Block → Option (ℕ × Block)
  | _, _, [] => none
  | 0, _, _ => none
  | fuel + 1, num, c :: str =>
    if c = 0 then some (num, c :: str)
    else if zap c then
      if num + 1 < 2 ^ 31 then
        (if replace ≠ 0 then some (replace :: str) else downCopy 0 (c :: str)).bind (stepOver (zapLoop zap replace fuel (num + 1)))
      else none
    else stepOver (zapLoop zap replace fuel num) (c :: str)

/-- The parameter `charset` is not used. -/
def clStringZapControls (s : Block) (replace : Byte) (zapTabs zapNewlines : Bool) : Option (ℕ × Block) :=
  zapLoop (zappable zapTabs zapNewlines) replace s.length 0 s

/-- All other characters are kept in their order, and the controls replaced if there is a replacement. -/
def withoutControls (zap : Byte → Bool) (replace : Byte) (s : List Byte) : List Byte :=
  if replace = 0 then s.filter fun c => !zap c else s.map fun c => if zap c then replace else c

/-- The controls of a string are removed completely and counted, whatever follows it in memory. -/
def ZapsControls (s : Block.Str) (replace : Byte) (zapTabs zapNewlines : Bool) : Prop :=
  ∀ behind : Block, ∃ after out,
    clStringZapControls (Block.ofString s.chars ++ behind) replace zapTabs zapNewlines =
        some (s.chars.countP (zappable zapTabs zapNewlines), after) ∧
      after.scanString = some out ∧ out = withoutControls (zappable zapTabs zapNewlines) replace s.chars ∧
        ∀ c ∈ out, zappable zapTabs zapNewlines c = false

/-! ## cl_string_latex2iso -/

def char (c : Char) : Byte := UInt8.ofNat c.toNat

def backslash : Byte := 0x5C

/-- The switch statements behind a double quote (diaeresis), an apostrophe (aigu), a backquote (grave), `^`, `,` and `~`. -/
def accentTable : List (Byte × List (Char × Byte)) :=
  [(0x22, [('A', 0xC4), ('E', 0xCB), ('I', 0xCF), ('O', 0xD6), ('U', 0xDC),
      ('a', 0xE4), ('e', 0xEB), ('i', 0xEF), ('o', 0xF6), ('u', 0xFC), ('s', 0xDF)]),
    (0x27, [('A', 0xC1), ('E', 0xC9), ('I', 0xCD), ('O', 0xD3), ('U', 0xDA),
      ('a', 0xE1), ('e', 0xE9), ('i', 0xED), ('o', 0xF3), ('u', 0xFA)]),
    (0x60, [('A', 0xC0), ('E', 0xC8), ('I', 0xCC), ('O', 0xD2), ('U', 0xD9),
      ('a', 0xE0), ('e', 0xE8), ('i', 0xEC), ('o', 0xF2), ('u', 0xF9)]),
    (0x5E, [('A', 0xC2), ('E', 0xCA), ('I', 0xCE), ('O', 0xD4), ('U', 0xDB),
      ('a', 0xE2), ('e', 0xEA), ('i', 0xEE), ('o', 0xF4), ('u', 0xFB)]),
    (0x2C, [('C', 0xC7), ('c', 0xE7)]),
    (0x7E, [('N', 0xD1), ('n', 0xF1)])]

def isAccent (accent : Byte) : Bool := (accentTable.lookup accent).isSome

/-- The case for a letter, unless it is the default. -/
def accented (accent letter : Byte) : Option Byte :=
  (accentTable.lookup accent).bind fun cases => (cases.find? fun p => char p.1 = letter).map Prod.snd

/-- The input, and the result unless it is the input buffer itself. -/
structure Buffers where
  str : Block
  result : Option Block

def Buffers.write (m : Buffers) (p : ℕ) (c : Byte) : Option Buffers :=
  match m.result with
  | none => (m.str.store p [c]).map fun str => { str := str, result := none }
  | some result => (result.store p [c]).map fun result => { str := m.str, result := some result }

structure LatexState where
  memory : Buffers
  c : Byte
  srcPos : ℕ
  targetPos : ℕ

namespace LatexState

/-- `c = popc(str, src_pos)` -/
def popc (st : LatexState) : Option LatexState :=
  st.memory.str[st.srcPos]?.map fun c => { st with c := c, srcPos := st.srcPos + 1 }

/-- `isdigit(c) && isdigit(str[src_pos]) && isdigit(str[src_pos+1])` -/
def threeDigits (st : LatexState) : Option Bool :=
  if Decimal.isdigit st.c then do
    let c₁ ← st.memory.str[st.srcPos]?
    if Decimal.isdigit c₁ then (st.memory.str[st.srcPos + 1]?).map Decimal.isdigit else some false
  else some false

/-- The loop over the digits. -/
def readOctal : ℕ → ℕ → LatexState → Option (ℕ × LatexState)
  | 0, val, st => some (val, st)
  | n + 1, val, st => do
    let next ← st.popc
    readOctal n (val * 8 + (st.c - 0x30).toNat % 8) next

/-- The branches behind a backslash. -/
def readEscape (st : LatexState) : Option (LatexState × List Byte × Bool) := do
  if ← st.threeDigits then
    let (val, st) ← readOctal 3 0 st
    some (st, [UInt8.ofNat (val % 256)], false)
  else if isAccent st.c then
    let accent := st.c
    let st ← st.popc
    match accented accent st.c with
    | some iso => some (st, [iso], true)
    | none => some (st, [accent, st.c], true)
  else some (st, [backslash, st.c], true)

/-- The branches of the loop up to their calls of `pushc`: what is pushed, and whether `c = popc(str, src_pos)` follows. -/
def readUnit (st : LatexState) : Option (LatexState × List Byte × Bool) :=
  if st.c ≠ backslash then some (st, [st.c], true) else st.popc.bind readEscape

/-- `pushc` for one character after the other; `true` is the jump to `endloop`. -/
def pushAll (targetLen : ℤ) : List Byte → LatexState → Option (LatexState × Bool)
  | [], st => some (st, false)
  | c :: chars, st => do
    let memory ← st.memory.write st.targetPos c
    let st := { st with memory := memory, targetPos := st.targetPos + 1 }
    if (st.targetPos : ℤ) ≥ targetLen then some (st, true) else pushAll targetLen chars st

/-- A round of the loop, each of which reads at least one byte. -/
def loop (targetLen : ℤ) : ℕ → LatexState → Option LatexState
  | 0, _ => none
  | fuel + 1, st =>
    if st.c ≠ 0 ∧ (st.targetPos : ℤ) < targetLen then do
      let (st, chars, more) ← st.readUnit
      let (st, full) ← pushAll targetLen chars st
      if full then some st
      else if more then st.popc.bind (loop targetLen fuel)
      else loop targetLen fuel st
    else some st

end LatexState

/-- The part of the function that converts; the buffers afterwards. -/
def latexBuffers (memory : Buffers) (targetLen : ℤ) : Option Buffers := do
  let st ← LatexState.popc { memory := memory, c := 0, srcPos := 0, targetPos := 0 }
  let st ← st.loop targetLen (memory.str.length + 1)
  st.memory.write st.targetPos 0

inductive LatexResult where
  | null
  | buffer (result : Block)
  | str

/-- The memory that the returned pointer points to. -/
def clStringLatex2iso (heap : ℕ → Byte) (clAllowLatex2iso : Bool) (str : Block) (result : LatexResult) (targetLen : ℤ) : Option Block :=
  if !clAllowLatex2iso then
    match result with
    | .buffer result => str.scanString.bind fun s => result.store 0 (Block.ofString s)
    | .str => some str
    | .null => str.scanString.map Block.ofString
  else
    match result with
    | .buffer result => (latexBuffers { str := str, result := some result } targetLen).bind Buffers.result
    | .str => (latexBuffers { str := str, result := none } targetLen).map Buffers.str
    | .null => do
      let s ← str.scanString
      let memory ← latexBuffers { str := str, result := some (Block.malloc heap (s.length + 1)) } s.length
      memory.result

/-- The conversion keeps within the string and within `target_len`, and is the same in place. The blocks end with the
terminator of the string and with the space for `target_len` characters and a terminator, and any other access fails. -/
def ConvertsInBounds (s : Block.Str) (targetLen : ℤ) : Prop :=
  ∃ out : List Byte, out.length ≤ targetLen.toNat ∧
    (∀ heap result, targetLen.toNat + 1 ≤ result.length →
      clStringLatex2iso heap true (Block.ofString s.chars) (.buffer result) targetLen =
        some (out ++ 0 :: result.drop (out.length + 1))) ∧
    (∀ heap, clStringLatex2iso heap true (Block.ofString s.chars) .str targetLen =
      some (out ++ 0 :: (Block.ofString s.chars).drop (out.length + 1))) ∧
    ∀ str, Block.scanString (out ++ [0]) = some str → str.length ≤ s.chars.length

end CWB.SpecialChars
