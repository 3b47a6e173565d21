import CWB.Spec.Regex2dfa

/-! The token-level expression of a query and the string it is handed over to the
automaton generator in (`evaltree2searchstr` of `cqp/tree.c`). -/

namespace CWB

open Nat

/-- The regular part of an evaluation tree; `max = none` is `repeat_inf`. The parser
never builds `re_oi_concat` nodes. -/
inductive Evaltree
  | leaf (patindex : ℕ)
  | concat (left right : Evaltree)
  | disj (left right : Evaltree)
  | repetition (left : Evaltree) (min : ℕ) (max : Option ℕ)
  deriving DecidableEq, Repr

namespace Evaltree

/-- `{min,max}` with `min ≤ max`, and at least one copy allowed -/
def Admissible : Evaltree → Prop
  | .leaf _ => True
  | .concat l r => l.Admissible ∧ r.Admissible
  | .disj l r => l.Admissible ∧ r.Admissible
  | .repetition l min max =>
    l.Admissible ∧ (∀ m, max = some m → min ≤ m) ∧ ¬(min = 0 ∧ max = some 0)

/-- The words over pattern indices that the tree stands for. -/
def language : Evaltree → Language ℕ
  | .leaf n => {[n]}
  | .concat l r => l.language * r.language
  | .disj l r => l.language + r.language
  | .repetition l min max =>
    {w | ∃ n, min ≤ n ∧ (∀ m, max = some m → n ≤ m) ∧ w ∈ l.language ^ n}

end Evaltree

/-- `n` copies of `s` one after the other -/
def copies (n : ℕ) (s : List Char) : List Char := (List.replicate n s).flatten

def evaltree2searchstr : Evaltree → List Char
  | .leaf patindex => [' ', '"'] ++ toDigits 10 patindex ++ ['"', ' ']
  | .concat l r => evaltree2searchstr l ++ [' '] ++ evaltree2searchstr r
  | .disj l r =>
    ['(', ' '] ++ evaltree2searchstr l ++ [' ', '|', ' '] ++ evaltree2searchstr r ++ [' ', ')']
  | .repetition l min max =>
    let left := evaltree2searchstr l
    -- the special cases first
    if min = 0 ∧ max = none then ['(', ' '] ++ left ++ [' ', ')', '*']
    else if min = 1 ∧ max = none then ['(', ' '] ++ left ++ [' ', ')', '+']
    else if min = 0 ∧ max = some 1 then ['[', ' '] ++ left ++ [' ', ']']
    else
      copies min (left ++ [' ']) ++
        match max with
        | none => ['(', ' '] ++ left ++ [' ', ')', '*']
        | some max =>
          let remain := max - min
          copies remain (['['] ++ left ++ [' ']) ++ copies remain [']']

namespace Evaltree

/-! ### What the tree asks of the fixed tables of the automaton generator -/

/-- atoms at the top level of the printed tree -/
def width : Evaltree → ℕ
  | .leaf _ => 1
  | .concat l r => l.width + r.width
  | .disj _ _ => 1
  | .repetition l min max =>
    if min = 0 ∧ max = none ∨ min = 1 ∧ max = none ∨ min = 0 ∧ max = some 1 then 1
    else min * l.width + if max = some min then 0 else 1

/-- parser stack entries the printed tree needs above those of its context -/
def stackNeed : Evaltree → ℕ
  | .leaf _ => 0
  | .concat l r => Nat.max l.stackNeed (l.width + r.stackNeed)
  | .disj l r => Nat.max (1 + l.stackNeed) (2 + r.stackNeed)
  | .repetition l min max =>
    if min = 0 ∧ max = none ∨ min = 1 ∧ max = none ∨ min = 0 ∧ max = some 1 then
      1 + l.stackNeed
    else
      match max with
      | none => min * l.width + (1 + l.stackNeed)
      | some m =>
        if m = min then (min - 1) * l.width + l.stackNeed
        else min * l.width + (m - min - 1) * (1 + l.width) + (1 + l.stackNeed)

/-- bytes of pattern names in the printed tree, each with its final `NUL` -/
def nameBytes : Evaltree → ℕ
  | .leaf n => (toDigits 10 n).length + 1
  | .concat l r => l.nameBytes + r.nameBytes
  | .disj l r => l.nameBytes + r.nameBytes
  | .repetition l min max =>
    match max with
    | none => if min = 0 then l.nameBytes else if min = 1 then l.nameBytes
        else (min + 1) * l.nameBytes
    | some m => m * l.nameBytes

/-- The parser stack and the name buffer are large enough for the printed tree. -/
def FitsParser (t : Evaltree) : Prop :=
  1 + t.stackNeed ≤ Regex2dfa.stackMax ∧ t.nameBytes ≤ Regex2dfa.maxChar

end Evaltree

/-! ### The buffers of `evaltree2searchstr` -/

inductive BufferFault where
  /-- an `int` is too small for a length -/
  | overflow
  /-- a byte is written behind the end of an allocated block -/
  | overrun
  deriving DecidableEq, Repr

def intMax : ℕ := 2 ^ 31 - 1

/-- A length computed as an `int`. All terms are non-negative, so the partial sums are smaller. -/
def checkedInt (n : ℕ) : Except BufferFault ℕ := if n ≤ intMax then .ok n else .error .overflow

/-- `result[p++] = c` for one character after the other -/
def putChars (size : ℕ) : ℕ → List Char → Except BufferFault ℕ
  | p, [] => .ok p
  | p, _ :: cs => if p < size then putChars size (p + 1) cs else .error .overrun

/-- A block of `length` bytes is allocated and filled with a string and its final `NUL`. -/
def fillBlock (length : ℕ) (text : List Char) : Except BufferFault (List Char × ℕ) := do
  let _ ← putChars length 0 (text ++ ['\x00'])
  return (text, length)

/-- `MAXPATTERNS` -/
def maxPatterns : ℕ := 5000

/-- The size of `numstr` -/
def numstrSize : ℕ := 10

/-- `evaltree2searchstr` with the blocks it allocates: the string and `*length`. -/
def searchstrBlock : Evaltree → Except BufferFault (List Char × ℕ)
  | .leaf patindex => do
    let (result, _) ← fillBlock numstrSize ([' ', '"'] ++ toDigits 10 patindex ++ ['"', ' '])
    fillBlock (result.length + 1) result
  | .concat l r => do
    let (left, lenL) ← searchstrBlock l
    let (right, lenR) ← searchstrBlock r
    let length ← checkedInt (lenL + lenR + 1)
    fillBlock length (left ++ [' '] ++ right)
  | .disj l r => do
    let (left, lenL) ← searchstrBlock l
    let (right, lenR) ← searchstrBlock r
    let length ← checkedInt (lenL + lenR + 7)
    fillBlock length (['(', ' '] ++ left ++ [' ', '|', ' '] ++ right ++ [' ', ')'])
  | .repetition l min max => do
    let (left, lenL) ← searchstrBlock l
    if min = 0 ∧ max = none then
      let length ← checkedInt (lenL + 5)
      fillBlock length (['(', ' '] ++ left ++ [' ', ')', '*'])
    else if min = 1 ∧ max = none then
      let length ← checkedInt (lenL + 5)
      fillBlock length (['(', ' '] ++ left ++ [' ', ')', '+'])
    else if min = 0 ∧ max = some 1 then
      let length ← checkedInt (lenL + 4)
      fillBlock length (['[', ' '] ++ left ++ [' ', ']'])
    else
      let length ← checkedInt (min * (lenL + 1))
      match max with
      | none =>
        let length ← checkedInt (length + lenL + 5)
        fillBlock length (copies min (left ++ [' ']) ++ (['(', ' '] ++ left ++ [' ', ')', '*']))
      | some max =>
        let remain := max - min
        let length ← checkedInt (length + remain * (lenL + 4))
        fillBlock length (copies min (left ++ [' ']) ++
          (copies remain (['['] ++ left ++ [' ']) ++ copies remain [']']))

/-- `strspn(searchstr, " ") == strlen(searchstr)`: `do_SearchPattern` rejects the query. -/
def vacuous (searchstr : List Char) : Bool := searchstr.all (· = ' ')

namespace Evaltree

/-- What the parser builds: `max` is at least `min`, and the pattern index is one of the pattern list. -/
def Parsed : Evaltree → Prop
  | .leaf patindex => patindex ≤ maxPatterns
  | .concat l r | .disj l r => l.Parsed ∧ r.Parsed
  | .repetition l min max => l.Parsed ∧ ∀ m, max = some m → min ≤ m

/-- No factor is repeated `{0}`, `{0,0}` or `{,0}`. -/
def NoZero : Evaltree → Prop
  | .leaf _ => True
  | .concat l r | .disj l r => l.NoZero ∧ r.NoZero
  | .repetition l min max => l.NoZero ∧ ¬(min = 0 ∧ max = some 0)

/-- The size that the formulas for the printed tree ask for. -/
def blockSize : Evaltree → ℕ
  | .leaf patindex => (toDigits 10 patindex).length + 5
  | .concat l r => l.blockSize + r.blockSize + 1
  | .disj l r => l.blockSize + r.blockSize + 7
  | .repetition l min max =>
    if min = 0 ∧ max = none then l.blockSize + 5
    else if min = 1 ∧ max = none then l.blockSize + 5
    else if min = 0 ∧ max = some 1 then l.blockSize + 4
    else
      match max with
      | none => min * (l.blockSize + 1) + l.blockSize + 5
      | some max => min * (l.blockSize + 1) + (max - min) * (l.blockSize + 4)

end Evaltree

end CWB
