import Mathlib.Computability.Language

/-! Regular expressions as the documentation of PCRE describes them: the library itself is not part
of the repository. Only the syntax that the optimiser of `cl/regopt.c` can read is given a meaning:
literal and escaped characters, character types, bracket sets, groups, alternatives and quantifiers.
A rule takes an expression and what is left of it behind the part that is read. What escape sequences
and bracket sets match does not matter and is a parameter. -/

namespace CWB

/-- An element of a bracket set; two characters with a `-` between them are a range. -/
inductive SetToken where
  | char (c : Char)
  | escape (seq : List Char)
deriving Repr, DecidableEq

/-- What the elements of an expression match. -/
structure CharMeaning where
  /-- the characters that a literal character matches, more than one without regard to case -/
  same : Char → Char → Prop
  /-- the characters that `.` matches -/
  dot : Language Char
  escape : List Char → Language Char
  /-- the meaning of a bracket set, which may be negated -/
  set : Bool → List SetToken → Language Char

namespace Pcre

/-- The characters with a special meaning outside of bracket sets. A `{` has one only at the start of
a quantifier. -/
def special : List Char := ['\\', '^', '$', '.', '[', '|', '(', ')', '?', '*', '+', '{']

/-! ## Escape sequences and quantifiers -/

def isXDigit (c : Char) : Bool := c.isDigit || 'a' ≤ c && c ≤ 'f' || 'A' ≤ c && c ≤ 'F'

/-- A name or code in braces, with the braces. -/
def braced (isName : Char → Bool) (i : List Char) : Option (List Char × List Char) :=
  match i.span isName with
  | (name, '}' :: r) => some ('{' :: (name ++ ['}']), r)
  | _ => none

/-- The escape sequences for character types, properties and codes. The octal code that the optimiser
reads, with another `o` in place of the opening brace, does not compile. -/
def escapeSeq : List Char → Option (List Char × List Char)
  | '\\' :: c :: i =>
    if c = 'x' then
      match i with
      | '{' :: i => (braced isXDigit i).map fun (code, r) => ('\\' :: 'x' :: code, r)
      | a :: b :: r => if isXDigit a && isXDigit b then some (['\\', 'x', a, b], r) else none
      | _ => none
    else if c = 'o' then
      match i with
      | '{' :: i | 'o' :: i => (braced Char.isDigit i).map fun (code, r) => ('\\' :: 'o' :: code, r)
      | _ => none
    else if ['w', 'W', 'd', 'D', 's', 'S', 'X'].contains c then some (['\\', c], i)
    else if c = 'p' ∨ c = 'P' then
      match i with
      | '{' :: i => (braced (· ≠ '}') i).map fun (name, r) => ('\\' :: c :: name, r)
      | a :: r => if a.isUpper then some (['\\', c, a], r) else none
      | [] => none
    else none
  | _ => none

def decimal (ds : List Char) : ℕ := ds.foldl (fun n d => 10 * n + (d.toNat - '0'.toNat)) 0

/-- A quantifier: the least and the greatest number of repetitions. Braces with anything else in them
than numbers are literal characters. -/
def quantifier : List Char → Option (ℕ × Option ℕ × List Char)
  | '?' :: r => some (0, some 1, r)
  | '*' :: r => some (0, none, r)
  | '+' :: r => some (1, none, r)
  | '{' :: i =>
    match i.span Char.isDigit with
    | ([], _) => none
    | (n, '}' :: r) => some (decimal n, some (decimal n), r)
    | (n, ',' :: i) =>
      match i.span Char.isDigit with
      | ([], '}' :: r) => some (decimal n, none, r)
      | (m, '}' :: r) => some (decimal n, some (decimal m), r)
      | _ => none
    | _ => none
  | _ => none

/-- A quantifier may be lazy or possessive. -/
def modifier : List Char → List Char
  | '?' :: r | '+' :: r => r
  | r => r

/-- Between `n` and `m` repetitions. -/
def times (L : Language Char) (n : ℕ) (m : Option ℕ) : Language Char :=
  {s | ∃ k, n ≤ k ∧ (∀ m' ∈ m, k ≤ m') ∧ s ∈ L ^ k}

/-- What is left behind an element with the meaning `L`, and its meaning with a quantifier, if any. -/
def repeated (L : Language Char) (i : List Char) : List Char × Language Char :=
  match quantifier i with
  | some (n, m, r) => (modifier r, times L n m)
  | none => (i, L)

/-! ## Bracket sets -/

/-- The rest of a bracket set behind its first element. -/
inductive SetBody : List Char → List Char → List SetToken → Prop
  | close {r : List Char} : SetBody (']' :: r) r []
  | char {i r : List Char} {c : Char} {ts : List SetToken} (hc : c ∉ [']', '\\', '[']) (h : SetBody i r ts) :
      SetBody (c :: i) r (.char c :: ts)
  | bracket {i r : List Char} {ts : List SetToken} (hi : i.head? ∉ [some ':', some '.', some '=']) (h : SetBody i r ts) :
      SetBody ('[' :: i) r (.char '[' :: ts)
  | quoted {i r : List Char} {c : Char} {ts : List SetToken} (hc : ¬c.isAlphanum) (h : SetBody i r ts) :
      SetBody ('\\' :: c :: i) r (.char c :: ts)
  | escape {i j r seq : List Char} {ts : List SetToken} (hseq : escapeSeq i = some (seq, j)) (h : SetBody j r ts) :
      SetBody i r (.escape seq :: ts)

/-! ## Expressions -/

variable (M : CharMeaning)

def literal (c : Char) : Language Char := {s | ∃ d, M.same c d ∧ s = [d]}

mutual

inductive Atom : List Char → List Char → Language Char → Prop
  | dot {r : List Char} : Atom ('.' :: r) r M.dot
  | char {r : List Char} {c : Char} (hc : c ∉ special) : Atom (c :: r) r (literal M c)
  | brace {r : List Char} (hr : quantifier ('{' :: r) = none) : Atom ('{' :: r) r (literal M '{')
  | quoted {r : List Char} {c : Char} (hc : ¬c.isAlphanum) : Atom ('\\' :: c :: r) r (literal M c)
  | escape {i r seq : List Char} (hseq : escapeSeq i = some (seq, r)) : Atom i r (M.escape seq)
  | set {i r : List Char} {ts : List SetToken} (hi : i.head? ∉ [some '^', some ']']) (h : SetBody i r ts) :
      Atom ('[' :: i) r (M.set false ts)
  | setBracket {i r : List Char} {ts : List SetToken} (h : SetBody i r ts) :
      Atom ('[' :: ']' :: i) r (M.set false (.char ']' :: ts))
  | negated {i r : List Char} {ts : List SetToken} (hi : i.head? ≠ some ']') (h : SetBody i r ts) :
      Atom ('[' :: '^' :: i) r (M.set true ts)
  | negatedBracket {i r : List Char} {ts : List SetToken} (h : SetBody i r ts) :
      Atom ('[' :: '^' :: ']' :: i) r (M.set true (.char ']' :: ts))
  | group {i r : List Char} {L : Language Char} (hi : i.head? ≠ some '?') (h : Alternation i (')' :: r) L) :
      Atom ('(' :: i) r L
  | nonCapturing {i r : List Char} {L : Language Char} (h : Alternation i (')' :: r) L) :
      Atom ('(' :: '?' :: ':' :: i) r L

inductive Branch : List Char → List Char → Language Char → Prop
  | nil {r : List Char} : Branch r r 1
  | cons {i j r : List Char} {L L' : Language Char} (h : Atom i j L) (hrest : Branch (repeated L j).1 r L') :
      Branch i r ((repeated L j).2 * L')

inductive Alternation : List Char → List Char → Language Char → Prop
  | last {i r : List Char} {L : Language Char} (h : Branch i r L) : Alternation i r L
  | bar {i j r : List Char} {L L' : Language Char} (h : Branch i ('|' :: j) L) (hrest : Alternation j r L') :
      Alternation i r (L + L')

end

/-- The meaning of a whole expression. -/
def Denotes (regex : List Char) (L : Language Char) : Prop := Alternation M regex [] L

end Pcre

/-- PCRE as far as it is documented: `exec` is `pcre_exec` with the expression `^(?:regex)$`, where `$` also
matches in front of a newline that ends the subject. Possessive quantifiers may lose matches. -/
structure Pcre where
  meaning : CharMeaning
  newline : List Char
  compiles : List Char → Prop
  exec : List Char → List Char → Bool
  documented : ∀ regex L s, compiles regex → Pcre.Denotes meaning regex L → exec regex s = true →
    s ∈ L ∨ ∃ t ∈ L, s = t ++ newline

end CWB

/-! Regular expressions built from literals, `.`, bracket sets, groups, alternatives and quantifiers, as
trees with the text that a user writes for them and their meaning. -/

namespace CWB.RegexTree

open Pcre

/-- A number in a quantifier. -/
structure Digits where
  chars : List Char
  digits : ∀ c ∈ chars, c.isDigit = true
  nonempty : chars ≠ []

inductive Quantity where
  | opt | star | plus
  | exactly (n : Digits)
  | atLeast (n : Digits)
  | between (n m : Digits)

/-- A quantifier, greedy or lazy. -/
structure Quantifier where
  quantity : Quantity
  isLazy : Bool

/-- A character of a bracket set, with or without a backslash. -/
inductive SetItem where
  | plain (c : Char) (hc : c ≠ ']' ∧ c ≠ '\\')
  | quoted (c : Char) (hc : c.isAlphanum = false)

def SetItem.token : SetItem → SetToken
  | .plain c _ => .char c
  | .quoted c _ => .char c

def SetItem.text : SetItem → List Char
  | .plain c _ => [c]
  | .quoted c _ => ['\\', c]

/-- The text of the set after it starts neither a class, nor ends the set or negates it. -/
structure BracketSet where
  negated : Bool
  /-- a `]` at the start, where it does not end the set -/
  bracketFirst : Bool
  items : List SetItem
  nonempty : bracketFirst = false → items ≠ []
  notCaret : negated = false → bracketFirst = false → ∀ c ∈ (items.flatMap SetItem.text).head?, c ≠ '^'
  noClass : items.IsChain fun a b => a.text = ['['] → ∀ c ∈ b.text.head?, c ∉ [':', '.', '=']

namespace BracketSet

variable (b : BracketSet)

def tokens : List SetToken := (if b.bracketFirst then [.char ']'] else []) ++ b.items.map SetItem.token

def body : List Char := b.items.flatMap SetItem.text

def text : List Char :=
  '[' :: ((if b.negated then ['^'] else []) ++ (if b.bracketFirst then [']'] else []) ++ b.body ++ [']'])

end BracketSet

mutual

inductive Atom where
  | dot
  | char (c : Char) (hc : c ∉ special)
  | quoted (c : Char) (hc : c.isAlphanum = false)
  | set (b : BracketSet)
  | group (capturing : Bool) (e : Alternatives)

inductive Branch where
  | nil
  | cons (a : Atom) (q : Option Quantifier) (b : Branch)

inductive Alternatives where
  | last (b : Branch)
  | bar (b : Branch) (e : Alternatives)

end

/-! ## Text -/

def Quantity.text : Quantity → List Char
  | .opt => ['?']
  | .star => ['*']
  | .plus => ['+']
  | .exactly n => '{' :: (n.chars ++ ['}'])
  | .atLeast n => '{' :: (n.chars ++ [',', '}'])
  | .between n m => '{' :: (n.chars ++ ',' :: (m.chars ++ ['}']))

def Quantifier.text (q : Quantifier) : List Char := q.quantity.text ++ if q.isLazy then ['?'] else []

def quantifierText : Option Quantifier → List Char
  | none => []
  | some q => q.text

mutual

def Atom.text : Atom → List Char
  | .dot => ['.']
  | .char c _ => [c]
  | .quoted c _ => ['\\', c]
  | .set b => b.text
  | .group true e => '(' :: (e.text ++ [')'])
  | .group false e => '(' :: '?' :: ':' :: (e.text ++ [')'])

def Branch.text : Branch → List Char
  | .nil => []
  | .cons a q b => a.text ++ quantifierText q ++ b.text

def Alternatives.text : Alternatives → List Char
  | .last b => b.text
  | .bar b e => b.text ++ '|' :: e.text

end

/-! ## Meaning -/

/-- The least and the greatest number of repetitions. -/
def Quantity.bounds : Quantity → ℕ × Option ℕ
  | .opt => (0, some 1)
  | .star => (0, none)
  | .plus => (1, none)
  | .exactly n => (decimal n.chars, some (decimal n.chars))
  | .atLeast n => (decimal n.chars, none)
  | .between n m => (decimal n.chars, some (decimal m.chars))

def quantified (L : Language Char) : Option Quantifier → Language Char
  | none => L
  | some q => times L q.quantity.bounds.1 q.quantity.bounds.2

mutual

def Atom.lang (M : CharMeaning) : Atom → Language Char
  | .dot => M.dot
  | .char c _ => literal M c
  | .quoted c _ => literal M c
  | .set b => M.set b.negated b.tokens
  | .group _ e => e.lang M

def Branch.lang (M : CharMeaning) : Branch → Language Char
  | .nil => 1
  | .cons a q b => quantified (a.lang M) q * b.lang M

def Alternatives.lang (M : CharMeaning) : Alternatives → Language Char
  | .last b => b.lang M
  | .bar b e => b.lang M + e.lang M

end

end CWB.RegexTree
