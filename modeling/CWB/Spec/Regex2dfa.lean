import Mathlib.Computability.RegularExpressions

/-! The scanner, the expression table and the precedence parser of the automaton
generator (`cqp/regex2dfa.c`). The `goto`s of `Parse` become a step function on
configurations, one configuration for each label. -/

namespace CWB.Regex2dfa

inductive Lexical
  | endT | commaT | rParT | rBrT | equalT | barT
  | zeroT | oneT | idenT | lParT | lBrT | plusT | starT
  deriving DecidableEq, Repr

inductive StackTag
  | rule | equ | par | opt | or | and
  deriving DecidableEq, Repr

/-- the letters of the action table -/
inductive Action
  | dot | A | B | C | D | E | F | G | H | I
  | rPar | rBr | equal | v | x | star | plus | bar | amp
  deriving DecidableEq, Repr

abbrev Name := List Char

/-- `struct exp` without its hash chain; arguments are classes. -/
inductive Exp
  | sym (leaf : Name)
  | zero
  | one
  | and (q0 q1 : ℕ)
  | or (q0 q1 : ℕ)
  | star (q0 : ℕ)
  | plus (q0 : ℕ)
  | opt (q0 : ℕ)
  deriving DecidableEq, Repr

/-- `ExpHash` maps an expression to its class, `EquTab` a class to its expression.
The bucket ranges of `ExpHash` are disjoint for different tags and every bucket is
searched by content, so a lookup is by the whole expression. -/
structure Tables where
  expHash : List (Exp × ℕ)
  equTab : List Exp
  deriving Repr

/-- `MakeExp(-1, ...)` -/
def makeExp (t : Tables) (e : Exp) : ℕ × Tables :=
  match t.expHash.lookup e with
  | some q => (q, t)
  | none => (t.equTab.length,
      { expHash := (e, t.equTab.length) :: t.expHash, equTab := t.equTab ++ [e] })

/-- `Store`: the new class hides the one the symbol had. -/
def store (t : Tables) (s : Name) (q : ℕ) : Tables :=
  { t with expHash := (.sym s, q) :: t.expHash }

/-- A card without a class (`-1` in the source) holds `0`, which nothing reads. -/
structure StackCard where
  tag : StackTag
  q : ℕ
  deriving DecidableEq, Repr

def stackMax : ℕ := 200
def maxChar : ℕ := 0x4000
def maxErrors : ℕ := 25

/-- The globals of the module: `input` is `searchstr` from `currpos` on, `chars` is
`ChP - ChArr`, `errors` the messages printed so far, latest first. -/
structure Parser where
  input : List Char
  chars : ℕ
  lastW : Name
  tables : Tables
  stack : List StackCard
  id : Name
  errors : List String
  deriving Repr

/-- what `init` leaves -/
def Parser.init (searchstr : List Char) : Parser :=
  { input := searchstr, chars := 0, lastW := [], tables := ⟨[], []⟩, stack := [], id := [],
    errors := [] }

/-- The labels `LHS`, `EXP` and `END` of `Parse`, its two `return`s (`none` is `-1`)
and `exit(1)` with the last message. -/
inductive ParseConfig
  | atLhs (p : Parser)
  | atExp (l : Lexical) (p : Parser)
  | atEnd (l : Lexical) (rhs : ℕ) (p : Parser)
  | returned (value : Option ℕ) (p : Parser)
  | exited (message : String)
  deriving Repr

/-- `REGEX2DFA_ERROR`, then go on with `k` -/
def Parser.error (p : Parser) (message : String) (k : Parser → ParseConfig) : ParseConfig :=
  if p.errors.length + 1 = maxErrors then .exited "regex2dfa: Reached the 25 error limit."
  else k { p with errors := message :: p.errors }

def isspace (c : Char) : Bool :=
  c = ' ' || c = '\t' || c = '\n' || c = '\x0b' || c = '\x0c' || c = '\r'

def single : Char → Option Lexical
  | '|' => some .barT
  | '(' => some .lParT
  | ')' => some .rParT
  | '[' => some .lBrT
  | ']' => some .rBrT
  | '0' => some .zeroT
  | '1' => some .oneT
  | '*' => some .starT
  | '+' => some .plusT
  | '=' => some .equalT
  | ',' => some .commaT
  | _ => none

def isWord (c : Char) : Bool := c.isAlphanum || c = '_' || c = '$'

/-- Copy characters to `ChArr` until `stop`: the name, the rest and the new fill, or
`none` when the array is full. -/
def copyName (stop : Char → Bool) : List Char → ℕ → Option (Name × List Char × ℕ)
  | [], n => some ([], [], n)
  | c :: cs, n =>
    if stop c then some ([], c :: cs, n)
    else if n = maxChar then none
    else (copyName stop cs (n + 1)).map fun (w, rest, n') => (c :: w, rest, n')

/-- `*ChP++ = '\0'; return IdenT;` -/
def Parser.endName (p : Parser) (w : Name) (rest : List Char) (n : ℕ)
    (k : Lexical → Parser → ParseConfig) : ParseConfig :=
  if n = maxChar then .exited "Out of character space."
  else k .idenT { p with input := rest, chars := n + 1, lastW := w }

/-- `L = LEX();`, then go on with `k` -/
def Parser.lex (p : Parser) (k : Lexical → Parser → ParseConfig) : ParseConfig :=
  match p.input.dropWhile isspace with
  | [] => k .endT { p with input := [] }
  | c :: cs =>
    match single c with
    | some l => k l { p with input := cs }
    | none =>
      if c.isAlpha || c = '_' || c = '$' then
        match copyName (fun c => !isWord c) (c :: cs) p.chars with
        | none => .exited "Out of character space."
        | some (w, rest, n) => p.endName w rest n k
      else if c = '"' then
        match copyName (fun c => c = '"') cs p.chars with
        | none => .exited "Out of character space."
        | some (_, [], _) => .exited "Missing closing \"."
        | some (w, _ :: rest, n) => p.endName w rest n k
      else
        ({ p with input := cs } : Parser).error s!"extra character {c}" (k .endT)

/-- `PUSH`, then go on with `k` -/
def Parser.push (p : Parser) (tag : StackTag) (q : ℕ) (k : Parser → ParseConfig) : ParseConfig :=
  if stackMax ≤ p.stack.length then .exited "Expression too complex ... aborting."
  else k { p with stack := ⟨tag, q⟩ :: p.stack }

def Parser.pop (p : Parser) : Parser := { p with stack := p.stack.tail }

/-- `RHS = MakeExp(-1, e);`, then go on with `k` -/
def Parser.make (p : Parser) (e : Exp) (k : ℕ → Parser → ParseConfig) : ParseConfig :=
  k (makeExp p.tables e).1 { p with tables := (makeExp p.tables e).2 }

/-- one row for each stack tag, one column for each lexical symbol `$ , ) ] = | 0 1 x ( [ + *` -/
def actionRow : StackTag → List Action
  | .rule => [.dot, .A, .B, .C, .H, .bar, .amp, .amp, .amp, .amp, .amp, .plus, .star]
  | .equ => [.I, .equal, .B, .C, .H, .bar, .amp, .amp, .amp, .amp, .amp, .plus, .star]
  | .par => [.D, .D, .rPar, .F, .H, .bar, .amp, .amp, .amp, .amp, .amp, .plus, .star]
  | .opt => [.E, .E, .G, .rBr, .H, .bar, .amp, .amp, .amp, .amp, .amp, .plus, .star]
  | .or => [.v, .v, .v, .v, .v, .bar, .amp, .amp, .amp, .amp, .amp, .plus, .star]
  | .and => [.x, .x, .x, .x, .x, .x, .amp, .amp, .amp, .amp, .amp, .plus, .star]

def action (tag : StackTag) (l : Lexical) : Action := (actionRow tag).getD l.ctorIdx .dot

/-- label `MakeOpt` -/
def Parser.makeOpt (p : Parser) (l : Lexical) (rhs : ℕ) : ParseConfig :=
  p.pop.make (.opt rhs) fun q p => .atEnd l q p

/-- the `switch` behind label `END`, with the top of the stack taken off -/
def perform (p : Parser) (top : StackCard) (l : Lexical) (rhs : ℕ) : ParseConfig :=
  match action top.tag l with
  | .A => .exited "Extra ','"
  | .B => p.error "Unmatched )." fun p => p.lex fun l p => .atEnd l rhs p
  | .C => p.error "Unmatched ]." fun p => p.lex fun l p => .atEnd l rhs p
  | .D => p.error "Unmatched (." fun p => .atEnd l rhs p.pop
  | .E => p.error "Unmatched [." fun p => p.makeOpt l rhs
  | .F => p.error "( ... ]." fun p => p.pop.lex fun l p => .atEnd l rhs p
  | .G => p.error "[ ... )." fun p => p.lex fun l p => p.makeOpt l rhs
  | .H => .exited "Left-hand side of '=' must be symbol."
  | .I => .exited "Missing evaluation."
  | .dot => .returned (some rhs) p.pop
  | .rPar => p.pop.lex fun l p => .atEnd l rhs p
  | .rBr => p.lex fun l p => p.makeOpt l rhs
  | .equal => .atLhs { p with tables := store p.tables p.id rhs, stack := p.stack.tail }
  | .v => p.pop.make (.or top.q rhs) fun q p => .atEnd l q p
  | .x => p.pop.make (.and top.q rhs) fun q p => .atEnd l q p
  | .star => p.make (.star rhs) fun q p => p.lex fun l p => .atEnd l q p
  | .plus => p.make (.plus rhs) fun q p => p.lex fun l p => .atEnd l q p
  | .bar => p.push .or rhs fun p => p.lex fun l p => .atExp l p
  | .amp => p.push .and rhs fun p => .atExp l p

/-- from one label of `Parse` to the next -/
def parseStep : ParseConfig → ParseConfig
  | .atLhs p => p.lex fun (l : Lexical) p =>
      if l = .idenT then
        ({ p with id := p.lastW } : Parser).lex fun (l : Lexical) p =>
          if l = .equalT then p.push .equ 0 fun p => p.lex fun l p => .atExp l p
          else p.push .rule 0 fun p => p.make (.sym p.id) fun q p => .atEnd l q p
      else p.push .rule 0 fun p => .atExp l p
  | .atExp l p =>
    match l with
    | .lParT => p.push .par 0 fun p => p.lex fun l p => .atExp l p
    | .lBrT => p.push .opt 0 fun p => p.lex fun l p => .atExp l p
    | .zeroT => p.make .zero fun q p => p.lex fun l p => .atEnd l q p
    | .oneT => p.make .one fun q p => p.lex fun l p => .atEnd l q p
    | .idenT => p.make (.sym p.lastW) fun q p => p.lex fun l p => .atEnd l q p
    | _ => p.error "Corrupt expression." fun p => .returned none p
  | .atEnd l rhs p =>
    match p.stack with
    | [] => .atEnd l rhs p
    | top :: _ => perform p top l rhs
  | .returned q p => .returned q p
  | .exited m => .exited m

/-- `Parse` on a search string, label by label -/
def parse (searchstr : List Char) (n : ℕ) : ParseConfig :=
  parseStep^[n] (.atLhs (Parser.init searchstr))

/-! ### What a class of the expression table denotes -/

def Exp.regex (es : List (RegularExpression Name)) : Exp → RegularExpression Name
  | .sym a => .char a
  | .zero => 0
  | .one => 1
  | .and p q => es.getD p 0 * es.getD q 0
  | .or p q => es.getD p 0 + es.getD q 0
  | .star p => (es.getD p 0).star
  | .plus p => es.getD p 0 * (es.getD p 0).star
  | .opt p => 1 + es.getD p 0

/-- A class refers to earlier classes only, so the table is read from the left. -/
def expressions (equTab : List Exp) : List (RegularExpression Name) :=
  equTab.foldl (fun es e => es ++ [e.regex es]) []

def Tables.language (t : Tables) (q : ℕ) : Language Name :=
  ((expressions t.equTab).getD q 0).matches'

end CWB.Regex2dfa
