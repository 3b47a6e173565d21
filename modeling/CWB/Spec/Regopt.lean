import Mathlib.Algebra.Order.Ring.Int
import CWB.Spec.Pcre

/-! The search of the regular expression optimiser of `cl/regopt.c`: an optimised `CL_Regex` gets its
grains from the analyser, and `cl_regex_match` calls PCRE only for a string in which it finds a grain.
Strings are byte strings. -/

namespace CWB.Regopt

def CL_MAX_LINE_LENGTH : ℕ := 4096

/-- The optimiser data of a `CL_Regex`. -/
structure ClRegex where
  grain : List (List UInt8)
  grainLen : ℕ
  anchorStart : Bool
  anchorEnd : Bool
  jumptable : UInt8 → ℕ

/-- The loop over the bytes of one grain from its last one, `j` bytes away from it. -/
def shortestJump (ch : UInt8) : List UInt8 → ℕ → ℕ → ℕ
  | [], _, jump => jump
  | c :: rest, j, jump => if c = ch then (if j < jump then j else jump) else shortestJump ch rest (j + 1) jump

/-- `make_jump_table`: the smallest jump distance for each byte, 0 for the last byte of a grain. -/
def makeJumpTable (grain : List (List UInt8)) (grainLen : ℕ) (ch : UInt8) : ℕ :=
  if grain = [] then 0 else grain.foldl (fun jump g => shortestJump ch g.reverse 0 jump) grainLen

/-- The grains that are copied, cut to the common length, and the anchors that survive. -/
structure CopyState where
  grain : List (List UInt8)
  anchorStart : Bool
  anchorEnd : Bool

def copyGrain (len : ℕ) (cutPrefix : Bool) (s : CopyState) (grain : List UInt8) : CopyState :=
  if grain.length > len then
    if cutPrefix then { s with grain := s.grain ++ [grain.drop (grain.length - len)], anchorStart := false }
    else { s with grain := s.grain ++ [grain.take len], anchorEnd := false }
  else { s with grain := s.grain ++ [grain] }

/-- `regopt_data_copy_to_regex_object`. Case folding with `cl_string_canonical` is `casefold`. -/
def regoptDataCopyToRegexObject (casefold : List UInt8 → List UInt8) (icase : Bool) (grain : List (List UInt8))
    (anchorStart anchorEnd : Bool) : ClRegex :=
  let grain := if icase then grain.map casefold else grain
  let len := grain.foldl (fun len g => if g.length < len then g.length else len) CL_MAX_LINE_LENGTH
  let cutPrefix := anchorEnd && !anchorStart
  let s := grain.foldl (copyGrain len cutPrefix) { grain := [], anchorStart := anchorStart, anchorEnd := anchorEnd }
  { grain := s.grain, grainLen := len, anchorStart := s.anchorStart, anchorEnd := s.anchorEnd,
    jumptable := makeJumpTable s.grain len }

/-- The comparison of a grain with the haystack; `none` is a read outside of it. -/
def grainAt (haystack : List UInt8) : List UInt8 → ℕ → Option Bool
  | [], _ => some true
  | c :: grain, i => do
    let h ← haystack[i]?
    if c = h then grainAt haystack grain (i + 1) else some false

/-- The loop over the grains, which ends with the first that matches. -/
def anyGrainAt (haystack : List UInt8) (i : ℕ) : List (List UInt8) → Option Bool
  | [] => some false
  | g :: grain => do
    if ← grainAt haystack g i then some true else anyGrainAt haystack i grain

/-- The search loop of `cl_regex_match`, with the rounds that are left. A match does not end it. -/
def searchLoop (rx : ClRegex) (haystack : List UInt8) (maxI : ℤ) : ℕ → ℕ → Bool → Option Bool
  | 0, i, grainMatch => if i ≤ maxI then none else some grainMatch
  | fuel + 1, i, grainMatch =>
    if i ≤ maxI then do
      let ch ← haystack[i + rx.grainLen - 1]?
      let jump := rx.jumptable ch
      let (i, grainMatch) ←
        if jump > 0 then some (i + jump, grainMatch)
        else do
          let found ← anyGrainAt haystack i rx.grain
          some (i + 1, grainMatch || found)
      if rx.anchorStart then some grainMatch else searchLoop rx haystack maxI fuel i grainMatch
    else some grainMatch

/-- The search of `cl_regex_match` in a haystack; `len` is the length of the string that PCRE gets. -/
def grainSearch (rx : ClRegex) (haystack : List UInt8) (len : ℕ) : Option Bool :=
  let maxI : ℤ := len - rx.grainLen
  let i := if rx.anchorEnd then (if maxI ≥ 0 then maxI.toNat else 0) else 0
  searchLoop rx haystack maxI (len + 1) i false

/-! The analyser of the regular expression optimiser, `cl_regopt_analyse` of `cl/regopt.c`. The
expression is a list of characters, in UTF-8 as well as in the other character sets; a pointer into
it is what is left of it, and the NUL at its end the empty list. A reader that returns the pointer it
was given, since there is nothing that it can read, returns `none` here. -/

def MAX_GRAINS : ℕ := 12

/-- `is_safe_char`: a character that stands for itself. -/
def isSafeChar (c : Char) : Bool :=
  'A' ≤ c && c ≤ 'Z' || 'a' ≤ c && c ≤ 'z' || '0' ≤ c && c ≤ '9' || c.toNat ≥ 128 ||
    ['!', '"', '#', '%', '&', '\'', ',', '-', '/', ':', ';', '<', '=', '>', '@', '_', '`', '~'].contains c

def isAsciiAlnum (c : Char) : Bool := 'A' ≤ c && c ≤ 'Z' || 'a' ≤ c && c ≤ 'z' || '0' ≤ c && c ≤ '9'

def isAsciiPunct (c : Char) : Bool :=
  ['!', '"', '#', '$', '%', '&', '(', '\'', ')', '*', '+', ',', '-', '.', '/', ':', ';', '<', '=', '>', '?', '@', '[', '\\',
    ']', '^', '_', '`', '{', '|', '}', '~'].contains c

def isHexadecimal (c : Char) : Bool := 'A' ≤ c && c ≤ 'F' || 'a' ≤ c && c ≤ 'f' || '0' ≤ c && c ≤ '9'

/-- What follows a closing brace. -/
def afterBrace : List Char → Option (List Char)
  | '}' :: point => some point
  | _ => none

/-- `read_escape_seq`. The octal code is expected behind `\oo`, not `\o{`. -/
def readEscapeSeq : List Char → Option (List Char)
  | '\\' :: c :: point =>
    if c = 'x' then
      match point with
      | '{' :: point => afterBrace (point.dropWhile isHexadecimal)
      | a :: b :: point => if isHexadecimal a && isHexadecimal b then some point else none
      | _ => none
    else if c = 'o' then
      match point with
      | 'o' :: point => afterBrace (point.dropWhile fun c => '0' ≤ c && c ≤ '7')
      | _ => none
    else if ['w', 'W', 'd', 'D', 's', 'S', 'X'].contains c then some point
    else if c = 'p' ∨ c = 'P' then
      match point with
      | '{' :: point => afterBrace (point.dropWhile fun c => isAsciiAlnum c || c = '_' || c = '&')
      | a :: point => if 'A' ≤ a && a ≤ 'Z' then some point else none
      | [] => none
    else none
  | _ => none

/-- The loop over the elements of a character set. -/
def skipSet : ℕ → List Char → List Char
  | 0, point => point
  | fuel + 1, point =>
    match point with
    | [] => []
    | c :: rest =>
      if isSafeChar c || c = '-' then skipSet fuel rest
      else match readEscapeSeq point with
        | some p2 => skipSet fuel p2
        | none => point

/-- The end of a character set behind its opening bracket. The empty set is excluded, but not the
empty negated one. -/
def readSet (point : List Char) : Option (List Char) :=
  let rest := skipSet point.length (match point with | '^' :: point => point | _ => point)
  match rest with
  | ']' :: after => if rest.length < point.length then some after else none
  | _ => none

/-- `read_matchall`: an element that matches some character. -/
def readMatchall : List Char → Option (List Char)
  | [] => none
  | c :: point =>
    if c = '.' then some point
    else if isSafeChar c then some point
    else if c = '\\' then readEscapeSeq (c :: point)
    else if c = '[' then readSet point
    else none

/-- A lazy or possessive quantifier. -/
def skipModifier : List Char → List Char
  | '?' :: point | '+' :: point => point
  | point => point

/-- `read_kleene`, with `one_or_more`. -/
def readKleene : List Char → Option (List Char × Bool)
  | '?' :: point | '*' :: point => some (skipModifier point, false)
  | '+' :: point => some (skipModifier point, true)
  | '{' :: point =>
    match afterBrace (point.dropWhile fun c => '0' ≤ c && c ≤ '9' || c = ',') with
    | some rest => some (skipModifier rest, point.head?.any fun c => '1' ≤ c && c ≤ '9')
    | none => none
  | _ => none

/-- `read_kleene` where `one_or_more` is not wanted: what follows the quantifier, if there is one. -/
def afterKleene (point : List Char) : List Char :=
  match readKleene point with
  | some (rest, _) => rest
  | none => point

/-- The start of a capturing or non-capturing group. -/
def openGroup : List Char → Option (List Char)
  | '(' :: '?' :: ':' :: point => some point
  | '(' :: '?' :: _ => none
  | '(' :: point => some point
  | _ => none

mutual

/-- `read_wildcard`. Every call gets fuel for all characters that are left. -/
def readWildcard : ℕ → List Char → Option (List Char)
  | fuel, mark =>
    match readMatchall mark with
    | some point => some (afterKleene point)
    | none =>
      match fuel, openGroup mark with
      | fuel + 1, some point =>
        match readGroup fuel point with
        | ')' :: point => some (afterKleene point)
        | _ => none
      | _, _ => none

/-- The body of a group: wildcard segments and disjunction operators only. -/
def readGroup : ℕ → List Char → List Char
  | 0, point => point
  | fuel + 1, point =>
    match readWildcard fuel point with
    | some p2 => readGroup fuel p2
    | none =>
      match point with
      | '|' :: point => readGroup fuel point
      | _ => point

end

/-- The loop of `read_grain` over safe characters and escaped punctuation: the grain without its
backslashes, and what follows it. -/
def readLiterals : List Char → List Char × List Char
  | '\\' :: c :: point =>
    if isAsciiPunct c then ((c :: (readLiterals point).1), (readLiterals point).2) else ([], '\\' :: c :: point)
  | c :: point => if isSafeChar c then ((c :: (readLiterals point).1), (readLiterals point).2) else ([], c :: point)
  | [] => ([], [])

/-- `read_grain`: what follows the grain, and the grain. A quantifier that makes the last symbol
optional takes it out of the grain. -/
def readGrain (mark : List Char) : Option (List Char × List Char) :=
  let (grain, point) := readLiterals mark
  if grain = [] then none
  else match readKleene point with
    | some (rest, oneOrMore) =>
      let grain := if oneOrMore then grain else grain.dropLast
      if grain = [] then none else some (rest, grain)
    | none => some (point, grain)

/-- The inner loop of `read_disjunction`: wildcards are skipped until there is a grain. Returns the
rest, the grain, and `align_start`. -/
def findGrain : ℕ → List Char → Bool → Option (List Char × List Char × Bool)
  | 0, _, _ => none
  | fuel + 1, point, alignStart =>
    match readGrain point with
    | some (p2, grain) => some (p2, grain, alignStart)
    | none =>
      match readWildcard (2 * point.length) point with
      | some p2 => findGrain fuel p2 false
      | none => none

/-- The loop that skips wildcards up to the next `|` or `)`, with `align_end`. -/
def skipAlternative : ℕ → List Char → Bool → List Char × Bool
  | 0, point, alignEnd => (point, alignEnd)
  | fuel + 1, point, alignEnd =>
    if point.head? = some '|' ∨ point.head? = some ')' then (point, alignEnd)
    else match readWildcard (2 * point.length) point with
      | some p2 => skipAlternative fuel p2 false
      | none => (point, alignEnd)

/-- A set of grains with `align_start` and `align_end`. -/
structure GrainSet where
  grain : List (List Char)
  alignStart : Bool
  alignEnd : Bool
deriving Repr, DecidableEq

/-- The loop over the alternatives of a disjunction, using the first grain found in each. -/
def readAlternatives : ℕ → List Char → GrainSet → Option (List Char × GrainSet)
  | 0, _, _ => none
  | fuel + 1, point, g =>
    match findGrain (point.length + 1) point g.alignStart with
    | none => none
    | some (p2, grain, alignStart) =>
      if g.grain.length + 1 ≥ MAX_GRAINS then none
      else
        let (point, alignEnd) := skipAlternative p2.length p2 g.alignEnd
        let g := { grain := g.grain ++ [grain], alignStart := alignStart, alignEnd := alignEnd }
        match point with
        | '|' :: point => readAlternatives fuel point g
        | _ => some (point, g)

/-- `read_disjunction`. Without parentheses it must extend to the end of the string. -/
def readDisjunction (mark : List Char) (noParen : Bool) : Option (List Char × GrainSet) :=
  let body := if noParen then (if mark.head? = some '(' then none else some mark) else openGroup mark
  match body with
  | none => none
  | some point =>
    match readAlternatives (point.length + 1) point { grain := [], alignStart := true, alignEnd := true }, noParen with
    | some (')' :: point, g), false => some (point, g)
    | some ([], g), true => some ([], g)
    | _, _ => none

/-- The public grain buffer. -/
structure GrainBuffer where
  grain : List (List Char)
  grainLen : ℕ
  anchorStart : Bool
  anchorEnd : Bool
deriving Repr, DecidableEq

/-- `update_grain_buffer`: the new set of grains is taken over if it is better than the current one. -/
def updateGrainBuffer (b : GrainBuffer) (grain : List (List Char)) (atStart atEnd : Bool) : GrainBuffer :=
  match grain with
  | [] => b
  | first :: rest =>
    let len := rest.foldl (fun len g => if g.length < len then g.length else len) first.length
    let n := grain.length
    if len ≥ 2 ∧ (len > b.grainLen + 1 ∨ len = b.grainLen + 1 ∧ n ≤ 3 * b.grain.length ∨
        len = b.grainLen ∧ n < b.grain.length ∨ len + 1 = b.grainLen ∧ 3 * n < b.grain.length) then
      { grain := grain, grainLen := len, anchorStart := atStart, anchorEnd := atEnd }
    else b

/-- The loop of `cl_regopt_analyse`; `atStart` says that nothing has been read yet. -/
def analyseLoop : ℕ → List Char → Bool → GrainBuffer → Option GrainBuffer
  | 0, _, _, _ => none
  | fuel + 1, mark, atStart, b =>
    if mark = [] then (if b.grain.length > 0 then some b else none)
    else match readGrain mark with
      | some (point, grain) => analyseLoop fuel point false (updateGrainBuffer b [grain] atStart (point = []))
      | none =>
        match readDisjunction mark false with
        | some (point, g) =>
          let atEnd := decide (point = [])
          let (point, oneOrMore) := (readKleene point).getD (point, true)
          analyseLoop fuel point false
            (if oneOrMore then updateGrainBuffer b g.grain (atStart && g.alignStart) (atEnd && g.alignEnd) else b)
        | none =>
          match readWildcard (2 * mark.length) mark with
          | some point => analyseLoop fuel point false b
          | none => none

/-- `cl_regopt_analyse`, `none` if it could not optimise the expression. -/
def clRegoptAnalyse (regex : List Char) : Option GrainBuffer :=
  let b : GrainBuffer := { grain := [], grainLen := 0, anchorStart := false, anchorEnd := false }
  match readDisjunction regex true with
  | some (_, g) =>
    let b := updateGrainBuffer b g.grain g.alignStart g.alignEnd
    if b.grain.length > 0 then some b else none
  | none => analyseLoop (regex.length + 1) regex true b

/-! `cl_new_regex` and `cl_regex_match` of `cl/regopt.c`, for an expression and a subject that have been
normalised already. PCRE works on characters and the optimiser on the bytes that they are written in. -/

/-- The character set of a corpus: the bytes of a character, and the table of `cl_string_canonical` that
`IGNORE_CASE` selects for it. -/
structure Charset where
  utf8 : Bool
  bytes : Char → List UInt8
  fold : UInt8 → UInt8
  bytes_ne_nil : ∀ c, bytes c ≠ []

variable (cs : Charset)

def Charset.encode (s : List Char) : List UInt8 := s.flatMap cs.bytes

def Charset.canonical (icase : Bool) (s : List UInt8) : List UInt8 := if icase then s.map cs.fold else s

/-- `cl_new_regex` behind the call of `pcre_compile`: without optimiser data the result is `none`. -/
def clNewRegex (icase isPcreJitAvailable : Bool) (regex : List Char) : Option ClRegex :=
  match clRegoptAnalyse regex with
  | some b =>
    if icase && (cs.utf8 || isPcreJitAvailable) then none
    else some (regoptDataCopyToRegexObject (List.map cs.fold) icase (b.grain.map cs.encode) b.anchorStart b.anchorEnd)
  | none => none

/-- `cl_regex_match`, with the result of `pcre_exec`. -/
def clRegexMatch (rx : Option ClRegex) (icase clOptimize exec : Bool) (str : List Char) : Option Bool :=
  match rx, clOptimize with
  | some rx, true => do
    let grainMatch ← grainSearch rx (cs.canonical icase (cs.encode str)) (cs.encode str).length
    if grainMatch then some exec else some false
  | _, _ => some exec

end CWB.Regopt
