import Mathlib.Data.Int.ModEq
import Mathlib.Data.List.Basic
import Mathlib.Data.List.TakeWhile
import Mathlib.Tactic.IntervalCases

/-! Decimal numbers in zero-terminated strings of bytes: the text of a number, and `atoi`. -/

namespace Decimal

open Nat List

/-- The text of `%d`. -/
def text (n : ℕ) : List UInt8 := (toDigits 10 n).map fun c => UInt8.ofNat c.toNat

def isdigit (c : UInt8) : Bool := 48 ≤ c && c ≤ 57

def isspace (c : UInt8) : Bool := c = 32 || 9 ≤ c && c ≤ 13

def value (s : List UInt8) : ℕ := s.foldl (fun n c => 10 * n + (c.toNat - 48)) 0

/-- The sign and what follows it. -/
def sign : List UInt8 → ℤ × List UInt8
  | 45 :: s => (-1, s)
  | 43 :: s => (1, s)
  | s => (1, s)

/-- `atoi` by way of `strtol`, `none` if that sets `errno`. -/
def atoi (s : List UInt8) : Option ℤ :=
  let (factor, digits) := sign (s.dropWhile isspace)
  let n := factor * value (digits.takeWhile isdigit)
  if -2 ^ 63 ≤ n ∧ n < 2 ^ 63 then some (n.bmod (2 ^ 32)) else none

theorem toNat_digit {c : Char} (hc : c.isDigit = true) : 48 ≤ c.toNat ∧ c.toNat ≤ 57 := by
  rw [Char.isDigit, Bool.and_eq_true, decide_eq_true_eq, decide_eq_true_eq] at hc
  exact ⟨UInt32.le_iff_toNat_le.mp hc.1, UInt32.le_iff_toNat_le.mp hc.2⟩

theorem toNat_byte {c : Char} (hc : c.isDigit = true) : (UInt8.ofNat c.toNat).toNat = c.toNat := by
  have := toNat_digit hc
  rw [UInt8.toNat_ofNat']
  omega

theorem isDigit_of_mem {n : ℕ} {c : Char} (hc : c ∈ toDigits 10 n) : c.isDigit = true :=
  isDigit_of_mem_toDigits (by decide) (by decide) hc

theorem isdigit_of_mem_text {n : ℕ} {b : UInt8} (hb : b ∈ text n) : isdigit b = true := by
  obtain ⟨c, hc, rfl⟩ := mem_map.mp hb
  have hbyte := toNat_byte (isDigit_of_mem hc)
  have hdigit := toNat_digit (isDigit_of_mem hc)
  rw [isdigit, Bool.and_eq_true, decide_eq_true_eq, decide_eq_true_eq, UInt8.le_iff_toNat_le, UInt8.le_iff_toNat_le, hbyte]
  exact hdigit

theorem length_text (n : ℕ) : (text n).length = (toDigits 10 n).length := length_map ..

theorem text_ne_nil (n : ℕ) : text n ≠ [] := by
  rw [← length_pos_iff, length_text]
  exact length_toDigits_pos

theorem length_text_le_one_iff (n : ℕ) : (text n).length ≤ 1 ↔ n < 10 := by
  rw [length_text, length_toDigits_le_iff (by decide) (by decide), pow_one]

theorem value_text (n : ℕ) : value (text n) = n := by
  have hdigits : ∀ (cs : List Char) (acc : ℕ), (∀ c ∈ cs, c.isDigit = true) →
      (cs.map fun c => UInt8.ofNat c.toNat).foldl (fun n c => 10 * n + (c.toNat - 48)) acc = ofDigitChars 10 cs acc := by
    intro cs
    induction cs with
    | nil => exact fun _ _ => rfl
    | cons c cs ih =>
      intro acc hcs
      obtain ⟨hc, hcs⟩ := forall_mem_cons.mp hcs
      rw [map_cons, foldl_cons, ih _ hcs, toNat_byte hc]
      rfl
  rw [value, text, hdigits _ _ fun c hc => isDigit_of_mem hc, ofDigitChars_ten_toDigits]

/-- A digit is neither a blank nor a sign. -/
theorem not_isspace_of_isdigit {b : UInt8} (hb : isdigit b = true) : isspace b = false ∧ b ≠ 45 ∧ b ≠ 43 := by
  rw [isdigit, Bool.and_eq_true, decide_eq_true_eq, decide_eq_true_eq, UInt8.le_iff_toNat_le, UInt8.le_iff_toNat_le] at hb
  obtain ⟨hlow, hhigh⟩ := hb
  have hne : ∀ c : UInt8, c.toNat < 48 → b ≠ c := by
    rintro c hc rfl
    exact absurd hc (not_lt.mpr hlow)
  refine ⟨?_, hne 45 (by decide), hne 43 (by decide)⟩
  have hle : ¬b ≤ 13 := fun hle => absurd (UInt8.le_iff_toNat_le.mp hle) (not_le.mpr (lt_of_lt_of_le (by decide) hlow))
  simp [isspace, hne 32 (by decide), hle]

theorem sign_digit {b : UInt8} (hb : isdigit b = true) (s : List UInt8) : sign (b :: s) = (1, b :: s) := by
  obtain ⟨-, hminus, hplus⟩ := not_isspace_of_isdigit hb
  unfold sign
  split
  · next heq => exact absurd (List.cons.inj heq).1 hminus
  · next heq => exact absurd (List.cons.inj heq).1 hplus
  · rfl

/-- `atoi` reads back the text of an `int`, up to the first other character. -/
theorem atoi_text {n : ℕ} (hn : n < 2 ^ 31) {rest : List UInt8} (hrest : ∀ b ∈ rest.head?, isdigit b = false) :
    atoi (text n ++ rest) = some (n : ℤ) := by
  obtain ⟨b, s, hs⟩ := exists_cons_of_ne_nil (text_ne_nil n)
  have hdigit := isdigit_of_mem_text (n := n) (b := b) (by simp [hs])
  obtain ⟨hspace, -, -⟩ := not_isspace_of_isdigit hdigit
  have hskip : (text n ++ rest).dropWhile isspace = text n ++ rest := by
    rw [hs, cons_append, dropWhile_cons_of_neg (by simp [hspace])]
  have hsign : sign (text n ++ rest) = (1, text n ++ rest) := by
    rw [hs, cons_append, sign_digit hdigit]
  have hdigits : (text n ++ rest).takeWhile isdigit = text n := by
    rw [takeWhile_append_of_pos fun b hb => isdigit_of_mem_text hb]
    cases rest with
    | nil => simp
    | cons b rest => rw [takeWhile_cons_of_neg (by simp [hrest b rfl]), append_nil]
  unfold atoi
  simp only [hskip, hsign, hdigits, value_text, one_mul]
  rw [if_pos (by omega), Int.bmod_eq_of_le (by omega) (by omega)]

/-! ## Negative numbers -/

/-- The text of `%d` for any number. -/
def intText (n : ℤ) : List UInt8 := if n < 0 then 45 :: text n.natAbs else text n.natAbs

theorem sign_intText (n : ℤ) (rest : List UInt8) :
    ∃ factor, sign (intText n ++ rest) = (factor, text n.natAbs ++ rest) ∧ factor * (n.natAbs : ℤ) = n := by
  rw [intText]
  split_ifs with hneg
  · exact ⟨-1, rfl, by omega⟩
  · obtain ⟨b, s, hs⟩ := exists_cons_of_ne_nil (text_ne_nil n.natAbs)
    refine ⟨1, ?_, by omega⟩
    rw [hs, cons_append, sign_digit (isdigit_of_mem_text (n := n.natAbs) (by simp [hs]))]

theorem intText_injective : Function.Injective intText := by
  intro m n h
  obtain ⟨f, hf, hm⟩ := sign_intText m []
  obtain ⟨g, hg, hn⟩ := sign_intText n []
  rw [h, hg] at hf
  obtain ⟨hsign, habs⟩ := Prod.mk.inj hf
  have hvalue := congrArg value (append_cancel_right habs)
  rw [value_text, value_text] at hvalue
  rw [← hm, ← hn, hsign, hvalue]

/-- The text begins with neither a blank nor a line break, and contains none. -/
theorem isspace_of_mem_intText {n : ℤ} {b : UInt8} (hb : b ∈ intText n) : isspace b = false := by
  rw [intText] at hb
  split_ifs at hb
  · obtain rfl | hb := mem_cons.mp hb
    · decide
    · exact (not_isspace_of_isdigit (isdigit_of_mem_text hb)).1
  · exact (not_isspace_of_isdigit (isdigit_of_mem_text hb)).1

theorem intText_ne_nil (n : ℤ) : intText n ≠ [] := by
  rw [intText]
  split_ifs
  · exact cons_ne_nil _ _
  · exact text_ne_nil _

end Decimal

/-! `sscanf` on the zero-terminated string of bytes `s`, for the directives `%s`, `%d` and `%f` with blanks and
other characters between them. Reading a floating-point number (`strtof`) is a parameter. -/

namespace Scanf

inductive Directive where
  | space
  | literal (c : UInt8)
  | string (width : Option ℕ)
  | int
  | float

inductive Value (F : Type) where
  | string (s : List UInt8)
  | int (n : ℤ)
  | float (x : F)

variable {F : Type} (strtof : List UInt8 → Option (F × List UInt8))

def skipSpace (s : List UInt8) : List UInt8 := s.dropWhile Decimal.isspace

/-- `%d`, by way of a `long` -/
def scanInt (s : List UInt8) : Option (ℤ × List UInt8) :=
  let (factor, s) := Decimal.sign s
  let digits := s.takeWhile Decimal.isdigit
  if digits = [] then none
  else some ((max (-2 ^ 63) (min (factor * Decimal.value digits) (2 ^ 63 - 1))).bmod (2 ^ 32), s.dropWhile Decimal.isdigit)

/-- The word that `%s` reads after the blanks, and the rest. -/
def scanWord (width : Option ℕ) (s : List UInt8) : List UInt8 × List UInt8 :=
  let word := s.takeWhile fun c => !Decimal.isspace c
  let word := width.elim word word.take
  (word, s.drop word.length)

/-- The number of assignments, or -1 at the end of the input before the first of them, and the values assigned. -/
def run : List Directive → List UInt8 → List (Value F) → ℤ × List (Value F)
  | [], _, values => (values.length, values)
  | .space :: format, s, values => run format (skipSpace s) values
  | .literal _ :: _, [], values => (if values.length = 0 then -1 else values.length, values)
  | .literal c :: format, b :: s, values => if b = c then run format s values else (values.length, values)
  | .string width :: format, s, values =>
    if skipSpace s = [] then (if values.length = 0 then -1 else values.length, values)
    else run format (scanWord width (skipSpace s)).2 (values ++ [.string (scanWord width (skipSpace s)).1])
  | .int :: format, s, values =>
    if skipSpace s = [] then (if values.length = 0 then -1 else values.length, values)
    else match scanInt (skipSpace s) with
      | none => (values.length, values)
      | some (n, s) => run format s (values ++ [.int n])
  | .float :: format, s, values =>
    if skipSpace s = [] then (if values.length = 0 then -1 else values.length, values)
    else match strtof (skipSpace s) with
      | none => (values.length, values)
      | some (x, s) => run format s (values ++ [.float x])

def sscanf (s : List UInt8) (format : List Directive) : ℤ × List (Value F) := run strtof format s []

/-- The words of a file, as `%s` reads them one after the other. -/
def words (s : List UInt8) : List (List UInt8) :=
  (s.splitBy fun a b => Decimal.isspace a == Decimal.isspace b).filter fun w => w.any fun c => !Decimal.isspace c

/-- `fscanf` for a row of `%d`: the numbers that are read, and what is left of the file. -/
def scanInts : ℕ → List UInt8 → List ℤ × List UInt8
  | 0, s => ([], s)
  | n + 1, s =>
    match scanInt (skipSpace s) with
    | none => ([], skipSpace s)
    | some (v, s) => (v :: (scanInts n s).1, (scanInts n s).2)

/-- A number is read up to the first character that is not a digit. -/
theorem scanInt_intText {n : ℤ} (hn : -2 ^ 31 ≤ n ∧ n < 2 ^ 31) {rest : List UInt8}
    (hrest : ∀ b ∈ rest.head?, Decimal.isdigit b = false) : scanInt (Decimal.intText n ++ rest) = some (n, rest) := by
  obtain ⟨factor, hsign, hfactor⟩ := Decimal.sign_intText n rest
  have hall : ∀ b ∈ Decimal.text n.natAbs, Decimal.isdigit b = true := fun b hb => Decimal.isdigit_of_mem_text hb
  have hstop : rest.takeWhile Decimal.isdigit = [] ∧ rest.dropWhile Decimal.isdigit = rest := by
    cases rest with
    | nil => exact ⟨rfl, rfl⟩
    | cons b rest =>
      have hb : ¬Decimal.isdigit b = true := by rw [hrest b rfl]; exact Bool.false_ne_true
      exact ⟨List.takeWhile_cons_of_neg hb, List.dropWhile_cons_of_neg hb⟩
  unfold scanInt
  simp only [hsign]
  rw [List.takeWhile_append_of_pos hall, List.dropWhile_append_of_pos hall, hstop.1, hstop.2, List.append_nil,
    if_neg (Decimal.text_ne_nil _), Decimal.value_text, hfactor, min_eq_left (by omega), max_eq_right (by omega),
    Int.bmod_eq_of_le (by omega) (by omega)]

theorem skipSpace_append {blanks s : List UInt8} (h : ∀ b ∈ blanks, Decimal.isspace b = true) :
    skipSpace (blanks ++ s) = skipSpace s := List.dropWhile_append_of_pos h

theorem skipSpace_intText (n : ℤ) (rest : List UInt8) : skipSpace (Decimal.intText n ++ rest) = Decimal.intText n ++ rest := by
  obtain ⟨b, s, hs⟩ := List.exists_cons_of_ne_nil (Decimal.intText_ne_nil n)
  have hb := Decimal.isspace_of_mem_intText (n := n) (b := b) (by simp [hs])
  rw [hs, skipSpace, List.cons_append, List.dropWhile_cons_of_neg (by simp [hb])]

theorem scanInts_cons {k : ℕ} {n : ℤ} {c : UInt8} {blanks : List UInt8} (hblanks : ∀ b ∈ blanks, Decimal.isspace b = true)
    (hn : -2 ^ 31 ≤ n ∧ n < 2 ^ 31) (hc : Decimal.isdigit c = false) (rest : List UInt8) :
    scanInts (k + 1) (blanks ++ (Decimal.intText n ++ c :: rest)) =
      (n :: (scanInts k (c :: rest)).1, (scanInts k (c :: rest)).2) := by
  have hstop : ∀ b ∈ (c :: rest).head?, Decimal.isdigit b = false := by
    intro b hb
    obtain rfl := Option.some.inj hb
    exact hc
  rw [scanInts, skipSpace_append hblanks, skipSpace_intText, scanInt_intText hn hstop]

theorem scanInts_space {k : ℕ} {n : ℤ} {c : UInt8} (hn : -2 ^ 31 ≤ n ∧ n < 2 ^ 31) (hc : Decimal.isdigit c = false)
    (rest : List UInt8) :
    scanInts (k + 1) (32 :: (Decimal.intText n ++ c :: rest)) = (n :: (scanInts k (c :: rest)).1, (scanInts k (c :: rest)).2) := by
  have hspace : ∀ b ∈ ([32] : List UInt8), Decimal.isspace b = true := List.forall_mem_singleton.mpr rfl
  exact scanInts_cons hspace hn hc rest

theorem scanInts_blanks {k : ℕ} {blanks : List UInt8} (hblanks : ∀ b ∈ blanks, Decimal.isspace b = true) :
    scanInts (k + 1) blanks = ([], []) := by
  have hskip : skipSpace blanks = [] := List.dropWhile_eq_nil_iff.mpr hblanks
  rw [scanInts, hskip]
  rfl

end Scanf
