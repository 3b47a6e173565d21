import Mathlib
import CWB.Spec.SpecialChars

/-! The loop reads a string unit by unit: a plain character, or an escape. A string that ends in the middle of an
escape is read beyond its terminator, unless the target is full before. -/

namespace CWB.SpecialChars

open Bool Nat Option List

/-! ## Units of a string -/

def octalValue (a b c : Byte) : Byte :=
  UInt8.ofNat ((((0 * 8 + (a - 0x30).toNat % 8) * 8 + (b - 0x30).toNat % 8) * 8 + (c - 0x30).toNat % 8) % 256)

/-- The digits that a string begins with, and what follows them. -/
def digitsAhead : List Byte → Option ((Byte × Byte × Byte) × List Byte)
  | a :: b :: c :: s => if Decimal.isdigit a && Decimal.isdigit b && Decimal.isdigit c then some ((a, b, c), s) else none
  | _ => none

/-- What the text behind a backslash stands for, and the rest of the string; `none` if the string ends before the escape does. -/
def escape : List Byte → Option (List Byte × List Byte)
  | [] => none
  | d :: s =>
    match digitsAhead (d :: s) with
    | some ((a, b, c), s) => some ([octalValue a b c], s)
    | none =>
      if isAccent d then
        match s with
        | [] => none
        | e :: s => some (match accented d e with | some iso => [iso] | none => [d, e], s)
      else some ([backslash, d], s)

def nextUnit : List Byte → Option (List Byte × List Byte)
  | [] => none
  | c :: s => if c ≠ backslash then some ([c], s) else escape s

variable {s rest chars out : List Byte}

theorem digitsAhead_eq_some {a b c : Byte} (h : digitsAhead s = some ((a, b, c), rest)) :
    s = a :: b :: c :: rest ∧ Decimal.isdigit a = true ∧ Decimal.isdigit b = true ∧ Decimal.isdigit c = true := by
  unfold digitsAhead at h
  split at h
  · split_ifs at h with hdigits
    obtain ⟨⟨rfl, rfl, rfl⟩, rfl⟩ := by simpa using h
    simp only [and_eq_true] at hdigits
    exact ⟨rfl, hdigits.1.1, hdigits.1.2, hdigits.2⟩
  · exact absurd h (some_ne_none _).symm

/-- The forms of an escape. -/
inductive Escape : List Byte → List Byte → List Byte → Prop where
  | octal (a b c : Byte) (rest : List Byte) (h : digitsAhead (a :: b :: c :: rest) = some ((a, b, c), rest)) :
    Escape (a :: b :: c :: rest) [octalValue a b c] rest
  | letter (d e iso : Byte) (rest : List Byte) (hno : digitsAhead (d :: e :: rest) = none) (hd : isAccent d = true)
    (h : accented d e = some iso) : Escape (d :: e :: rest) [iso] rest
  | noLetter (d e : Byte) (rest : List Byte) (hno : digitsAhead (d :: e :: rest) = none) (hd : isAccent d = true)
    (h : accented d e = none) : Escape (d :: e :: rest) [d, e] rest
  | other (d : Byte) (rest : List Byte) (hno : digitsAhead (d :: rest) = none) (hd : isAccent d = false) :
    Escape (d :: rest) [backslash, d] rest

theorem escape_cases (h : escape s = some (chars, rest)) : Escape s chars rest := by
  cases s with
  | nil => exact absurd h (some_ne_none _).symm
  | cons d s =>
    rw [escape.eq_def] at h
    dsimp only at h
    cases hdigits : digitsAhead (d :: s) with
    | some found =>
      obtain ⟨⟨a, b, c⟩, s'⟩ := found
      simp only [hdigits, some.injEq, Prod.mk.injEq] at h
      obtain ⟨rfl, rfl⟩ := h
      obtain ⟨hs, -⟩ := digitsAhead_eq_some hdigits
      rw [hs] at hdigits ⊢
      exact .octal a b c s' hdigits
    | none =>
      simp only [hdigits] at h
      by_cases hd : isAccent d = true
      · rw [if_pos hd] at h
        cases s with
        | nil => exact absurd h (some_ne_none _).symm
        | cons e s =>
          obtain ⟨hchars, rfl⟩ := Prod.mk.inj (some.inj h)
          subst hchars
          cases hiso : accented d e with
          | some iso => exact .letter d e iso s hdigits hd hiso
          | none => exact .noLetter d e s hdigits hd hiso
      · rw [if_neg hd] at h
        obtain ⟨rfl, rfl⟩ := Prod.mk.inj (some.inj h)
        exact .other d s hdigits (eq_false_of_not_eq_true hd)

theorem Escape.length (h : Escape s chars rest) : chars.length + rest.length ≤ s.length + 1 ∧ rest.length < s.length := by
  cases h <;> simp only [length_cons, length_nil] <;> omega

theorem Escape.suffix (h : Escape s chars rest) : rest <:+ s := by
  cases h with
  | octal a b c rest h => exact ⟨[a, b, c], rfl⟩
  | letter d e iso rest hno hd h => exact ⟨[d, e], rfl⟩
  | noLetter d e rest hno hd h => exact ⟨[d, e], rfl⟩
  | other d rest hno hd => exact ⟨[d], rfl⟩

theorem nextUnit_suffix (h : nextUnit s = some (chars, rest)) : rest <:+ s := by
  cases s with
  | nil => exact absurd h (some_ne_none _).symm
  | cons c s =>
    rw [nextUnit] at h
    split_ifs at h with hc
    · obtain ⟨-, rfl⟩ := Prod.mk.inj (some.inj h)
      exact suffix_cons c s
    · exact (escape_cases h).suffix.trans (suffix_cons c s)

theorem nextUnit_length (h : nextUnit s = some (chars, rest)) : chars.length + rest.length ≤ s.length ∧ rest.length < s.length := by
  cases s with
  | nil => exact absurd h (some_ne_none _).symm
  | cons c s =>
    rw [nextUnit] at h
    split_ifs at h with hc
    · obtain ⟨rfl, rfl⟩ := Prod.mk.inj (some.inj h)
      simp only [length_cons, length_nil]
      omega
    · have := (escape_cases h).length
      rw [length_cons]
      omega

/-- The text that the units of a string are converted to, and the escape at its end that is not complete. -/
def scan (s : List Byte) : List Byte × List Byte :=
  match _h : nextUnit s with
  | none => ([], s)
  | some (chars, rest) => (chars ++ (scan rest).1, (scan rest).2)
termination_by s.length
decreasing_by all_goals exact (nextUnit_length _h).2

def converted (s : List Byte) : List Byte := (scan s).1

def unfinished (s : List Byte) : List Byte := (scan s).2

theorem converted_of_none (h : nextUnit s = none) : converted s = [] ∧ unfinished s = s := by
  unfold converted unfinished
  rw [scan]
  split
  · exact ⟨rfl, rfl⟩
  · next heq => exact absurd (heq.symm.trans h) (some_ne_none _)

theorem converted_of_some (h : nextUnit s = some (chars, rest)) :
    converted s = chars ++ converted rest ∧ unfinished s = unfinished rest := by
  unfold converted unfinished
  rw [scan]
  split
  · next heq => exact absurd (h.symm.trans heq) (some_ne_none _)
  · next chars' rest' heq =>
    obtain ⟨rfl, rfl⟩ := Prod.mk.inj (some.inj (heq.symm.trans h))
    exact ⟨rfl, rfl⟩

/-! ## Memory -/

/-- The buffers when these characters have been written. -/
def Buffers.after (m : Buffers) (out : List Byte) : Buffers :=
  match m.result with
  | none => { str := out ++ m.str.drop out.length, result := none }
  | some result => { str := m.str, result := some (out ++ result.drop out.length) }

/-- The size of the buffer that is written to. -/
def Buffers.room (m : Buffers) : ℕ := (m.result.getD m.str).length

variable {m : Buffers} {p q : ℕ} {c : Byte}

theorem append_drop_getElem? {l : Block} (h : out.length ≤ p) : (out ++ l.drop out.length)[p]? = l[p]? := by
  rw [getElem?_append_right h, getElem?_drop, Nat.add_sub_cancel' h]

/-- What has been written lies in front of what is still to be read. -/
theorem after_read (h : out.length ≤ p) : (m.after out).str[p]? = m.str[p]? := by
  unfold Buffers.after
  cases m.result with
  | none => exact append_drop_getElem? h
  | some result => rfl

theorem store_after {l : Block} (h : out.length < l.length) :
    Block.store (out ++ l.drop out.length) out.length [c] = some ((out ++ [c]) ++ l.drop (out ++ [c]).length) := by
  rw [Block.store_of_le (by simp only [length_append, length_drop, length_singleton]; omega), take_left,
    ← drop_drop, drop_left, drop_drop, length_append]

theorem write_after (h : out.length < m.room) : (m.after out).write out.length c = some (m.after (out ++ [c])) := by
  obtain ⟨str, result⟩ := m
  unfold Buffers.after Buffers.write Buffers.room at *
  cases result with
  | none => exact congrArg (Option.map _) (store_after h)
  | some result => exact congrArg (Option.map _) (store_after h)

theorem write_after_none (h : m.room ≤ out.length) : (m.after out).write out.length c = none := by
  obtain ⟨str, result⟩ := m
  unfold Buffers.after Buffers.write Buffers.room at *
  have hfull : ∀ l : Block, l.length ≤ out.length → Block.store (out ++ l.drop out.length) out.length [c] = none := by
    intro l hl
    apply if_neg
    simp only [length_append, length_drop, length_singleton]
    omega
  cases result with
  | none => exact congrArg (Option.map _) (hfull str h)
  | some result => exact congrArg (Option.map _) (hfull result h)

theorem after_nil (m : Buffers) : m.after [] = m := by
  obtain ⟨str, result⟩ := m
  cases result <;> rfl

/-- This is the rest of the string, up to the end of the block. -/
def Buffers.Reads (m : Buffers) (p : ℕ) (s : List Byte) : Prop := m.str.drop p = s ++ [0]

theorem Reads.getElem? (h : m.Reads p s) (k : ℕ) : m.str[p + k]? = (s ++ [0])[k]? := by
  rw [← getElem?_drop, h]

theorem Reads.head (h : m.Reads p s) : m.str[p]? = some (s.headD 0) := by
  have := Reads.getElem? h 0
  rw [Nat.add_zero] at this
  rw [this]
  cases s <;> rfl

theorem Reads.tail (h : m.Reads p (c :: s)) : m.Reads (p + 1) s := by
  unfold Buffers.Reads at *
  rw [← drop_drop, h]
  rfl

theorem Reads.end (h : m.Reads p []) : m.str[p + 1]? = none := Reads.getElem? h 1

/-! ## Rounds of the loop -/

open LatexState

variable {t n : ℕ} {T : ℤ} {b : Byte}

theorem popc_after (h : m.Reads p s) (hle : out.length ≤ p) :
    popc ⟨m.after out, b, p, t⟩ = some ⟨m.after out, s.headD 0, p + 1, t⟩ := by
  rw [popc, after_read hle, Reads.head h]
  rfl

theorem popc_end (h : m.Reads p []) (hle : out.length ≤ p + 1) : popc ⟨m.after out, b, p + 1, t⟩ = none := by
  rw [popc, after_read hle, Reads.end h]
  rfl

theorem threeDigits_after (h : m.Reads p s) (hle : out.length ≤ p) :
    threeDigits ⟨m.after out, c, p, t⟩ = some (digitsAhead (c :: s)).isSome := by
  simp only [threeDigits, after_read hle, after_read (le_succ_of_le hle), Reads.head h, Reads.getElem? h 1]
  by_cases hc : Decimal.isdigit c = true
  · rw [if_pos hc]
    cases s with
    | nil => rfl
    | cons d s =>
      simp only [bind_eq_bind, bind_some, headD_cons]
      by_cases hd : Decimal.isdigit d = true
      · rw [if_pos hd]
        cases s with
        | nil => rfl
        | cons e s =>
          simp only [digitsAhead, hc, hd, Bool.true_and, Bool.and_true, cons_append, getElem?_cons_succ, getElem?_cons_zero,
            map_some]
          cases Decimal.isdigit e <;> rfl
      · rw [if_neg hd]
        cases s with
        | nil => rfl
        | cons e s => simp [digitsAhead, hd]
  · rw [if_neg hc]
    cases s with
    | nil => rfl
    | cons d s =>
      cases s with
      | nil => rfl
      | cons e s => simp [digitsAhead, hc]

theorem readOctal_after {a d e : Byte} (h : m.Reads p (d :: e :: rest)) (hle : out.length ≤ p) :
    readOctal 3 0 ⟨m.after out, a, p, t⟩ =
      some ((((0 * 8 + (a - 0x30).toNat % 8) * 8 + (d - 0x30).toNat % 8) * 8 + (e - 0x30).toNat % 8), ⟨m.after out, rest.headD 0, p + 3, t⟩) := by
  have h1 := Reads.tail h
  have h2 := Reads.tail h1
  simp only [readOctal, popc_after h hle, popc_after h1 (le_succ_of_le hle), popc_after h2 (by omega : out.length ≤ p + 1 + 1),
    bind_eq_bind, bind_some, headD_cons]

/-- A unit is read; the pointer then stands at the character behind it, or that has been read as well. -/
theorem readUnit_after (hr : m.Reads (p + 1) s) (hle : out.length ≤ p) (hunit : nextUnit (c :: s) = some (chars, rest)) :
    ∃ b more q k, readUnit ⟨m.after out, c, p + 1, t⟩ = some (⟨m.after out, b, k, t⟩, chars, more) ∧ m.Reads q rest ∧
      p + chars.length ≤ q ∧ (if more then k = q else k = q + 1 ∧ b = rest.headD 0) := by
  rw [nextUnit] at hunit
  have hle1 : out.length ≤ p + 1 := le_succ_of_le hle
  have hle2 : out.length ≤ p + 1 + 1 := le_succ_of_le hle1
  by_cases hc : c ≠ backslash
  · rw [if_pos hc] at hunit
    obtain ⟨rfl, rfl⟩ := Prod.mk.inj (some.inj hunit)
    exact ⟨c, true, p + 1, p + 1, if_pos hc, hr, le_rfl, rfl⟩
  · rw [if_neg hc] at hunit
    have hread : readUnit ⟨m.after out, c, p + 1, t⟩ = readEscape ⟨m.after out, s.headD 0, p + 1 + 1, t⟩ := by
      rw [readUnit, if_neg hc, popc_after hr hle1, bind_some]
    rw [hread, readEscape]
    cases escape_cases hunit with
    | octal a b d rest h =>
      have hr1 := Reads.tail hr
      refine ⟨rest.headD 0, false, p + 4, p + 5, ?_, Reads.tail (Reads.tail hr1), ?_, rfl, rfl⟩
      · simp only [headD_cons, threeDigits_after hr1 hle2, h, isSome_some, readOctal_after hr1 hle2, if_true,
          bind_eq_bind, bind_some]
        rw [octalValue]
      · rw [length_singleton]
        omega
    | letter d e iso rest hno hd h =>
      have hr1 := Reads.tail hr
      refine ⟨e, true, p + 3, p + 3, ?_, Reads.tail hr1, ?_, rfl⟩
      · simp only [headD_cons, threeDigits_after hr1 hle2, hno, isSome_none, false_eq_true, if_false, if_pos hd,
          popc_after hr1 hle2, bind_eq_bind, bind_some, h]
      · rw [length_singleton]
        omega
    | noLetter d e rest hno hd h =>
      have hr1 := Reads.tail hr
      refine ⟨e, true, p + 3, p + 3, ?_, Reads.tail hr1, ?_, rfl⟩
      · simp only [headD_cons, threeDigits_after hr1 hle2, hno, isSome_none, false_eq_true, if_false, if_pos hd,
          popc_after hr1 hle2, bind_eq_bind, bind_some, h]
      · simp only [length_cons, length_nil]
        omega
    | other d rest hno hd =>
      refine ⟨d, true, p + 2, p + 2, ?_, Reads.tail hr, ?_, rfl⟩
      · simp only [headD_cons, threeDigits_after (Reads.tail hr) hle2, hno, hd, isSome_none, false_eq_true,
          if_false, bind_eq_bind, bind_some]
      · simp only [length_cons, length_nil]
        omega

/-- What is pushed for an escape that is not complete: the terminator is taken for its last character. -/
def pushedAtEnd : List Byte → List Byte
  | [] => []
  | [_] => [backslash, 0]
  | _ :: d :: _ => [d, 0]

/-- The terminator is not a letter with an accent. -/
theorem accented_zero (d : Byte) : accented d 0 = none := by
  unfold accented
  cases h : accentTable.lookup d with
  | none => rfl
  | some letters =>
    obtain ⟨before, behind, htable, -⟩ := lookup_eq_some_iff.mp h
    have hmem : (d, letters) ∈ accentTable := htable ▸ mem_append_right before mem_cons_self
    have hnone : ∀ row ∈ accentTable, (row.2.find? fun p => char p.1 = 0) = none := by decide
    rw [bind_some, hnone _ hmem]
    rfl

/-- At the end of the string the pointer has come behind the terminator. -/
theorem readUnit_end (hr : m.Reads (p + 1) s) (hle : out.length ≤ p) (hunit : nextUnit (c :: s) = none) :
    ∃ q, readUnit ⟨m.after out, c, p + 1, t⟩ = some (⟨m.after out, 0, q + 1, t⟩, pushedAtEnd (c :: s), true) ∧ m.Reads q [] ∧
      p + 1 ≤ q := by
  rw [nextUnit] at hunit
  have hle1 : out.length ≤ p + 1 := le_succ_of_le hle
  have hle2 : out.length ≤ p + 1 + 1 := le_succ_of_le hle1
  by_cases hc : c ≠ backslash
  · rw [if_pos hc] at hunit
    exact absurd hunit (some_ne_none _)
  · rw [if_neg hc, escape.eq_def] at hunit
    cases s with
    | nil =>
      refine ⟨p + 1, ?_, hr, le_rfl⟩
      have hno : isAccent 0 = false := rfl
      have hdigits : threeDigits ⟨m.after out, 0, p + 1 + 1, t⟩ = some false := rfl
      rw [readUnit, if_neg hc, popc_after hr hle1, bind_some, readEscape]
      simp only [headD_nil, bind_eq_bind, bind_some, hdigits, hno, false_eq_true, if_false, pushedAtEnd]
    | cons d s =>
      dsimp only at hunit
      cases hdigits : digitsAhead (d :: s) with
      | some found => simp [hdigits] at hunit
      | none =>
        rw [hdigits] at hunit
        dsimp only at hunit
        by_cases hd : isAccent d = true
        · rw [if_pos hd] at hunit
          cases s with
          | cons e s => exact absurd hunit (some_ne_none _)
          | nil =>
            have hr1 := Reads.tail hr
            refine ⟨p + 2, ?_, hr1, by omega⟩
            rw [readUnit, if_neg hc, popc_after hr hle1, bind_some, readEscape]
            simp only [headD_cons, bind_eq_bind, bind_some, threeDigits_after hr1 hle2, hdigits, isSome_none,
              false_eq_true, if_false, if_pos hd, popc_after hr1 hle2, headD_nil, accented_zero, pushedAtEnd]
        · rw [if_neg hd] at hunit
          exact absurd hunit (some_ne_none _)

theorem pushAll_after (hfit : (out.length : ℤ) < T) (hroom : min (out.length + chars.length) T.toNat ≤ m.room) :
    pushAll T chars ⟨m.after out, b, p, out.length⟩ =
      some (⟨m.after (out ++ chars.take (T.toNat - out.length)), b, p, (out ++ chars.take (T.toNat - out.length)).length⟩,
        decide (T.toNat ≤ out.length + chars.length)) := by
  induction chars generalizing out with
  | nil =>
    rw [pushAll, take_nil, append_nil, length_nil, Nat.add_zero, decide_eq_false (by omega)]
  | cons c chars ih =>
    rw [length_cons] at hroom ⊢
    have hwrite : (m.after out).write out.length c = some (m.after (out ++ [c])) := write_after (by omega)
    have htake : (c :: chars).take (T.toNat - out.length) = c :: chars.take (T.toNat - (out ++ [c]).length) := by
      rw [length_append, length_singleton, show T.toNat - out.length = T.toNat - (out.length + 1) + 1 by omega, take_succ_cons]
    have happend : out ++ (c :: chars).take (T.toNat - out.length) = out ++ [c] ++ chars.take (T.toNat - (out ++ [c]).length) := by
      rw [htake, append_assoc, singleton_append]
    have hlen : (out ++ [c]).length = out.length + 1 := by rw [length_append, length_singleton]
    rw [pushAll, happend]
    simp only [hwrite, bind_eq_bind, bind_some]
    by_cases hfull : ((out.length + 1 : ℕ) : ℤ) ≥ T
    · rw [if_pos hfull, show T.toNat - (out ++ [c]).length = 0 by omega, take_zero, append_nil, hlen, decide_eq_true (by omega)]
    · rw [if_neg hfull, ← hlen, ih (by omega) (by omega), hlen, Nat.add_right_comm, Nat.add_assoc out.length]

theorem loop_unit (hgo : (out.length : ℤ) < T) (h0 : c ≠ 0) (hr : m.Reads p (c :: s)) (hle : out.length ≤ p)
    (hunit : nextUnit (c :: s) = some (chars, rest)) (hroom : min (out.length + chars.length) T.toNat ≤ m.room) :
    ∃ q b k, m.Reads q rest ∧ (out ++ chars).length ≤ q ∧ loop T (n + 1) ⟨m.after out, c, p + 1, out.length⟩ =
      if T.toNat ≤ out.length + chars.length then
        some ⟨m.after (out ++ chars.take (T.toNat - out.length)), b, k, (out ++ chars.take (T.toNat - out.length)).length⟩
      else loop T n ⟨m.after (out ++ chars), rest.headD 0, q + 1, (out ++ chars).length⟩ := by
  obtain ⟨b, more, q, k, hread, hrest, hq, hmore⟩ := readUnit_after (t := out.length) (Reads.tail hr) hle hunit
  have hlen : (out ++ chars).length ≤ q := by
    rw [length_append]
    omega
  refine ⟨q, b, k, hrest, hlen, ?_⟩
  rw [loop, if_pos ⟨h0, hgo⟩]
  simp only [hread, pushAll_after hgo hroom, bind_eq_bind, bind_some, decide_eq_true_eq]
  by_cases hfull : T.toNat ≤ out.length + chars.length
  · rw [if_pos hfull, if_pos hfull]
  · rw [if_neg hfull, if_neg hfull, take_of_length_le (by omega)]
    cases more with
    | true =>
      obtain rfl : k = q := hmore
      rw [if_pos rfl, popc_after hrest hlen]
      rfl
    | false =>
      obtain ⟨rfl, rfl⟩ : k = q + 1 ∧ b = rest.headD 0 := hmore
      rfl

theorem loop_end (hgo : (out.length : ℤ) < T) (h0 : c ≠ 0) (hr : m.Reads p (c :: s)) (hle : out.length ≤ p)
    (hunit : nextUnit (c :: s) = none) (hroom : min (out.length + 2) T.toNat ≤ m.room) :
    ∃ k, loop T (n + 1) ⟨m.after out, c, p + 1, out.length⟩ =
      if T.toNat ≤ out.length + 2 then
        some ⟨m.after (out ++ (pushedAtEnd (c :: s)).take (T.toNat - out.length)), 0, k,
          (out ++ (pushedAtEnd (c :: s)).take (T.toNat - out.length)).length⟩
      else none := by
  obtain ⟨q, hread, hrest, hq⟩ := readUnit_end (t := out.length) (Reads.tail hr) hle hunit
  have hchars : (pushedAtEnd (c :: s)).length = 2 := by cases s <;> rfl
  refine ⟨q + 1, ?_⟩
  rw [loop, if_pos ⟨h0, hgo⟩]
  simp only [hread, pushAll_after hgo (hchars ▸ hroom), hchars, bind_eq_bind, bind_some, decide_eq_true_eq]
  by_cases hfull : T.toNat ≤ out.length + 2
  · rw [if_pos hfull, if_pos hfull]
  · rw [if_neg hfull, if_neg hfull, if_pos trivial, take_of_length_le (by omega), popc_end hrest ?_]
    · rfl
    · rw [length_append]
      omega

/-! ## Runs -/

/-- All that is pushed if the target is large enough. -/
def pushed (s : List Byte) : List Byte := converted s ++ pushedAtEnd (unfinished s)

theorem pushed_nil : pushed [] = [] := by
  obtain ⟨hconv, hunf⟩ := converted_of_none (s := []) rfl
  rw [pushed, hconv, hunf]
  rfl

theorem pushed_of_some (h : nextUnit s = some (chars, rest)) : pushed s = chars ++ pushed rest := by
  obtain ⟨hconv, hunf⟩ := converted_of_some h
  rw [pushed, hconv, hunf, append_assoc]
  rfl

theorem pushed_of_none (h : nextUnit s = none) : pushed s = pushedAtEnd s := by
  obtain ⟨hconv, hunf⟩ := converted_of_none h
  rw [pushed, hconv, hunf, nil_append]

/-- The string does not end in the middle of an escape, or the target is full when that is seen. -/
def StopsInTime (T : ℤ) (n : ℕ) (s : List Byte) : Prop := unfinished s = [] ∨ T ≤ n + (converted s).length + 2

theorem loop_stops (h0 : 0 ∉ s) (hr : m.Reads p s) (hle : out.length ≤ p) (hT : out.length ≤ T.toNat) (hfuel : s.length < n)
    (hroom : ((out ++ pushed s).take T.toNat).length ≤ m.room) (hfit : StopsInTime T out.length s) :
    ∃ b k, loop T n ⟨m.after out, s.headD 0, p + 1, out.length⟩ =
      some ⟨m.after ((out ++ pushed s).take T.toNat), b, k, ((out ++ pushed s).take T.toNat).length⟩ := by
  induction n generalizing s out p with
  | zero => exact absurd hfuel (Nat.not_lt_zero _)
  | succ n ih =>
  by_cases hgo : (out.length : ℤ) < T
  · cases s with
    | nil =>
      refine ⟨0, p + 1, ?_⟩
      rw [loop, if_neg (fun h => h.1 rfl), pushed_nil, append_nil, take_of_length_le hT]
      rfl
    | cons c s =>
      obtain ⟨hc0, hs⟩ := not_or.mp (mt mem_cons.mpr h0)
      cases hunit : nextUnit (c :: s) with
      | none =>
        rw [pushed_of_none hunit] at hroom ⊢
        have hchars : (pushedAtEnd (c :: s)).length = 2 := by cases s <;> rfl
        obtain ⟨k, hloop⟩ := loop_end (n := n) hgo (Ne.symm hc0) hr hle hunit
          (by rw [length_take, length_append, hchars] at hroom; omega)
        have hfull : T.toNat ≤ out.length + 2 := by
          obtain ⟨hconv, hunf⟩ := converted_of_none hunit
          rw [StopsInTime, hunf, hconv, length_nil] at hfit
          obtain hfit | hfit := hfit
          · exact absurd hfit (cons_ne_nil c s)
          · omega
        refine ⟨0, k, ?_⟩
        rw [headD_cons, hloop, if_pos hfull, take_append, take_of_length_le hT]
      | some unit =>
        obtain ⟨chars, rest⟩ := unit
        obtain ⟨hlen, hlt⟩ := nextUnit_length hunit
        rw [pushed_of_some hunit] at hroom ⊢
        obtain ⟨q, b, k, hrest, hq, hloop⟩ := loop_unit (n := n) hgo (Ne.symm hc0) hr hle hunit (by
          simp only [length_take, length_append] at hroom
          omega)
        rw [headD_cons, hloop]
        by_cases hfull : T.toNat ≤ out.length + chars.length
        · refine ⟨b, k, ?_⟩
          rw [if_pos hfull, take_append, take_of_length_le hT, take_append_of_le_length (by omega)]
        · rw [if_neg hfull, ← append_assoc]
          rw [← append_assoc] at hroom
          refine ih (fun h => h0 ((nextUnit_suffix hunit).mem h)) hrest hq ?_ (by omega) hroom ?_
          · rw [length_append]
            omega
          · obtain ⟨hconv, hunf⟩ := converted_of_some hunit
            rw [StopsInTime, hunf, hconv, length_append] at hfit
            rw [StopsInTime, length_append]
            push_cast at hfit ⊢
            rwa [add_assoc (out.length : ℤ)]
  · refine ⟨s.headD 0, p + 1, ?_⟩
    rw [loop, if_neg (fun h => hgo h.2), take_append_of_le_length (by omega), take_of_length_le (by omega)]

/-- Otherwise the loop reads behind the terminator. -/
theorem loop_faults (h0 : 0 ∉ s) (hr : m.Reads p s) (hle : out.length ≤ p) (hfuel : s.length < n)
    (hroom : out.length + (converted s).length + 2 ≤ m.room) (hfit : ¬StopsInTime T out.length s) :
    loop T n ⟨m.after out, s.headD 0, p + 1, out.length⟩ = none := by
  obtain ⟨hne, hT⟩ := not_or.mp hfit
  induction n generalizing s out p with
  | zero => exact absurd hfuel (Nat.not_lt_zero _)
  | succ n ih =>
  cases s with
  | nil => exact absurd (converted_of_none (s := []) rfl).2 hne
  | cons c s =>
    obtain ⟨hc0, hs⟩ := not_or.mp (mt mem_cons.mpr h0)
    have hgo : (out.length : ℤ) < T := by omega
    cases hunit : nextUnit (c :: s) with
    | none =>
      obtain ⟨hconv, -⟩ := converted_of_none hunit
      rw [hconv, length_nil] at hT hroom
      obtain ⟨k, hloop⟩ := loop_end (n := n) hgo (Ne.symm hc0) hr hle hunit (by omega)
      rw [headD_cons, hloop, if_neg (by omega)]
    | some unit =>
      obtain ⟨chars, rest⟩ := unit
      obtain ⟨hlen, hlt⟩ := nextUnit_length hunit
      obtain ⟨hconv, hunf⟩ := converted_of_some hunit
      rw [hconv, length_append] at hT hroom
      rw [hunf] at hne
      obtain ⟨q, b, k, hrest, hq, hloop⟩ := loop_unit (n := n) hgo (Ne.symm hc0) hr hle hunit (by omega)
      rw [headD_cons, hloop, if_neg (by omega)]
      have hT' : ¬T ≤ (out ++ chars).length + (converted rest).length + 2 := by
        rw [length_append]
        omega
      exact ih (fun h => h0 ((nextUnit_suffix hunit).mem h)) hrest hq (by omega) (by rw [length_append]; omega)
        (not_or.mpr ⟨hne, hT'⟩) hne hT'

theorem converted_length (s : List Byte) : (converted s).length + (unfinished s).length ≤ s.length := by
  induction hn : s.length using Nat.strong_induction_on generalizing s with
  | _ n ih =>
    cases hunit : nextUnit s with
    | none =>
      obtain ⟨hconv, hunf⟩ := converted_of_none hunit
      rw [hconv, hunf, length_nil]
      omega
    | some unit =>
      obtain ⟨chars, rest⟩ := unit
      obtain ⟨hconv, hunf⟩ := converted_of_some hunit
      obtain ⟨hlen, hlt⟩ := nextUnit_length hunit
      have := ih rest.length (by omega) rest rfl
      rw [hconv, hunf, length_append]
      omega

theorem pushed_length (s : List Byte) : (pushed s).length = (converted s).length + if unfinished s = [] then 0 else 2 := by
  rw [pushed, length_append]
  congr 1
  rcases unfinished s with _ | ⟨c, _ | ⟨d, s⟩⟩
  · rfl
  · rfl
  · rfl

theorem reads_ofString (s : Block.Str) (result : Option Block) : Buffers.Reads ⟨Block.ofString s.chars, result⟩ 0 s.chars := rfl

theorem popc_start (s : Block.Str) (result : Option Block) :
    popc ⟨⟨Block.ofString s.chars, result⟩, 0, 0, 0⟩ = some ⟨⟨Block.ofString s.chars, result⟩, s.chars.headD 0, 1, 0⟩ := by
  rw [popc, Reads.head (reads_ofString s result)]
  rfl

theorem latexBuffers_stops (s : Block.Str) (result : Option Block) (hfit : StopsInTime T 0 s.chars)
    (hroom : ((pushed s.chars).take T.toNat).length ≤ Buffers.room ⟨Block.ofString s.chars, result⟩) :
    latexBuffers ⟨Block.ofString s.chars, result⟩ T =
      (Buffers.after ⟨Block.ofString s.chars, result⟩ ((pushed s.chars).take T.toNat)).write ((pushed s.chars).take T.toNat).length 0 := by
  have hstart : ([] : List Byte).length ≤ 0 := le_rfl
  obtain ⟨b, k, hloop⟩ := loop_stops s.noZero (reads_ofString s result) hstart (Nat.zero_le _)
    (show s.chars.length < (Block.ofString s.chars).length + 1 by rw [Block.length_ofString]; omega) hroom hfit
  rw [after_nil, nil_append, length_nil] at hloop
  simp only [latexBuffers, popc_start, hloop, bind_eq_bind, bind_some]

theorem latexBuffers_faults (s : Block.Str) (result : Option Block) (hfit : ¬StopsInTime T 0 s.chars)
    (hroom : (converted s.chars).length + 2 ≤ Buffers.room ⟨Block.ofString s.chars, result⟩) :
    latexBuffers ⟨Block.ofString s.chars, result⟩ T = none := by
  have hstart : ([] : List Byte).length ≤ 0 := le_rfl
  have hloop := loop_faults s.noZero (reads_ofString s result) hstart
    (show s.chars.length < (Block.ofString s.chars).length + 1 by rw [Block.length_ofString]; omega) (by rw [length_nil, Nat.zero_add]; exact hroom) hfit
  rw [after_nil, length_nil] at hloop
  simp only [latexBuffers, popc_start, hloop, bind_eq_bind, bind_some, bind_none]

/-- The string does not end in the middle of an escape; or the target is full when the terminator has been taken for the
last character of the escape, and is not longer than the string. -/
def LatexFits (s : List Byte) (targetLen : ℤ) : Prop :=
  unfinished s = [] ∨ targetLen ≤ (converted s).length + 2 ∧ targetLen ≤ s.length

theorem noZero_endsInEscape : (0 : Byte) ∉ [97, 0x5C] := by decide

end CWB.SpecialChars
