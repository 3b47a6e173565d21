import Mathlib.Data.List.Basic
import Mathlib.Data.Nat.Bitwise
import Mathlib.Tactic.Ring

/-! Numbers as bit strings, most significant bit first: `natBits k n` are the `k`
low bits of `n`, `ofBits` is the value of a bit string, and a byte string stands
for the bits of its bytes. -/

namespace Bits

open Nat List

def natBits : ℕ → ℕ → List Bool
  | 0, _ => []
  | k + 1, n => n.testBit k :: natBits k n

/-- `v` with the bits of a string shifted in from the right. -/
def shiftIn (v : ℕ) (bs : List Bool) : ℕ := bs.foldl (fun v b => 2 * v + b.toNat) v

def ofBits (bs : List Bool) : ℕ := shiftIn 0 bs

def bytesBits (bytes : List ℕ) : List Bool := bytes.flatMap (natBits 8)

@[simp] theorem natBits_zero (n : ℕ) : natBits 0 n = [] := rfl

theorem natBits_succ (k n : ℕ) : natBits (k + 1) n = n.testBit k :: natBits k n := rfl

@[simp] theorem natBits_length (k n : ℕ) : (natBits k n).length = k := by
  induction k with
  | zero => rfl
  | succ k ih => simp [natBits_succ, ih]

theorem natBits_add (j k n : ℕ) : natBits (j + k) n = natBits j (n / 2 ^ k) ++ natBits k n := by
  induction j with
  | zero => simp
  | succ j ih =>
    rw [show j + 1 + k = j + k + 1 by omega, natBits_succ, natBits_succ, ih, testBit_div_two_pow]
    rfl

theorem natBits_congr {k m n : ℕ} (h : m % 2 ^ k = n % 2 ^ k) : natBits k m = natBits k n := by
  induction k with
  | zero => rfl
  | succ k ih =>
    have hlow : m % 2 ^ k = n % 2 ^ k := by
      rw [← mod_mod_of_dvd m (Nat.pow_dvd_pow 2 (le_succ k)), h,
        mod_mod_of_dvd n (Nat.pow_dvd_pow 2 (le_succ k))]
    have htop : m.testBit k = n.testBit k := by
      have := congrArg (fun v => v.testBit k) h
      simpa [testBit_mod_two_pow] using this
    rw [natBits_succ, natBits_succ, ih hlow, htop]

@[simp] theorem natBits_mod (k n : ℕ) : natBits k (n % 2 ^ k) = natBits k n :=
  natBits_congr (mod_mod _ _)

theorem natBits_byte (n : ℕ) : natBits 8 (n % 256) = natBits 8 n := natBits_mod 8 n

/-- Shifting one bit in from the right appends it. -/
theorem natBits_shift (k n : ℕ) (b : Bool) :
    natBits (k + 1) (2 * n + b.toNat) = natBits k n ++ [b] := by
  rw [natBits_add k 1, pow_one, show (2 * n + b.toNat) / 2 = n by cases b <;> grind]
  congr 1
  cases b <;> simp [natBits_succ]

theorem natBits_zero_right (k : ℕ) : natBits k 0 = replicate k false := by
  induction k with
  | zero => rfl
  | succ k ih => rw [natBits_succ, ih, zero_testBit]; rfl

theorem natBits_two_pow_mul (k j n : ℕ) :
    natBits (k + j) (n * 2 ^ j) = natBits k n ++ replicate j false := by
  rw [natBits_add, Nat.mul_div_cancel _ (Nat.two_pow_pos j), ← natBits_zero_right]
  congr 1
  exact natBits_congr (by simp)

/-- The most significant bit leaves a `k + 1` bit register when it is shifted left. -/
theorem natBits_take_shift {k : ℕ} (n j : ℕ) (hj : j ≤ k) :
    (natBits (k + 1) (2 * n)).take j = ((natBits (k + 1) n).take (j + 1)).drop 1 := by
  have h := natBits_shift k n false
  simp only [Bool.toNat_false, Nat.add_zero] at h
  rw [h, natBits_succ, take_succ_cons, drop_one, tail_cons,
    take_append_of_le_length (by simpa using hj)]

@[simp] theorem shiftIn_nil (v : ℕ) : shiftIn v [] = v := rfl

@[simp] theorem shiftIn_cons (v : ℕ) (b : Bool) (bs : List Bool) :
    shiftIn v (b :: bs) = shiftIn (2 * v + b.toNat) bs := rfl

theorem shiftIn_natBits (k v n : ℕ) : shiftIn v (natBits k n) = v * 2 ^ k + n % 2 ^ k := by
  induction k generalizing v with
  | zero => simp [mod_one]
  | succ k ih =>
    rw [natBits_succ, shiftIn_cons, ih, toNat_testBit, mod_pow_succ, Nat.pow_succ]
    ring

theorem ofBits_natBits {k n : ℕ} (h : n < 2 ^ k) : ofBits (natBits k n) = n := by
  rw [ofBits, shiftIn_natBits, mod_eq_of_lt h, Nat.zero_mul, Nat.zero_add]

/-- One more bit of a number from its upper bits. -/
theorem div_two_pow_succ (n d : ℕ) : 2 * (n / 2 ^ (d + 1)) + (n.testBit d).toNat = n / 2 ^ d := by
  rw [toNat_testBit, pow_succ, ← Nat.div_div_eq_div_mul]
  omega

@[simp] theorem bytesBits_nil : bytesBits [] = [] := rfl

@[simp] theorem bytesBits_cons (b : ℕ) (bs : List ℕ) :
    bytesBits (b :: bs) = natBits 8 b ++ bytesBits bs := rfl

@[simp] theorem bytesBits_append (bs cs : List ℕ) :
    bytesBits (bs ++ cs) = bytesBits bs ++ bytesBits cs := flatMap_append

@[simp] theorem bytesBits_length (bs : List ℕ) : (bytesBits bs).length = 8 * bs.length := by
  induction bs with
  | nil => rfl
  | cons b bs ih => rw [bytesBits_cons, length_append, natBits_length, ih, length_cons]; omega

theorem bytesBits_drop (bs : List ℕ) (n : ℕ) : bytesBits (bs.drop n) = (bytesBits bs).drop (8 * n) := by
  induction n generalizing bs with
  | zero => rfl
  | succ n ih =>
    cases bs with
    | nil => simp
    | cons b bs =>
      rw [drop_succ_cons, ih, bytesBits_cons, show 8 * (n + 1) = 8 + 8 * n by omega,
        ← drop_drop, drop_left' (natBits_length 8 b)]

end Bits

/-! Values written to a stream and read back. A reader returns a value and the rest of the
stream. It inverts the writer at a value if it reads that value and no more, whatever follows. -/

namespace Codec

variable {σ α κ : Type*}

abbrev Reader (σ α : Type*) := List σ → Option (α × List σ)

def Inverts (write : α → List σ) (read : Reader σ α) (a : α) : Prop := ∀ rest, read (write a ++ rest) = some (a, rest)

/-- One value of each kind, in turn. -/
def readEach (read : κ → Reader σ α) : List κ → Reader σ (List α)
  | [], stream => some ([], stream)
  | k :: kinds, stream => do
    let (a, stream) ← read k stream
    let (as, stream) ← readEach read kinds stream
    some (a :: as, stream)

def readMany (read : Reader σ α) (n : ℕ) : Reader σ (List α) := readEach (fun _ : Unit => read) (List.replicate n ())

variable {write : α → List σ} {as : List α} {stream rest : List σ}

theorem readEach_flatMap {read : κ → Reader σ α} (kind : α → κ) (h : ∀ a ∈ as, Inverts write (read (kind a)) a)
    (rest : List σ) : readEach read (as.map kind) (as.flatMap write ++ rest) = some (as, rest) := by
  induction as with
  | nil => rfl
  | cons a as ih =>
    rw [List.map_cons, List.flatMap_cons, List.append_assoc, readEach, h a (by simp)]
    simp only [Option.bind_eq_bind, Option.bind_some, ih fun a' ha => h a' (by simp [ha])]

theorem readMany_flatMap {read : Reader σ α} (h : ∀ a ∈ as, Inverts write read a) (rest : List σ) :
    readMany read as.length (as.flatMap write ++ rest) = some (as, rest) := by
  have hkinds : List.replicate as.length () = as.map fun _ => () := by simp
  rw [readMany, hkinds]
  exact readEach_flatMap (fun _ => ()) h rest

/-- What holds of every value read holds of all values read in turn. -/
theorem forall_of_readEach {read : κ → Reader σ α} {P : α → Prop}
    (h : ∀ k stream a rest, read k stream = some (a, rest) → P a) {kinds : List κ}
    (hread : readEach read kinds stream = some (as, rest)) : ∀ a ∈ as, P a := by
  induction kinds generalizing stream as rest with
  | nil =>
    obtain ⟨rfl, -⟩ := Prod.mk.inj (Option.some.inj hread)
    simp
  | cons k kinds ih =>
    simp only [readEach, Option.bind_eq_bind, Option.bind_eq_some_iff] at hread
    obtain ⟨⟨a, stream₁⟩, ha, ⟨as', stream₂⟩, has, heq⟩ := hread
    obtain ⟨rfl, -⟩ := Prod.mk.inj (Option.some.inj heq)
    intro x hx
    rcases List.mem_cons.mp hx with rfl | hx
    · exact h k stream x stream₁ ha
    · exact ih has x hx

theorem forall_of_readMany {read : Reader σ α} {P : α → Prop} (h : ∀ stream a rest, read stream = some (a, rest) → P a)
    {n : ℕ} (hread : readMany read n stream = some (as, rest)) : ∀ a ∈ as, P a :=
  forall_of_readEach (fun _ => h) hread

end Codec
