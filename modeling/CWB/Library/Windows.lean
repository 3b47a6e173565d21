import Mathlib.Data.List.Induction
import Mathlib.Tactic.Ring

/-! Windows of a fixed length that slide over a text, and their numbers in a positional system: the number of the last
window is what remains of a running number that forgets what is longer ago. -/

namespace Windows

open Nat List

variable {α : Type*} (digit : α → ℕ) (base : ℕ)

def code (s : List α) : ℕ := s.foldl (fun n c => n * base + digit c) 0

/-- The windows of length `n`, from left to right. -/
def windows (n : ℕ) (s : List α) : List (List α) := (range (s.length + 1 - n)).map fun k => (s.drop k).take n

theorem length_of_mem_windows {n : ℕ} {s w : List α} (hw : w ∈ windows n s) : w.length = n := by
  obtain ⟨k, hk, rfl⟩ := mem_map.mp hw
  rw [mem_range] at hk
  rw [length_take, length_drop]
  omega

variable {digit base}

theorem code_concat (s : List α) (c : α) : code digit base (s ++ [c]) = code digit base s * base + digit c := by
  rw [code, foldl_append]
  rfl

theorem code_append (s t : List α) :
    code digit base (s ++ t) = code digit base s * base ^ t.length + code digit base t := by
  induction t using reverseRecOn with
  | nil => simp [code]
  | append_singleton t c ih =>
    rw [← append_assoc, code_concat, code_concat, ih, length_append, length_singleton, pow_succ]
    ring

theorem code_lt (hdigit : ∀ c, digit c < base) (s : List α) : code digit base s < base ^ s.length := by
  induction s using reverseRecOn with
  | nil => exact one_pos
  | append_singleton s c ih =>
    rw [code_concat, length_append, length_singleton, pow_succ]
    calc code digit base s * base + digit c < code digit base s * base + base := Nat.add_lt_add_left (hdigit c) _
      _ = (code digit base s + 1) * base := by ring
      _ ≤ base ^ s.length * base := Nat.mul_le_mul_right _ ih

/-- The last `n` characters alone decide. -/
theorem code_mod (hdigit : ∀ c, digit c < base) {n : ℕ} {s : List α} (hn : n ≤ s.length) :
    code digit base s % base ^ n = code digit base (s.drop (s.length - n)) := by
  have hlen : (s.drop (s.length - n)).length = n := by
    rw [length_drop]
    omega
  have hlt := code_lt hdigit (s.drop (s.length - n))
  rw [hlen] at hlt
  conv_lhs => rw [← take_append_drop (s.length - n) s, code_append, hlen, mul_add_mod_self_right, mod_eq_of_lt hlt]

/-- One more character, of a running number that is reduced. -/
theorem code_step (s : List α) (c : α) (m : ℕ) :
    (code digit base s % m * base + digit c) % m = code digit base (s ++ [c]) % m := by
  rw [code_concat, add_mod, mod_mul_mod, ← add_mod]

/-- The windows that end behind `s` in the text `s ++ rest`. -/
def windowsBehind (n : ℕ) : List α → List α → List (List α)
  | _, [] => []
  | s, c :: rest => (if s.length + 1 ≥ n then [(s ++ [c]).drop (s.length + 1 - n)] else []) ++ windowsBehind n (s ++ [c]) rest

theorem windowsBehind_eq {n : ℕ} (hn : 0 < n) (s rest : List α) :
    windowsBehind n s rest = (range' (s.length + 1 - n) ((s ++ rest).length + 1 - n - (s.length + 1 - n))).map
      fun k => ((s ++ rest).drop k).take n := by
  induction rest generalizing s with
  | nil =>
    rw [append_nil, Nat.sub_self]
    rfl
  | cons c rest ih =>
    rw [windowsBehind, ih (s ++ [c]), append_assoc, singleton_append]
    simp only [length_append, length_cons, length_nil, zero_add]
    split_ifs with hlen
    · obtain ⟨k, hk⟩ : ∃ k, s.length + (rest.length + 1) + 1 - n - (s.length + 1 - n) = k + 1 := ⟨rest.length, by omega⟩
      rw [hk, range'_succ, map_cons, singleton_append]
      congr 1
      · have hdrop : ((s ++ [c]).drop (s.length + 1 - n)).length = n := by
          simp only [length_drop, length_append, length_singleton]
          omega
        have hsplit : (s ++ c :: rest).drop (s.length + 1 - n) = (s ++ [c]).drop (s.length + 1 - n) ++ rest := by
          rw [append_cons]
          apply drop_append_of_le_length
          rw [length_append, length_singleton]
          exact sub_le ..
        rw [hsplit]
        exact (take_left' hdrop).symm
      · rw [show s.length + 1 + 1 - n = s.length + 1 - n + 1 by omega,
          show s.length + (rest.length + 1) + 1 - n - (s.length + 1 - n + 1) = k by omega]
    · rw [nil_append, show s.length + 1 + 1 - n = 0 by omega, show s.length + 1 - n = 0 by omega]

theorem windowsBehind_nil {n : ℕ} (hn : 0 < n) (s : List α) : windowsBehind n [] s = windows n s := by
  rw [windowsBehind_eq hn, nil_append, length_nil, windows, show 0 + 1 - n = 0 by omega, Nat.sub_zero,
    range_eq_range']

end Windows
