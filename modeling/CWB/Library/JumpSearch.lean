import Mathlib.Data.List.Infix

/-! Search for several patterns of one length by their last characters. The distance of a character
from the end of a pattern is how far the window may move before the pattern can lie under it. -/

namespace JumpSearch

open List

variable {α : Type*}

/-- The pattern lies in the text at the offset. -/
def Occurs (text pattern : List α) (i : ℕ) : Prop := pattern <+: text.drop i

variable {text pattern : List α} {i d : ℕ} {c : α}

theorem Occurs.add_length_le (h : Occurs text pattern i) (hne : pattern ≠ []) : i + pattern.length ≤ text.length := by
  have hle := h.length_le
  have := length_pos_iff.mpr hne
  rw [length_drop] at hle
  omega

theorem Occurs.getElem? (h : Occurs text pattern i) {k : ℕ} (hk : k < pattern.length) : text[i + k]? = pattern[k]? := by
  obtain ⟨rest, hrest⟩ := h
  rw [← getElem?_drop, ← hrest, getElem?_append_left hk]

theorem exists_occurs_iff : (∃ i, Occurs text pattern i) ↔ pattern <:+: text := by
  rw [infix_iff_prefix_suffix]
  refine ⟨fun ⟨i, h⟩ => ⟨text.drop i, h, drop_suffix i text⟩, fun ⟨t, hpre, hsuf⟩ => ⟨text.length - t.length, ?_⟩⟩
  rw [Occurs, ← suffix_iff_eq_drop.mp hsuf]
  exact hpre

theorem occurs_zero_iff : Occurs text pattern 0 ↔ pattern <+: text := by rw [Occurs, drop_zero]

/-- At the last offset where it fits, a pattern is a suffix. -/
theorem occurs_last_iff (h : pattern.length ≤ text.length) :
    Occurs text pattern (text.length - pattern.length) ↔ pattern <:+ text := by
  rw [suffix_iff_eq_drop, Occurs]
  refine ⟨fun hpre => hpre.eq_of_length (by rw [length_drop]; omega), fun heq => ?_⟩
  rw [← heq]

section Distance

variable [DecidableEq α]

/-- The distance from the end of the last occurrence of a character; the length if there is none. -/
def distance (pattern : List α) (c : α) : ℕ := pattern.reverse.idxOf c

theorem distance_le_length : distance pattern c ≤ pattern.length := by
  have := idxOf_le_length (a := c) (l := pattern.reverse)
  rwa [length_reverse] at this

theorem idxOf_le_of_getElem? {l : List α} {k : ℕ} (h : l[k]? = some c) : l.idxOf c ≤ k := by
  by_contra hlt
  obtain ⟨hk, hget⟩ := List.getElem?_eq_some_iff.mp h
  have hne := not_of_lt_findIdx (not_le.mp hlt)
  simp [hget] at hne

/-- The character at the end of the window is at most `d` from the end of a pattern that lies `d` to the right. -/
theorem Occurs.distance_le (h : Occurs text pattern (i + d)) (hd : d < pattern.length)
    (hc : text[i + pattern.length - 1]? = some c) : distance pattern c ≤ d := by
  have hget := h.getElem? (k := pattern.length - 1 - d) (by omega)
  rw [show i + d + (pattern.length - 1 - d) = i + pattern.length - 1 by omega, hc] at hget
  have hrev : pattern.reverse[d]? = some c := by rw [getElem?_reverse hd, ← hget]
  exact idxOf_le_of_getElem? hrev

/-- A pattern does not occur before the window has moved by the distance. -/
theorem not_occurs_of_lt_distance (hc : text[i + pattern.length - 1]? = some c) (hd : d < distance pattern c) :
    ¬Occurs text pattern (i + d) := fun h =>
  absurd (h.distance_le (hd.trans_le distance_le_length) hc) (not_le.mpr hd)

end Distance

end JumpSearch
