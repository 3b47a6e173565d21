import Mathlib.Data.List.Basic
import Mathlib.Data.List.Pairwise
import Mathlib.Order.Lattice

/-! Ascending disjoint intervals. An interval is any value with a first and a last point. -/

namespace Intervals

open List

variable {ρ α : Type*} [LinearOrder α] (lo hi : ρ → α)

/-- Every interval ends before the next one starts, and none is empty. -/
structure Ascending (l : List ρ) : Prop where
  apart : l.Pairwise fun r r' => hi r < lo r'
  nonempty : ∀ r ∈ l, lo r ≤ hi r

theorem Ascending.head_lt {r r' : ρ} {l : List ρ} {lo hi : ρ → α} (h : Ascending lo hi (r :: l)) (hr : r' ∈ l) : hi r < lo r' :=
  rel_of_pairwise_cons h.apart hr

theorem Ascending.tail {r : ρ} {l : List ρ} {lo hi : ρ → α} (h : Ascending lo hi (r :: l)) : Ascending lo hi l :=
  ⟨(pairwise_cons.mp h.apart).2, fun r' hr' => h.nonempty r' (mem_cons_of_mem _ hr')⟩

/-- The interval that contains a point. -/
def containing (x : α) (l : List ρ) : Option ρ := l.find? fun r => lo r ≤ x ∧ x ≤ hi r

variable {lo hi} {l past rest : List ρ} {r : ρ} {x : α}

theorem containing_none (h : ∀ r ∈ l, ¬(lo r ≤ x ∧ x ≤ hi r)) : containing lo hi x l = none := by
  rw [containing, find?_eq_none]
  intro r hr
  simpa using h r hr

theorem Ascending.not_contains_of_past (h : Ascending lo hi (past ++ r :: rest)) (hpast : ∀ r' ∈ past, hi r' < x)
    (hx : x < lo r) : ∀ r' ∈ past ++ r :: rest, ¬(lo r' ≤ x ∧ x ≤ hi r') := by
  intro r' hr' hin
  obtain hp | heq | hrest := by simpa using hr'
  · exact absurd (hpast r' hp) (not_lt.mpr hin.2)
  · rw [heq] at hin
    exact absurd hx (not_lt.mpr hin.1)
  · have hlt : hi r < lo r' := rel_of_pairwise_cons (pairwise_append.mp h.apart).2.1 hrest
    have hr : lo r ≤ hi r := h.nonempty r (by simp)
    exact absurd (hx.trans_le (hr.trans (hlt.le.trans hin.1))) (lt_irrefl x)

/-- Where the past intervals end before `x` and the current one does not, only this one counts. -/
theorem Ascending.containing_eq (h : Ascending lo hi (past ++ r :: rest)) (hpast : ∀ r' ∈ past, hi r' < x)
    (hx : x ≤ hi r) : containing lo hi x (past ++ r :: rest) = if lo r ≤ x then some r else none := by
  by_cases hlo : lo r ≤ x
  · rw [if_pos hlo, containing, find?_append, find?_eq_none.mpr, Option.none_or, find?_cons_of_pos]
    · simpa using ⟨hlo, hx⟩
    · intro r' hr'
      simpa using fun _ => hpast r' hr'
  · rw [if_neg hlo]
    exact containing_none (h.not_contains_of_past hpast (not_le.mp hlo))

/-- A point of the interval `r`. -/
theorem Ascending.containing_mem (h : Ascending lo hi l) (hr : r ∈ l) (hlo : lo r ≤ x) (hhi : x ≤ hi r) :
    containing lo hi x l = some r := by
  obtain ⟨past, rest, rfl⟩ := append_of_mem hr
  have hpast : ∀ r' ∈ past, hi r' < x := fun r' hr' =>
    ((pairwise_append.mp h.apart).2.2 r' hr' r (by simp)).trans_le hlo
  rw [h.containing_eq hpast hhi, if_pos hlo]

/-- A point lies in one interval at most. -/
theorem Ascending.unique (h : Ascending lo hi l) {r r' : ρ} (hr : r ∈ l) (hr' : r' ∈ l) (hx : lo r ≤ x ∧ x ≤ hi r)
    (hx' : lo r' ≤ x ∧ x ≤ hi r') : r = r' :=
  Option.some.inj ((h.containing_mem hr hx.1 hx.2).symm.trans (h.containing_mem hr' hx'.1 hx'.2))

end Intervals

/-! Intervals of integers that follow one another without a gap. -/

namespace Tiling

/-- The intervals lead from `p` to just before `q`. -/
def Tiles : ℤ → List (ℤ × ℤ) → ℤ → Prop
  | p, [], q => p = q
  | p, r :: l, q => r.1 = p ∧ r.1 ≤ r.2 ∧ Tiles (r.2 + 1) l q

variable {p q q' : ℤ} {l l' : List (ℤ × ℤ)} {r : ℤ × ℤ}

theorem tiles_append : Tiles p (l ++ l') q ↔ ∃ m, Tiles p l m ∧ Tiles m l' q := by
  induction l generalizing p with
  | nil => exact ⟨fun h => ⟨p, rfl, h⟩, fun ⟨m, hm, h⟩ => by rw [Tiles] at hm; rwa [hm]⟩
  | cons r l ih =>
    simp only [List.cons_append, Tiles, ih]
    refine ⟨fun ⟨hp, hle, m, hm, h⟩ => ⟨m, ⟨hp, hle, hm⟩, h⟩, fun ⟨m, ⟨hp, hle, hm⟩, h⟩ => ⟨hp, hle, m, hm, h⟩⟩

theorem Tiles.head (h : Tiles p l q) (hr : l.head? = some r) : r.1 = p := by
  cases l with
  | nil => cases hr
  | cons r' l =>
    cases hr
    exact h.1

theorem Tiles.last (h : Tiles p l q) (hr : l.getLast? = some r) : q = r.2 + 1 := by
  induction l generalizing p with
  | nil => cases hr
  | cons r' l ih =>
    cases l with
    | nil =>
      cases hr
      exact h.2.2.symm
    | cons r'' l =>
      rw [List.getLast?_cons_cons] at hr
      exact ih h.2.2 hr

/-- A tiling is cut at any of its intervals. -/
theorem Tiles.cut (h : Tiles p l q) (k : ℕ) : ∃ m, Tiles p (l.take k) m ∧ Tiles m (l.drop k) q := by
  rwa [← tiles_append, List.take_append_drop]

end Tiling
