import Mathlib.Order.RelClasses
import Mathlib.Data.List.Basic

/-! Loops `for (..) if (test) { result = ..; break; }`: the numbers of such a loop come in the order of
a relation, and the result is that of the first number that has one. -/

namespace FirstHit

open List

variable {κ β : Type*} {lt : κ → κ → Prop} {f : κ → Option β} {l : List κ}

theorem findSome?_eq_some_iff [Std.Asymm lt] (h : l.Pairwise lt) {b : β} :
    l.findSome? f = some b ↔ ∃ k ∈ l, f k = some b ∧ ∀ k' ∈ l, lt k' k → f k' = none := by
  induction l with
  | nil => simp
  | cons a l ih =>
    obtain ⟨hfirst, htail⟩ := pairwise_cons.mp h
    rw [findSome?_cons]
    cases ha : f a with
    | some b' =>
      refine ⟨fun hb => ⟨a, by simp, ha.trans hb, fun k' hk' hlt => ?_⟩, fun ⟨k, hk, hfk, hbefore⟩ => ?_⟩
      · rcases mem_cons.mp hk' with rfl | hk'
        · exact absurd hlt (Std.Asymm.asymm _ _ hlt)
        · exact absurd hlt (Std.Asymm.asymm _ _ (hfirst k' hk'))
      · rcases mem_cons.mp hk with rfl | hk
        · exact ha.symm.trans hfk
        · rw [hbefore a (by simp) (hfirst k hk)] at ha
          exact absurd ha (by simp)
    | none =>
      rw [ih htail]
      refine ⟨fun ⟨k, hk, hfk, hbefore⟩ => ⟨k, by simp [hk], hfk, fun k' hk' hlt => ?_⟩,
        fun ⟨k, hk, hfk, hbefore⟩ => ⟨k, ?_, hfk, fun k' hk' => hbefore k' (by simp [hk'])⟩⟩
      · rcases mem_cons.mp hk' with rfl | hk'
        · exact ha
        · exact hbefore k' hk' hlt
      · rcases mem_cons.mp hk with rfl | hk
        · exact absurd (ha.symm.trans hfk) (by simp)
        · exact hk

/-- The numbers below `n` upwards. -/
def up (n : ℕ) (f : ℕ → Option β) : Option β := (range n).findSome? f

/-- The numbers below `n` downwards. -/
def down (n : ℕ) (f : ℕ → Option β) : Option β := (range n).reverse.findSome? f

variable {n : ℕ} {f : ℕ → Option β} {b : β}

theorem up_eq_some_iff : up n f = some b ↔ ∃ k < n, f k = some b ∧ ∀ k' < n, k' < k → f k' = none := by
  rw [up, findSome?_eq_some_iff pairwise_lt_range]
  simp

theorem down_eq_some_iff : down n f = some b ↔ ∃ k < n, f k = some b ∧ ∀ k' < n, k' > k → f k' = none := by
  have hpairwise : (range n).reverse.Pairwise (· > ·) := pairwise_reverse.mpr pairwise_lt_range
  rw [down, findSome?_eq_some_iff hpairwise]
  simp

theorem up_eq_none_iff : up n f = none ↔ ∀ k < n, f k = none := by
  simp [up]

theorem down_eq_none_iff : down n f = none ↔ ∀ k < n, f k = none := by
  simp [down]

end FirstHit
