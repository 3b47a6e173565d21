import Mathlib.SetTheory.Cardinal.NatCard

/-! Relations without cycles on finite sets: no element of a finite set can go on
having predecessors in it, and no walk inside it is longer than the set. -/

namespace Acyclic

open Finset

variable {α : Type*} {r : α → α → Prop}

/-- If every element of a finite nonempty set has a predecessor in it, there is a cycle. -/
theorem exists_cycle {s : Set α} (hs : s.Finite) (hne : s.Nonempty)
    (hpred : ∀ x ∈ s, ∃ y ∈ s, r y x) : ∃ x, Relation.TransGen r x x := by
  by_contra hno
  have := hs.to_subtype
  let r' : s → s → Prop := fun x y => Relation.TransGen r x y
  have : IsTrans s r' := ⟨fun _ _ _ h1 h2 => Relation.TransGen.trans h1 h2⟩
  have : Std.Irrefl r' := ⟨fun x h => hno ⟨x, h⟩⟩
  obtain ⟨x0, hx0⟩ := hne
  obtain ⟨x, -, hx⟩ := (Finite.wellFounded_of_trans_of_irrefl r').has_min Set.univ ⟨⟨x0, hx0⟩, trivial⟩
  obtain ⟨y, hy, hr⟩ := hpred x x.2
  exact hx ⟨y, hy⟩ trivial (Relation.TransGen.single hr)

/-- Walks of `n` steps inside `box`, by their end points. -/
inductive Walk (r : α → α → Prop) (box : Finset α) : ℕ → α → Prop
  | nil {x : α} (hx : x ∈ box) : Walk r box 0 x
  | cons {n : ℕ} {x y : α} (h : Walk r box n x) (hr : r x y) (hy : y ∈ box) : Walk r box (n + 1) y

theorem Walk.lt_card [DecidableEq α] {box : Finset α} (hno : ∀ x, ¬ Relation.TransGen r x x)
    {n : ℕ} {x : α} (h : Walk r box n x) : n < box.card := by
  suffices hS : ∃ S ⊆ box, S.card = n + 1 ∧ ∀ y ∈ S, Relation.ReflTransGen r y x by
    obtain ⟨S, hS, hc, -⟩ := hS
    have := card_le_card hS
    omega
  -- the set of elements visited so far; the next one cannot be among them
  induction h with
  | nil hx => exact ⟨{_}, by simpa using hx, by simp, by simp [Relation.ReflTransGen.refl]⟩
  | @cons n x y h hr hy ih =>
    obtain ⟨S, hS, hc, hreach⟩ := ih
    have hnew : y ∉ S := fun hy' => hno y (Relation.TransGen.tail' (hreach y hy') hr)
    refine ⟨insert y S, insert_subset hy hS, by rw [card_insert_of_notMem hnew, hc], ?_⟩
    intro z hz
    rcases mem_insert.mp hz with rfl | hz
    · exact Relation.ReflTransGen.refl
    · exact (hreach z hz).tail hr

end Acyclic
