import Mathlib.Data.List.Induction
import Mathlib.Logic.Function.Basic

/-! Doubly linked lists in a memory of cells. `Part m before l after` says that the cells of `l` are
linked with one another, the first one to `before` and the last one to `after`. -/

namespace LinkedList

open Function List

structure Cell (α : Type) where
  item : α
  prev : Option ℕ := none
  next : Option ℕ := none

/-- An address without a cell is free. -/
abbrev Memory (α : Type) := ℕ → Option (Cell α)

variable {α : Type}

def setNext (m : Memory α) (p : ℕ) (next : Option ℕ) : Option (Memory α) :=
  (m p).map fun c => update m p (some { c with next })

def setPrev (m : Memory α) (p : ℕ) (prev : Option ℕ) : Option (Memory α) :=
  (m p).map fun c => update m p (some { c with prev })

/-- The address of the first cell, or what follows. -/
def firstOr (l : List (ℕ × α)) (after : Option ℕ) : Option ℕ := (l.head?.map Prod.fst).or after

/-- The address of the last cell, or what stands in front. -/
def lastOr (before : Option ℕ) (l : List (ℕ × α)) : Option ℕ := (l.getLast?.map Prod.fst).or before

@[simp] theorem firstOr_nil (after : Option ℕ) : firstOr ([] : List (ℕ × α)) after = after := rfl

@[simp] theorem firstOr_cons (x : ℕ × α) (l : List (ℕ × α)) (after : Option ℕ) : firstOr (x :: l) after = some x.1 := rfl

@[simp] theorem lastOr_nil (before : Option ℕ) : lastOr before ([] : List (ℕ × α)) = before := rfl

@[simp] theorem lastOr_concat (before : Option ℕ) (l : List (ℕ × α)) (x : ℕ × α) : lastOr before (l ++ [x]) = some x.1 := by
  simp [lastOr]

@[simp] theorem lastOr_append_cons (before : Option ℕ) (l l' : List (ℕ × α)) (x : ℕ × α) :
    lastOr before (l ++ x :: l') = lastOr (some x.1) l' := by
  cases l' using reverseRecOn with
  | nil => simp
  | append_singleton l' y =>
    rw [← cons_append, ← append_assoc, lastOr_concat, lastOr_concat]

/-- A part of a list with the items in its cells. -/
def Part (m : Memory α) : Option ℕ → List (ℕ × α) → Option ℕ → Prop
  | _, [], _ => True
  | before, x :: l, after =>
    m x.1 = some { item := x.2, prev := before, next := firstOr l after } ∧ Part m (some x.1) l after

variable {m : Memory α} {before after : Option ℕ} {l l' : List (ℕ × α)} {x : ℕ × α}

theorem part_append : Part m before (l ++ l') after ↔ Part m before l (firstOr l' after) ∧ Part m (lastOr before l) l' after := by
  induction l generalizing before with
  | nil => simp [Part]
  | cons x l ih =>
    have hfirst : firstOr (l ++ l') after = firstOr l (firstOr l' after) := by cases l <;> rfl
    have hlast : lastOr before (x :: l) = lastOr (some x.1) l := lastOr_append_cons before [] l x
    rw [cons_append, Part, Part, ih, hfirst, hlast, and_assoc]

/-- Only the cells of the part matter. -/
theorem Part.congr {m' : Memory α} (h : Part m before l after) (hm : ∀ x ∈ l, m' x.1 = m x.1) : Part m' before l after := by
  induction l generalizing before with
  | nil => trivial
  | cons x l ih =>
    obtain ⟨hx, hl⟩ := h
    obtain ⟨hmx, hml⟩ := forall_mem_cons.mp hm
    exact ⟨hmx.trans hx, ih hl hml⟩

theorem Part.update {p : ℕ} {c : Option (Cell α)} (h : Part m before l after) (hp : p ∉ l.map Prod.fst) :
    Part (update m p c) before l after :=
  h.congr fun x hx => by
    have hne : x.1 ≠ p := fun heq => hp (mem_map.mpr ⟨x, hx, heq⟩)
    rw [update_of_ne hne]

theorem Part.get (h : Part m before (l ++ x :: l') after) :
    m x.1 = some { item := x.2, prev := lastOr before l, next := firstOr l' after } :=
  (part_append.mp h).2.1

/-- The link behind the last cell is changed. -/
theorem Part.setNext (h : Part m before (l ++ [x]) after) (hx : x.1 ∉ l.map Prod.fst) (next : Option ℕ) :
    ∃ m', LinkedList.setNext m x.1 next = some m' ∧ Part m' before (l ++ [x]) next ∧ ∀ q ≠ x.1, m' q = m q := by
  obtain ⟨hl, hcell, -⟩ := part_append.mp h
  refine ⟨_, by rw [LinkedList.setNext, hcell, Option.map_some], ?_, fun q hq => update_of_ne hq ..⟩
  refine part_append.mpr ⟨hl.update hx, ?_, trivial⟩
  rw [update_self]
  rfl

/-- The link in front of the first cell is changed. -/
theorem Part.setPrev (h : Part m before (x :: l) after) (hx : x.1 ∉ l.map Prod.fst) (prev : Option ℕ) :
    ∃ m', LinkedList.setPrev m x.1 prev = some m' ∧ Part m' prev (x :: l) after ∧ ∀ q ≠ x.1, m' q = m q := by
  obtain ⟨hcell, hl⟩ := h
  refine ⟨_, by rw [LinkedList.setPrev, hcell, Option.map_some], ⟨?_, hl.update hx⟩, fun q hq => update_of_ne hq ..⟩
  rw [update_self]

end LinkedList
