import Mathlib.Algebra.BigOperators.Intervals
import Mathlib.Algebra.Order.BigOperators.Group.Finset
import Mathlib.Tactic.Linarith

/-! A memory that is divided into slices, one for each number. The sizes of the slices are summed up first; then
each slice is filled from its end, by way of a pointer that moves towards its start. -/

namespace SliceTable

open Function List

variable {α : Type*}

structure Table (α : Type*) where
  size : ℕ
  ptr : ℕ → ℕ
  data : ℕ → α

/-- `*(--ptr[i]) = v`, `none` outside of the memory. -/
def Table.push (t : Table α) (i : ℕ) (v : α) : Option (Table α) :=
  if 0 < t.ptr i ∧ t.ptr i ≤ t.size then
    some { t with ptr := update t.ptr i (t.ptr i - 1), data := update t.data (t.ptr i - 1) v }
  else none

def Table.pushAll (t : Table α) (entries : List (ℕ × α)) : Option (Table α) :=
  entries.foldlM (fun t e => t.push e.1 e.2) t

/-- The entries between two neighbouring pointers. -/
def Table.slice (t : Table α) (i : ℕ) : List α :=
  (range' (t.ptr i) (t.ptr (i + 1) - t.ptr i)).map t.data

/-- The running sums: `count[i] += count[i - 1]` for all `i` from 1 to `n`. -/
def cumulate (n : ℕ) (count : ℕ → ℕ) : ℕ → ℕ :=
  (range n).foldl (fun count i => update count (i + 1) (count (i + 1) + count i)) count

/-- The values that belong to number `i`, in their order. -/
def valuesOf (entries : List (ℕ × α)) (i : ℕ) : List α := entries.filterMap fun e => if e.1 = i then some e.2 else none

theorem valuesOf_singleton (e : ℕ × α) (i : ℕ) : valuesOf [e] i = if e.1 = i then [e.2] else [] := by
  rw [valuesOf, filterMap_cons]
  split_ifs <;> rfl

theorem valuesOf_append (entries entries' : List (ℕ × α)) (i : ℕ) :
    valuesOf (entries ++ entries') i = valuesOf entries i ++ valuesOf entries' i := filterMap_append ..

theorem valuesOf_cons (e : ℕ × α) (entries : List (ℕ × α)) (i : ℕ) :
    valuesOf (e :: entries) i = (if e.1 = i then [e.2] else []) ++ valuesOf entries i := by
  rw [← valuesOf_singleton, ← valuesOf_append, singleton_append]

theorem pushAll_cons (t : Table α) (e : ℕ × α) (entries : List (ℕ × α)) :
    t.pushAll (e :: entries) = (t.push e.1 e.2).bind fun t => t.pushAll entries := foldlM_cons

theorem pushAll_append (t : Table α) (entries entries' : List (ℕ × α)) :
    t.pushAll (entries ++ entries') = (t.pushAll entries).bind fun t => t.pushAll entries' := foldlM_append

theorem cumulate_eq (n : ℕ) (count : ℕ → ℕ) (i : ℕ) :
    cumulate n count i = if i ≤ n then ∑ j ∈ Finset.range (i + 1), count j else count i := by
  induction n generalizing i with
  | zero =>
    change count i = _
    split_ifs with hi
    · rw [Nat.le_zero.mp hi, Finset.sum_range_one]
    · rfl
  | succ n ih =>
    rw [cumulate, range_succ, foldl_append, foldl_cons, foldl_nil]
    change update (cumulate n count) (n + 1) (cumulate n count (n + 1) + cumulate n count n) i = _
    by_cases hi : i = n + 1
    · rw [hi, update_self, ih, ih, if_neg (by omega), if_pos le_rfl, if_pos le_rfl, Finset.sum_range_succ _ (n + 1)]
      exact add_comm _ _
    · rw [update_of_ne hi, ih]
      by_cases hle : i ≤ n
      · rw [if_pos hle, if_pos (by omega)]
      · rw [if_neg hle, if_neg (by omega)]

/-! ## Filling the slices -/

/-- Where slice `i` starts; it ends where the next one starts. -/
def start (count : ℕ → ℕ) (i : ℕ) : ℕ := ∑ j ∈ Finset.range i, count j

theorem start_succ (count : ℕ → ℕ) (i : ℕ) : start count (i + 1) = start count i + count i := Finset.sum_range_succ ..

theorem start_mono (count : ℕ → ℕ) {i j : ℕ} (h : i ≤ j) : start count i ≤ start count j :=
  Finset.sum_le_sum_of_subset (Finset.range_subset_range.mpr h)

/-- The pointers before anything is filled in: the ends of the slices. -/
def initial (n : ℕ) (count : ℕ → ℕ) (data : ℕ → α) : Table α where
  size := cumulate n count n
  ptr := cumulate n count
  data := data

/-- The entries so far stand at the ends of their slices, with the latest ones first. -/
structure Filled (n : ℕ) (count : ℕ → ℕ) (entries : List (ℕ × α)) (t : Table α) : Prop where
  size : t.size = start count n
  last : t.ptr n = start count n
  ptr : ∀ i < n, t.ptr i + (valuesOf entries i).length = start count (i + 1)
  data : ∀ i < n, (range' (t.ptr i) (valuesOf entries i).length).map t.data = (valuesOf entries i).reverse

variable {n : ℕ} {count : ℕ → ℕ} {entries : List (ℕ × α)} {t : Table α}

theorem filled_initial (hcount : count n = 0) (data : ℕ → α) : Filled n count [] (initial n count data) where
  size := by
    rw [initial, cumulate_eq, if_pos le_rfl]
    exact (start_succ count n).trans (by rw [hcount, add_zero])
  last := by
    change cumulate n count n = _
    rw [cumulate_eq, if_pos le_rfl]
    exact (start_succ count n).trans (by rw [hcount, add_zero])
  ptr := fun i hi => by
    change cumulate n count i + 0 = _
    rw [cumulate_eq, if_pos hi.le]
    rfl
  data := fun _ _ => rfl

theorem Filled.push (h : Filled n count entries t) {i : ℕ} (hi : i < n)
    (hroom : (valuesOf entries i).length < count i) (hrooms : ∀ j < n, (valuesOf entries j).length ≤ count j) (v : α) :
    ∃ t', t.push i v = some t' ∧ Filled n count (entries ++ [(i, v)]) t' := by
  have hptr := h.ptr i hi
  have hsucc := start_succ count i
  have hend := start_mono count (show i + 1 ≤ n from hi)
  have hsize := h.size
  rw [Table.push, if_pos ⟨by omega, by omega⟩]
  refine ⟨_, rfl, hsize, ?_, fun j hj => ?_, fun j hj => ?_⟩
  · exact (update_of_ne hi.ne' ..).trans h.last
  · rw [valuesOf_append, valuesOf_singleton]
    simp only
    by_cases hji : j = i
    · subst hji
      rw [update_self, if_pos rfl, length_append, length_singleton]
      omega
    · rw [update_of_ne hji, if_neg (Ne.symm hji), append_nil]
      exact h.ptr j hj
  · rw [valuesOf_append, valuesOf_singleton]
    simp only
    by_cases hji : j = i
    · subst hji
      have hrest : (range' (t.ptr j) (valuesOf entries j).length).map (update t.data (t.ptr j - 1) v) =
          (range' (t.ptr j) (valuesOf entries j).length).map t.data := by
        apply map_congr_left
        intro k hk
        rw [mem_range'_1] at hk
        exact update_of_ne (by omega) ..
      rw [if_pos rfl, update_self, reverse_append, length_append]
      change (range' (t.ptr j - 1) ((valuesOf entries j).length + 1)).map _ = v :: (valuesOf entries j).reverse
      rw [range'_succ, map_cons, update_self, Nat.sub_add_cancel (by omega), hrest, h.data j hj]
    · have hptrj := h.ptr j hj
      have hsuccj := start_succ count j
      have hroomj := hrooms j hj
      -- the place that is written lies in another slice
      have hapart : t.ptr i - 1 < t.ptr j ∨ t.ptr j + (valuesOf entries j).length ≤ t.ptr i - 1 := by
        obtain hlt | hgt := Nat.lt_or_gt_of_ne hji
        · have hle := start_mono count (show j + 1 ≤ i from hlt)
          omega
        · have hle := start_mono count (show i + 1 ≤ j from hgt)
          omega
      have hrest : (range' (t.ptr j) (valuesOf entries j).length).map (update t.data (t.ptr i - 1) v) =
          (range' (t.ptr j) (valuesOf entries j).length).map t.data := by
        apply map_congr_left
        intro k hk
        rw [mem_range'_1] at hk
        exact update_of_ne (by omega) ..
      rw [if_neg (Ne.symm hji), update_of_ne hji, append_nil, hrest, h.data j hj]

theorem valuesOf_length_le (entries entries' : List (ℕ × α)) (i : ℕ) :
    (valuesOf entries i).length ≤ (valuesOf (entries ++ entries') i).length := by
  rw [valuesOf_append, length_append]
  exact Nat.le_add_right ..

theorem Filled.pushAll (entries' : List (ℕ × α)) (h : Filled n count entries t) (hin : ∀ e ∈ entries', e.1 < n)
    (hrooms : ∀ j < n, (valuesOf (entries ++ entries') j).length ≤ count j) :
    ∃ t', t.pushAll entries' = some t' ∧ Filled n count (entries ++ entries') t' := by
  induction entries' generalizing entries t with
  | nil => exact ⟨t, rfl, by rwa [append_nil]⟩
  | cons e entries' ih =>
    obtain ⟨hi, hin⟩ := forall_mem_cons.mp hin
    have hroom := hrooms e.1 hi
    rw [valuesOf_append, valuesOf_cons, if_pos rfl, length_append, length_append, length_singleton] at hroom
    obtain ⟨t1, hpush, h1⟩ := h.push hi (by omega)
      (fun j hj => (valuesOf_length_le entries (e :: entries') j).trans (hrooms j hj)) e.2
    obtain ⟨t2, hall, h2⟩ := ih h1 hin (by rwa [append_assoc])
    rw [append_assoc] at h2
    refine ⟨t2, ?_, h2⟩
    rw [pushAll_cons, hpush]
    exact hall

/-- All slices are full: each one lies between its pointer and the next one. -/
theorem Filled.slice_eq (h : Filled n count entries t) (hfull : ∀ i < n, (valuesOf entries i).length = count i) {i : ℕ}
    (hi : i < n) : t.ptr i = start count i ∧ t.slice i = (valuesOf entries i).reverse := by
  have hstart : ∀ j ≤ n, t.ptr j = start count j := by
    intro j hj
    obtain hlt | rfl := Nat.lt_or_eq_of_le hj
    · have hptr := h.ptr j hlt
      rw [hfull j hlt, start_succ] at hptr
      omega
    · exact h.last
  refine ⟨hstart i hi.le, ?_⟩
  rw [← h.data i hi, Table.slice, hfull i hi, hstart (i + 1) hi, hstart i hi.le, start_succ, Nat.add_sub_cancel_left]

end SliceTable
