import CWB.Proofs.HuffmanOptimal
import Mathlib

/-! The arithmetic of the heap of `compute_code_lengths`: the comparisons of `sift`, which reads unsigned cells as `int`,
and the sums of phase 2, against the sums of the adjusted frequencies that the cells stand for. -/

namespace CWB

open List

/-- A comparison of `sift`: whether the item at `fst` is lighter than the one at `snd`, by the array as it is then. -/
structure Comparison where
  heap : Cells
  fst : ℕ
  snd : ℕ

def Comparison.lighter (c : Comparison) : Prop := signed32 (c.heap c.fst) < signed32 (c.heap c.snd)

instance (c : Comparison) : Decidable c.lighter := inferInstanceAs (Decidable (_ < _))

/-- The comparison has the result that it has for the true sums. -/
def Comparison.Agrees (trueSum : ℕ → ℕ) (c : Comparison) : Prop := c.lighter ↔ trueSum c.fst < trueSum c.snd

/-- The comparisons that `siftLoop` makes, in their order. -/
def siftComparisons (heapSize : ℕ) : ℕ → Cells → ℕ → List Comparison
  | 0, _, _ => []
  | fuel + 1, heap, node =>
    let child := 2 * node
    if child ≤ heapSize then
      let right : Comparison := ⟨heap, heap child, heap (child - 1)⟩
      let selected := if child < heapSize ∧ right.lighter then child + 1 else child
      let down : Comparison := ⟨heap, heap (selected - 1), heap (node - 1)⟩
      (if child < heapSize then [right] else []) ++ down ::
        if down.lighter then siftComparisons heapSize fuel (swapCells heap (selected - 1) (node - 1)) selected else []
    else []

def phase1Comparisons (size : ℕ) : ℕ → Cells → List Comparison
  | 0, _ => []
  | i + 1, heap => siftComparisons size size heap (i + 1) ++ phase1Comparisons size i (sift heap size (i + 1))

/-- The comparisons after the topmost item of a heap of size `h` was removed. -/
def removeComparisons (heap : Cells) (h : ℕ) : List Comparison :=
  siftComparisons (h - 1) (h - 1) (heap.put 0 (heap (h - 1))) 1

def roundComparisons (heap : Cells) (h : ℕ) : List Comparison :=
  removeComparisons heap h ++ removeComparisons (removeTop heap h) (h - 1)

/-- The sum of two adjusted frequencies in a round of phase 2, before it is cut to 32 bits. -/
def roundSum (heap : Cells) (h : ℕ) : ℕ :=
  let heap1 := removeTop heap h
  let heap2 := (removeTop heap1 (h - 1)).put (h - 2) (h - 1)
  heap2 (heap 0) + heap2 (heap1 0)

section Comparisons

variable {n fuel node : ℕ} {heap heap' : Cells} {trueSum : ℕ → ℕ}

/-- What a comparison finds: the items of the heap, in another order. -/
structure Comparison.Within (n : ℕ) (heap : Cells) (c : Comparison) : Prop where
  two_le : 2 ≤ n
  same : SameCells n heap c.heap
  fst_mem : c.fst ∈ (range n).map heap
  snd_mem : c.snd ∈ (range n).map heap

theorem Comparison.within_of_lt {a b : ℕ} (h2 : 2 ≤ n) (ha : a < n) (hb : b < n) :
    Comparison.Within n heap ⟨heap, heap a, heap b⟩ :=
  ⟨h2, .refl heap, mem_pointers ha, mem_pointers hb⟩

theorem Comparison.Within.of_same {c : Comparison} (hsame : SameCells n heap heap') (hc : c.Within n heap') : c.Within n heap :=
  ⟨hc.two_le, hsame.trans hc.same, hsame.mem_iff.mp hc.fst_mem, hsame.mem_iff.mp hc.snd_mem⟩

theorem siftComparisons_within (hnode : 1 ≤ node) : ∀ c ∈ siftComparisons n fuel heap node, c.Within n heap := by
  induction fuel generalizing heap node with
  | zero => exact fun c hc => absurd hc not_mem_nil
  | succ fuel ih =>
    intro c hc
    simp only [siftComparisons] at hc
    by_cases hchild : 2 * node ≤ n
    · rw [if_pos hchild] at hc
      set selected := if 2 * node < n ∧ Comparison.lighter ⟨heap, heap (2 * node), heap (2 * node - 1)⟩
        then 2 * node + 1 else 2 * node with hselected
      have hle : 2 * node ≤ selected ∧ selected ≤ n := by
        rw [hselected]
        split_ifs with h
        · exact ⟨by omega, h.1⟩
        · exact ⟨le_rfl, hchild⟩
      rcases mem_append.mp hc with hright | hdown
      · split_ifs at hright with hlt
        · obtain rfl := mem_singleton.mp hright
          exact Comparison.within_of_lt (by omega) hlt (by omega)
        · exact absurd hright not_mem_nil
      · rcases mem_cons.mp hdown with rfl | hrest
        · exact Comparison.within_of_lt (by omega) (by omega) (by omega)
        · split_ifs at hrest
          · exact (ih (by omega) c hrest).of_same (SameCells.swap (by omega) (by omega))
          · exact absurd hrest not_mem_nil
    · rw [if_neg hchild] at hc
      exact absurd hc not_mem_nil

/-- The items of a heap hold their true sums, and these are small where there is something to compare. -/
def Exact (trueSum : ℕ → ℕ) (n : ℕ) (heap : Cells) : Prop :=
  ∀ p ∈ (range n).map heap, n ≤ p ∧ heap p = trueSum p ∧ (2 ≤ n → trueSum p < 2 ^ 31)

theorem Exact.of_same (he : Exact trueSum n heap) (hsame : SameCells n heap heap') : Exact trueSum n heap' := by
  intro p hp
  have hbefore := he p (hsame.mem_iff.mp hp)
  rwa [hsame.above p hbefore.1]

theorem Exact.agrees (he : Exact trueSum n heap) {c : Comparison} (hc : c.Within n heap) : c.Agrees trueSum := by
  obtain ⟨-, hfst, hsmall⟩ := he.of_same hc.same _ (hc.same.mem_iff.mpr hc.fst_mem)
  obtain ⟨-, hsnd, hsmall'⟩ := he.of_same hc.same _ (hc.same.mem_iff.mpr hc.snd_mem)
  have hle := signed32_le (hsmall' hc.two_le) (hsmall hc.two_le)
  rw [Comparison.Agrees, Comparison.lighter, hfst, hsnd, ← not_le, hle, not_le]

theorem Exact.phase1_agrees (he : Exact trueSum n heap) (i : ℕ) : ∀ c ∈ phase1Comparisons n i heap, c.Agrees trueSum := by
  induction i generalizing heap with
  | zero => exact fun c hc => absurd hc not_mem_nil
  | succ i ih =>
    intro c hc
    rcases mem_append.mp hc with hsift | hrest
    · exact he.agrees (siftComparisons_within (by omega) c hsift)
    · exact ih (he.of_same (sift_same heap n (by omega))) c hrest

/-- The last item is put on the top and sifted, the first one being removed. -/
theorem remove_agrees (he : ∀ p ∈ (range (n + 1)).map heap, n + 1 ≤ p ∧ heap p = trueSum p ∧ (2 ≤ n → trueSum p < 2 ^ 31)) :
    (∀ c ∈ removeComparisons heap (n + 1), c.Agrees trueSum) ∧ Exact trueSum n (removeTop heap (n + 1)) := by
  suffices hput : Exact trueSum n (heap.put 0 (heap n)) from
    ⟨fun c hc => hput.agrees (siftComparisons_within le_rfl c hc), hput.of_same (sift_same _ n le_rfl)⟩
  intro p hp
  have hmem : p ∈ (range (n + 1)).map heap := by
    obtain ⟨i, hi, rfl⟩ := mem_map.mp hp
    have hlt := mem_range.mp hi
    by_cases h0 : i = 0
    · rw [h0, Cells.put_self]
      exact mem_pointers (Nat.lt_succ_self n)
    · rw [Cells.put_ne h0]
      exact mem_pointers (by omega)
  obtain ⟨hge, hcell⟩ := he p hmem
  rw [Cells.put_ne (by omega)]
  exact ⟨by omega, hcell⟩

end Comparisons

section Run

variable {size h : ℕ} {freq w : ℕ → ℕ} {heap : Cells} {tree : ℕ → Huffman.Tree ℕ}

theorem HuffmanHeap.round_agrees (hh : HuffmanHeap w size (h + 2) heap tree) :
    ∀ c ∈ roundComparisons heap (h + 2), c.Agrees fun p => (tree p).weight w := by
  obtain ⟨hfirst, hremoved⟩ := remove_agrees fun p hp =>
    ⟨hh.forest.pointer_ge p hp, hh.weighted p hp, fun h2 => hh.weighted p hp ▸ hh.small (by omega) p hp⟩
  have hsecond := (remove_agrees fun p hp =>
    ⟨(hremoved p hp).1, (hremoved p hp).2.1, fun h2 => (hremoved p hp).2.2 (by omega)⟩).1
  exact fun c hc => (mem_append.mp hc).elim (hfirst c) (hsecond c)

/-- The two items that a round adds up hold their true sums. -/
theorem HuffmanHeap.roundSum_eq (hh : HuffmanHeap w size (h + 2) heap tree) : roundSum heap (h + 2) =
    (tree (heap 0)).weight w + (tree (removeTop heap (h + 2) 0)).weight w := by
  have hround := mergeRound_round hh.forest.pointer_ge
  have hcell : ∀ p ∈ (range (h + 2)).map heap,
      (removeTop (removeTop heap (h + 2)) (h + 1)).put h (h + 1) p = (tree p).weight w := by
    intro p hp
    have hge := hh.forest.pointer_ge p hp
    rw [Cells.put_ne (by omega), removed_above (by omega), hh.weighted p hp]
  exact congrArg₂ (· + ·) (hcell _ hround.fst_mem) (hcell _ hround.snd_mem)

/-- The sum of the adjusted frequencies under the item at `p`, after `k` rounds of phase 2. -/
def trueSum (size : ℕ) (freq : ℕ → ℕ) (k p : ℕ) : ℕ := (treeAt size freq k p).weight fun i => freq i + 1

/-- Over the whole run every comparison of `sift` has the result that it has for the true sums, and every sum that phase 2
forms is the true one and does not wrap. -/
structure HeapArithmetic (size : ℕ) (freq : ℕ → ℕ) : Prop where
  phase1 : ∀ c ∈ phase1Comparisons size (size / 2) (initHeap size freq), c.Agrees (trueSum size freq 0)
  phase2 : ∀ k, k + 1 < size → ∀ c ∈ roundComparisons (rounds size (initialHeap size freq) k) (size - k),
    c.Agrees (trueSum size freq k)
  sums : ∀ k, k + 1 < size → let heap := rounds size (initialHeap size freq) k
    roundSum heap (size - k) = trueSum size freq k (heap 0) + trueSum size freq k (removeTop heap (size - k) 0) ∧
      roundSum heap (size - k) < 2 ^ 32

theorem heapArithmetic (hsize : 2 * size < 2 ^ 31) (hsum : ∑ i ∈ Finset.range size, freq i ≤ 2 ^ 31 - 1)
    (hfreq : size = 1 ∨ ∀ i < size, freq i ≠ 2 ^ 31 - 1) : HeapArithmetic size freq := by
  have hadjusted : 2 ≤ size → ∀ i < size, freq i + 1 < 2 ^ 31 := by
    intro h2 i hi
    have hle := Finset.single_le_sum (fun j _ => Nat.zero_le (freq j)) (Finset.mem_range.mpr hi)
    have hne := hfreq.resolve_left (by omega) i hi
    omega
  have htotal : ∑ i ∈ Finset.range size, (freq i + 1) < 2 ^ 32 := by
    rw [Finset.sum_add_distrib, Finset.sum_const, Finset.card_range, smul_eq_mul, mul_one]
    omega
  have hround : ∀ k, k + 1 < size → ∃ h, size - k = h + 2 ∧
      HuffmanHeap (fun i => freq i + 1) size (h + 2) (rounds size (initialHeap size freq) k) (treeAt size freq k) := by
    intro k hk
    obtain ⟨h, hh⟩ : ∃ h, size - k = h + 2 := ⟨size - k - 2, by omega⟩
    exact ⟨h, hh, hh ▸ (rounds_huffman (hadjusted (by omega)) htotal (by omega)).1⟩
  refine ⟨?_, fun k hk => ?_, fun k hk => ?_⟩
  · apply Exact.phase1_agrees
    intro p hp
    obtain ⟨i, hi, rfl⟩ := mem_map.mp hp
    have hlt := mem_range.mp hi
    have hleaf : initHeap size freq (size + i) = freq i + 1 := by
      change (if size + i < size then size + (size + i) else if size + i < 2 * size then freq (size + i - size) + 1 else 0) = _
      rw [if_neg (by omega), if_pos (by omega), Nat.add_sub_cancel_left]
    have hsum : trueSum size freq 0 (size + i) = freq i + 1 := by
      rw [trueSum, treeAt, treesAfter, Nat.add_sub_cancel_left]
      rfl
    rw [initHeap_pointer hlt, hsum]
    exact ⟨Nat.le_add_right size i, hleaf, fun h2 => hadjusted h2 i hlt⟩
  · obtain ⟨h, hh, hheap⟩ := hround k hk
    rw [hh]
    exact hheap.round_agrees
  · obtain ⟨h, hh, hheap⟩ := hround k hk
    have hbefore := (mergeRound_round hheap.forest.pointer_ge).before
    have hweights := (hbefore.map fun p => (treeAt size freq k p).weight fun i => freq i + 1).sum_eq
    rw [sum_weights hheap.forest, map_cons, map_cons, sum_cons, sum_cons] at hweights
    have hsum := hheap.roundSum_eq
    rw [hh]
    exact ⟨hsum, by omega⟩

theorem heapArithmetic_three : HeapArithmetic 3 fun i => i + 1 := heapArithmetic (by decide) (by decide) (.inr (by decide))

/-- All tokens are of one type and the other type of the lexicon does not occur: `sift` takes `2 ^ 31` for a negative number. -/
theorem not_heapArithmetic : ¬∀ (size : ℕ) (freq : ℕ → ℕ), 2 * size < 2 ^ 31 → ∑ i ∈ Finset.range size, freq i ≤ 2 ^ 31 - 1 →
    HeapArithmetic size freq := by
  intro h
  have hsafe := h 2 (fun i => if i = 0 then 2 ^ 31 - 1 else 0) (by decide) (by decide)
  have hagrees := hsafe.phase1 ⟨initHeap 2 fun i => if i = 0 then 2 ^ 31 - 1 else 0, 3, 2⟩ mem_cons_self
  exact absurd (hagrees.mpr (by decide)) (by decide)

end Run

end CWB
