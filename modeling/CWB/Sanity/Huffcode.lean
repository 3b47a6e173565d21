import CWB.Library.BinaryHeap
import CWB.Library.CanonicalCode
import CWB.Library.Huffman
import CWB.Spec.Huffcode

/-! The array of `compute_code_lengths` as a forest. Whatever the comparisons of the
heap say, sifting only permutes the pointers to the roots, and every round of phase 2
makes one tree out of two, written over the cells that the removed pointers left. -/

namespace CWB

open Nat Function List

variable {i : ℕ}

namespace Cells

@[simp] theorem put_self (a : Cells) (i v : ℕ) : a.put i v i = v := by simp [put]

theorem put_ne {a : Cells} {j v : ℕ} (h : j ≠ i) : a.put i v j = a j := by simp [put, h]

end Cells

theorem swapCells_apply (heap : Cells) (i j c : ℕ) : swapCells heap i j c = heap (Equiv.swap i j c) := by
  unfold swapCells
  by_cases hj : c = j
  · rw [hj, Cells.put_self, Equiv.swap_apply_right]
  · rw [Cells.put_ne hj]
    by_cases hi : c = i
    · rw [hi, Cells.put_self, Equiv.swap_apply_left]
    · rw [Cells.put_ne hi, Equiv.swap_apply_of_ne_of_ne hi hj]

/-- The first `n` cells are permuted, the others are unchanged. -/
structure SameCells (n : ℕ) (heap heap' : Cells) : Prop where
  above : ∀ c, n ≤ c → heap' c = heap c
  perm : ((range n).map heap').Perm ((range n).map heap)

variable {c : ℕ}

namespace SameCells

variable {n : ℕ} {heap heap' heap'' : Cells}

theorem refl (heap : Cells) : SameCells n heap heap := ⟨fun _ _ => rfl, .refl _⟩

theorem trans (h : SameCells n heap heap') (h' : SameCells n heap' heap'') : SameCells n heap heap'' :=
  ⟨fun c hc => (h'.above c hc).trans (h.above c hc), h'.perm.trans h.perm⟩

theorem swap {j : ℕ} (hi : i < n) (hj : j < n) : SameCells n heap (swapCells heap i j) := by
  refine ⟨fun c hc => ?_, ?_⟩
  · rw [swapCells_apply, Equiv.swap_apply_of_ne_of_ne (by omega) (by omega)]
  · have hcells : (range n).map (swapCells heap i j) = ((range n).map (Equiv.swap i j)).map heap := by
      rw [map_map]
      exact map_congr_left fun c _ => swapCells_apply heap i j c
    rw [hcells]
    apply List.Perm.map
    rw [perm_ext_iff_of_nodup (nodup_range.map (Equiv.injective _)) nodup_range]
    intro c
    simp only [mem_map, mem_range]
    constructor
    · intro h
      obtain ⟨a, ha, rfl⟩ := h
      by_cases hai : a = i
      · rwa [hai, Equiv.swap_apply_left]
      · by_cases haj : a = j
        · rwa [haj, Equiv.swap_apply_right]
        · rwa [Equiv.swap_apply_of_ne_of_ne hai haj]
    · intro h
      refine ⟨Equiv.swap i j c, ?_, Equiv.swap_apply_self i j c⟩
      by_cases hai : c = i
      · rwa [hai, Equiv.swap_apply_left]
      · by_cases haj : c = j
        · rwa [haj, Equiv.swap_apply_right]
        · rwa [Equiv.swap_apply_of_ne_of_ne hai haj]

theorem mem_iff (h : SameCells n heap heap') :
    c ∈ (range n).map heap' ↔ c ∈ (range n).map heap := h.perm.mem_iff

end SameCells

theorem siftLoop_same (heapSize fuel : ℕ) (heap : Cells) {node : ℕ} (hnode : 1 ≤ node) :
    SameCells heapSize heap (siftLoop heapSize fuel heap node) := by
  induction fuel generalizing heap node with
  | zero => exact .refl heap
  | succ fuel ih =>
    simp only [siftLoop]
    split_ifs
    · exact (SameCells.swap (by omega) (by omega)).trans (ih _ (by omega))
    · exact .refl heap
    · exact (SameCells.swap (by omega) (by omega)).trans (ih _ (by omega))
    · exact .refl heap
    · exact .refl heap

theorem sift_same (heap : Cells) (heapSize : ℕ) {node : ℕ} (hnode : 1 ≤ node) :
    SameCells heapSize heap (sift heap heapSize node) := siftLoop_same heapSize heapSize heap hnode

theorem phase1_same (size i : ℕ) (heap : Cells) : SameCells size heap (phase1 size i heap) := by
  induction i generalizing heap with
  | zero => exact .refl heap
  | succ i ih => exact (sift_same heap size (by omega)).trans (ih _)

theorem swapUp_same {n fuel : ℕ} (heap : Cells) {current : ℕ} (h : current ≤ n) :
    SameCells n heap (swapUp fuel heap current) := by
  induction fuel generalizing heap current with
  | zero => exact .refl heap
  | succ fuel ih =>
    simp only [swapUp]
    split_ifs
    · exact (SameCells.swap (by omega) (by omega)).trans (ih _ (by omega))
    · exact .refl heap

/-- Removing the top of the heap: its pointer and those that stay are the pointers there were. -/
theorem removeTop_spec (heap : Cells) (h : ℕ) :
    (∀ c, h ≤ c → removeTop heap (h + 1) c = heap c) ∧
      (heap 0 :: (range h).map (removeTop heap (h + 1))).Perm ((range (h + 1)).map heap) := by
  have hsame := sift_same (heap.put 0 (heap h)) h (show 1 ≤ 1 from le_rfl)
  have heq : removeTop heap (h + 1) = sift (heap.put 0 (heap h)) h 1 := by rw [removeTop, Nat.add_sub_cancel]
  rw [heq]
  refine ⟨fun c hc => ?_, (List.Perm.cons _ hsame.perm).trans ?_⟩
  · rw [hsame.above c hc]
    by_cases h0 : c = 0
    · obtain rfl : h = 0 := by omega
      rw [h0, Cells.put_self]
    · exact Cells.put_ne h0
  · cases h with
    | zero => simp
    | succ h =>
      rw [range_succ (n := h + 1), range_succ_eq_map, map_append, map_cons, map_cons,
        Cells.put_self, map_map, map_map, cons_append]
      have htail : (range h).map ((heap.put 0 (heap (h + 1))).get ∘ Nat.succ) = (range h).map (heap.get ∘ Nat.succ) :=
        map_congr_left fun c _ => Cells.put_ne (succ_ne_zero c)
      rw [htail]
      exact List.Perm.cons _ (perm_append_singleton _ _).symm

/-- The array of one round of phase 2 before the new item is swapped up. -/
def joined (heap : Cells) (h : ℕ) : Cells :=
  joinTwo (removeTop (removeTop heap (h + 2)) (h + 1)) h (heap 0) (removeTop heap (h + 2) 0)

theorem mergeRound_eq (heap : Cells) (h : ℕ) : mergeRound heap (h + 2) = swapUp (h + 2) (joined heap h) (h + 1) := rfl

/-- What one round does: the pointers `p0` and `p1` leave the heap, their cells become parent
pointers to the new cell, and `rest` are the pointers that stay. -/
structure Round (h : ℕ) (heap heap' : Cells) (p0 p1 : ℕ) (rest : List ℕ) : Prop where
  before : (p0 :: p1 :: rest).Perm ((range (h + 2)).map heap)
  after : ((h + 1) :: rest).Perm ((range (h + 1)).map heap')
  fst_eq : heap' p0 = h + 1
  snd_eq : heap' p1 = h + 1
  sum_eq : heap' (h + 1) = (heap p0 + heap p1) % 2 ^ 32
  others : ∀ c, h + 2 ≤ c → c ≠ p0 → c ≠ p1 → heap' c = heap c

section Round

variable {h : ℕ} {heap heap' : Cells} {p0 p1 : ℕ} {rest : List ℕ}

theorem Round.fst_mem (hr : Round h heap heap' p0 p1 rest) : p0 ∈ (range (h + 2)).map heap :=
  hr.before.subset mem_cons_self

theorem Round.snd_mem (hr : Round h heap heap' p0 p1 rest) : p1 ∈ (range (h + 2)).map heap :=
  hr.before.subset (mem_cons_of_mem _ mem_cons_self)

theorem Round.rest_mem (hr : Round h heap heap' p0 p1 rest) (hc : c ∈ rest) : c ∈ (range (h + 2)).map heap :=
  hr.before.subset (mem_cons_of_mem _ (mem_cons_of_mem _ hc))

/-- A pointer that stays is none of the two that leave. -/
theorem Round.rest_ne (hr : Round h heap heap' p0 p1 rest) (hnodup : ((range (h + 2)).map heap).Nodup)
    (hc : c ∈ rest) : c ≠ p0 ∧ c ≠ p1 := by
  obtain ⟨h0, hnodup⟩ := nodup_cons.mp (hr.before.nodup_iff.mpr hnodup)
  have h1 := (nodup_cons.mp hnodup).1
  exact ⟨fun heq => h0 (heq ▸ mem_cons_of_mem _ hc), fun heq => h1 (heq ▸ hc)⟩

theorem removed_perm (heap : Cells) (h : ℕ) :
    (heap 0 :: removeTop heap (h + 2) 0 :: (range h).map (removeTop (removeTop heap (h + 2)) (h + 1))).Perm
      ((range (h + 2)).map heap) :=
  (List.Perm.cons _ (removeTop_spec (removeTop heap (h + 2)) h).2).trans (removeTop_spec heap (h + 1)).2

theorem removed_above (hc : h + 1 ≤ c) : removeTop (removeTop heap (h + 2)) (h + 1) c = heap c := by
  rw [(removeTop_spec (removeTop heap (h + 2)) h).1 c (by omega), (removeTop_spec heap (h + 1)).1 c hc]

/-- The round before the new item is swapped up. -/
theorem joined_round (hroots : ∀ c ∈ (range (h + 2)).map heap, h + 2 ≤ c) :
    Round h heap (joined heap h) (heap 0) (removeTop heap (h + 2) 0)
      ((range h).map (removeTop (removeTop heap (h + 2)) (h + 1))) := by
  have hperm := removed_perm heap h
  have h0 : h + 2 ≤ heap 0 := hroots _ (hperm.subset mem_cons_self)
  have h1 : h + 2 ≤ removeTop heap (h + 2) 0 := hroots _ (hperm.subset (mem_cons_of_mem _ mem_cons_self))
  have hother : ∀ c, c ≠ heap 0 → c ≠ removeTop heap (h + 2) 0 → c ≠ h + 1 → c ≠ h →
      joined heap h c = removeTop (removeTop heap (h + 2)) (h + 1) c := by
    intro c hc0 hc1 hc2 hc3
    simp only [joined, joinTwo]
    rw [Cells.put_ne hc0, Cells.put_ne hc1, Cells.put_ne hc2, Cells.put_ne hc3]
  have hnew : joined heap h (h + 1) = (heap (heap 0) + heap (removeTop heap (h + 2) 0)) % 2 ^ 32 := by
    simp only [joined, joinTwo]
    rw [Cells.put_ne (by omega), Cells.put_ne (by omega), Cells.put_self, Cells.put_ne (by omega),
      Cells.put_ne (by omega), removed_above (by omega), removed_above (by omega)]
  have hptr : joined heap h h = h + 1 := by
    simp only [joined, joinTwo]
    rw [Cells.put_ne (by omega), Cells.put_ne (by omega), Cells.put_ne (by omega), Cells.put_self]
  refine ⟨hperm, ?_, ?_, ?_, hnew, ?_⟩
  · rw [range_succ, map_append, map_singleton, hptr]
    have hrest : (range h).map (joined heap h) = (range h).map (removeTop (removeTop heap (h + 2)) (h + 1)) := by
      apply map_congr_left
      intro c hc
      have := mem_range.mp hc
      exact hother c (by omega) (by omega) (by omega) (by omega)
    rw [hrest]
    exact (perm_append_singleton _ _).symm
  · exact Cells.put_self _ _ _
  · simp only [joined, joinTwo]
    by_cases heq : removeTop heap (h + 2) 0 = heap 0
    · rw [heq, Cells.put_self]
    · rw [Cells.put_ne heq, Cells.put_self]
  · intro c hc hc0 hc1
    rw [hother c hc0 hc1 (by omega) (by omega), removed_above (by omega)]

theorem mergeRound_round (hroots : ∀ c ∈ (range (h + 2)).map heap, h + 2 ≤ c) :
    Round h heap (mergeRound heap (h + 2)) (heap 0) (removeTop heap (h + 2) 0)
      ((range h).map (removeTop (removeTop heap (h + 2)) (h + 1))) := by
  have hround := joined_round hroots
  have h0 := hroots _ hround.fst_mem
  have h1 := hroots _ hround.snd_mem
  have hsame : SameCells (h + 1) (joined heap h) (mergeRound heap (h + 2)) := swapUp_same _ le_rfl
  refine ⟨hround.before, hround.after.trans hsame.perm.symm, ?_, ?_, ?_, ?_⟩
  · rw [hsame.above _ (by omega), hround.fst_eq]
  · rw [hsame.above _ (by omega), hround.snd_eq]
  · rw [hsame.above _ le_rfl, hround.sum_eq]
  · intro c hc hc0 hc1
    rw [hsame.above c (by omega), hround.others c hc hc0 hc1]

end Round

/-- The cells from `m` on are the nodes of a forest with the leaves `size`, `size + 1`, ... and
the given roots: a root holds a weight, every other node the cell of its parent. -/
structure Forest (size m : ℕ) (heap : Cells) (tree : ℕ → Huffman.Tree ℕ) (roots : List ℕ) : Prop where
  nodup : roots.Nodup
  root_mem : ∀ c ∈ roots, m ≤ c ∧ c < 2 * size
  parent : ∀ c, m ≤ c → c < 2 * size → c ∉ roots → m ≤ heap c ∧ heap c < c ∧ heap c < size
  leaf : ∀ i < size, tree (size + i) = .leaf i
  inner : ∀ c, m ≤ c → c < size → ∃ c0 c1, tree c = .node (tree c0) (tree c1) ∧
    (c < c0 ∧ c0 < 2 * size ∧ c0 ∉ roots ∧ heap c0 = c) ∧ (c < c1 ∧ c1 < 2 * size ∧ c1 ∉ roots ∧ heap c1 = c)
  leaves : (roots.flatMap fun c => (tree c).leaves).Perm (range size)

namespace Forest

variable {size m : ℕ} {heap heap' : Cells} {tree : ℕ → Huffman.Tree ℕ} {roots roots' : List ℕ}

theorem congr (hf : Forest size m heap tree roots) (hheap : ∀ c, m ≤ c → heap' c = heap c) (hroots : roots.Perm roots') :
    Forest size m heap' tree roots' := by
  refine ⟨hroots.nodup_iff.mp hf.nodup, fun c hc => hf.root_mem c (hroots.mem_iff.mpr hc), ?_, hf.leaf, ?_,
    (hroots.symm.flatMap_right _).trans hf.leaves⟩
  · intro c hm hc hroot
    rw [hheap c hm]
    exact hf.parent c hm hc fun h => hroot (hroots.mem_iff.mp h)
  · intro c hm hc
    obtain ⟨c0, c1, htree, ⟨h0, h0', h0r, h0p⟩, h1, h1', h1r, h1p⟩ := hf.inner c hm hc
    refine ⟨c0, c1, htree, ⟨h0, h0', fun h => h0r (hroots.mem_iff.mpr h), ?_⟩,
      h1, h1', fun h => h1r (hroots.mem_iff.mpr h), ?_⟩
    · rw [hheap c0 (by omega), h0p]
    · rw [hheap c1 (by omega), h1p]

/-- Two roots get a parent in the cell below. -/
theorem join {p0 p1 : ℕ} (hf : Forest size (m + 1) heap tree (p0 :: p1 :: roots)) (hm : m < size)
    (h0 : heap' p0 = m) (h1 : heap' p1 = m) (hother : ∀ c, m + 1 ≤ c → c ≠ p0 → c ≠ p1 → heap' c = heap c) :
    Forest size m heap' (update tree m (.node (tree p0) (tree p1))) (m :: roots) := by
  obtain ⟨hp0, hnodup⟩ := nodup_cons.mp hf.nodup
  obtain ⟨hp1, hroots⟩ := nodup_cons.mp hnodup
  have hm0 := hf.root_mem p0 mem_cons_self
  have hm1 := hf.root_mem p1 (mem_cons_of_mem _ mem_cons_self)
  have hmr : ∀ c ∈ roots, m + 1 ≤ c ∧ c < 2 * size := fun c hc =>
    hf.root_mem c (mem_cons_of_mem _ (mem_cons_of_mem _ hc))
  have htree : ∀ c, m + 1 ≤ c → update tree m (.node (tree p0) (tree p1)) c = tree c := fun c hc =>
    update_of_ne (by omega) _ _
  constructor
  · refine nodup_cons.mpr ⟨fun h => ?_, hroots⟩
    have := hmr m h
    omega
  · intro c hc
    rcases mem_cons.mp hc with rfl | hc
    · omega
    · have := hmr c hc
      omega
  · intro c hmc hc hroot
    have hcm := ne_of_not_mem_cons hroot
    have hcr := not_mem_of_not_mem_cons hroot
    by_cases hc0 : c = p0
    · rw [hc0, h0]
      omega
    · by_cases hc1 : c = p1
      · rw [hc1, h1]
        omega
      · rw [hother c (by omega) hc0 hc1]
        have := hf.parent c (by omega) hc (by simp [hc0, hc1, hcr])
        omega
  · intro i hi
    rw [htree _ (by omega), hf.leaf i hi]
  · intro c hmc hc
    by_cases hcm : c = m
    · subst hcm
      refine ⟨p0, p1, ?_, ⟨by omega, hm0.2, ?_, h0⟩, by omega, hm1.2, ?_, h1⟩
      · rw [update_self, htree p0 hm0.1, htree p1 hm1.1]
      · exact not_mem_cons_of_ne_of_not_mem (by omega) fun h => hp0 (mem_cons_of_mem _ h)
      · exact not_mem_cons_of_ne_of_not_mem (by omega) hp1
    · obtain ⟨c0, c1, hnode, ⟨hlt0, hle0, hr0, hc0⟩, hlt1, hle1, hr1, hc1⟩ := hf.inner c (by omega) hc
      simp only [mem_cons, not_or] at hr0 hr1
      refine ⟨c0, c1, ?_, ⟨hlt0, hle0, ?_, ?_⟩, hlt1, hle1, ?_, ?_⟩
      · rw [htree c (by omega), htree c0 (by omega), htree c1 (by omega), hnode]
      · exact not_mem_cons_of_ne_of_not_mem (by omega) hr0.2.2
      · rw [hother c0 (by omega) hr0.1 hr0.2.1, hc0]
      · exact not_mem_cons_of_ne_of_not_mem (by omega) hr1.2.2
      · rw [hother c1 (by omega) hr1.1 hr1.2.1, hc1]
  · have hsame : (roots.flatMap fun c => (update tree m (.node (tree p0) (tree p1)) c).leaves) =
        roots.flatMap fun c => (tree c).leaves := by
      unfold flatMap
      congr 1
      exact map_congr_left fun c hc => by rw [htree c (hmr c hc).1]
    have hleaves := hf.leaves
    rw [flatMap_cons, flatMap_cons, ← append_assoc] at hleaves
    rw [flatMap_cons, hsame, update_self]
    exact hleaves

/-- The last root is cell 1. -/
theorem last_root (hf : Forest size 1 heap tree [c]) (hsize : 1 ≤ size) : c = 1 := by
  by_contra hne
  have := hf.parent 1 le_rfl (by omega) (by simpa using Ne.symm hne)
  omega

end Forest

/-- The pointers of a heap of `h` nodes are the roots of a forest. -/
def HeapForest (size h : ℕ) (heap : Cells) (tree : ℕ → Huffman.Tree ℕ) : Prop := Forest size h heap tree ((range h).map heap)

section Phases

variable {size h : ℕ} {heap heap' : Cells} {tree : ℕ → Huffman.Tree ℕ}

theorem HeapForest.pointer_ge (hf : HeapForest size h heap tree) : ∀ c ∈ (range h).map heap, h ≤ c :=
  fun c hc => (hf.root_mem c hc).1

theorem HeapForest.same (hf : HeapForest size h heap tree) (hsame : SameCells h heap heap') : HeapForest size h heap' tree :=
  hf.congr hsame.above hsame.perm.symm

/-- The tree that one round makes. -/
def joinTree (heap : Cells) (h : ℕ) (tree : ℕ → Huffman.Tree ℕ) : ℕ → Huffman.Tree ℕ :=
  update tree (h + 1) (.node (tree (heap 0)) (tree (removeTop heap (h + 2) 0)))

theorem HeapForest.round (hf : HeapForest size (h + 2) heap tree) (hsize : h + 1 < size) :
    HeapForest size (h + 1) (mergeRound heap (h + 2)) (joinTree heap h tree) := by
  have hround := mergeRound_round hf.pointer_ge
  have hremoved := hf.congr (fun _ _ => rfl) hround.before.symm
  exact (hremoved.join hsize hround.fst_eq hround.snd_eq hround.others).congr (fun _ _ => rfl) hround.after

theorem initHeap_pointer {freq : ℕ → ℕ} (hc : c < size) : initHeap size freq c = size + c := if_pos hc

theorem initHeap_forest (size : ℕ) (freq : ℕ → ℕ) :
    HeapForest size size (initHeap size freq) fun c => .leaf (c - size) := by
  have hptr : (range size).map (initHeap size freq) = (range size).map fun c => size + c :=
    map_congr_left fun c hc => initHeap_pointer (mem_range.mp hc)
  unfold HeapForest
  rw [hptr]
  constructor
  · exact nodup_range.map fun a b => by simp
  · intro c hc
    obtain ⟨a, ha, rfl⟩ := mem_map.mp hc
    have := mem_range.mp ha
    omega
  · intro c hm hc hroot
    exact absurd (mem_map.mpr ⟨c - size, mem_range.mpr (by omega), by omega⟩) hroot
  · intro i _
    rw [Nat.add_sub_cancel_left]
  · intro c hm hc
    omega
  · simp [flatMap_map, Huffman.Tree.leaves, flatMap_singleton']

/-- The array after `k` rounds of phase 2 on a heap of `size` nodes. -/
def rounds (size : ℕ) (heap : Cells) : ℕ → Cells
  | 0 => heap
  | k + 1 => mergeRound (rounds size heap k) (size - k)

/-- The trees after `k` rounds. -/
def treesAfter (size : ℕ) (heap : Cells) (tree : ℕ → Huffman.Tree ℕ) : ℕ → ℕ → Huffman.Tree ℕ
  | 0 => tree
  | k + 1 => joinTree (rounds size heap k) (size - k - 2) (treesAfter size heap tree k)

theorem rounds_succ (h k : ℕ) (heap : Cells) : rounds (h + 1) heap (k + 1) = rounds h (mergeRound heap (h + 1)) k := by
  induction k with
  | zero => rfl
  | succ k ih => rw [rounds, ih, rounds, Nat.add_sub_add_right]

theorem phase2_eq_rounds (h : ℕ) (heap : Cells) : phase2 h heap = rounds h heap (h - 1) := by
  induction h generalizing heap with
  | zero => rfl
  | succ h ih =>
    rw [phase2]
    split_ifs with hh
    · obtain ⟨k, rfl⟩ : ∃ k, h = k + 1 := ⟨h - 1, by omega⟩
      rw [ih, Nat.add_sub_cancel, Nat.add_sub_cancel, rounds_succ]
    · obtain rfl : h = 0 := by omega
      rfl

theorem HeapForest.rounds (hf : HeapForest size size heap tree) {k : ℕ} (hk : k < size) :
    HeapForest size (size - k) (rounds size heap k) (treesAfter size heap tree k) := by
  induction k with
  | zero => exact hf
  | succ k ih =>
    have hround := ih (by omega)
    obtain ⟨h, hh⟩ : ∃ h, size - k = h + 2 := ⟨size - k - 2, by omega⟩
    rw [CWB.rounds, treesAfter, show size - (k + 1) = h + 1 by omega, hh, Nat.add_sub_cancel]
    rw [hh] at hround
    exact hround.round (by omega)

end Phases

/-! Phase 3. -/

/-- The cells from 2 to `n + 1` are turned from parent pointers into depths. -/
def depthsUpTo (heap : Cells) (n : ℕ) : Cells :=
  (range' 2 n).foldl (fun (heap : Cells) i => heap.put i (heap (heap i) + 1)) ((heap.put 0 (2 ^ 32 - 1)).put 1 0)

theorem phase3_eq (size : ℕ) (heap : Cells) : phase3 size heap = depthsUpTo heap (2 * size - 2) := rfl

section Depths

variable {heap : Cells}

theorem depthsUpTo_succ (heap : Cells) (n : ℕ) : depthsUpTo heap (n + 1) =
    (depthsUpTo heap n).put (2 + n) (depthsUpTo heap n (depthsUpTo heap n (2 + n)) + 1) := by
  rw [depthsUpTo, range'_1_concat, foldl_append]
  rfl

theorem depthsUpTo_above (heap : Cells) {n : ℕ} (hc : 2 + n ≤ c) : depthsUpTo heap n c = heap c := by
  induction n with
  | zero =>
    change ((heap.put 0 (2 ^ 32 - 1)).put 1 0) c = heap c
    rw [Cells.put_ne (by omega), Cells.put_ne (by omega)]
  | succ n ih =>
    rw [depthsUpTo_succ, Cells.put_ne (by omega)]
    exact ih (by omega)

theorem depthsUpTo_stable (heap : Cells) {m n : ℕ} (hmn : m ≤ n) (hc : c < 2 + m) :
    depthsUpTo heap n c = depthsUpTo heap m c := by
  induction n, hmn using le_induction with
  | base => rfl
  | succ n hmn ih =>
    rw [depthsUpTo_succ, Cells.put_ne (by omega)]
    exact ih

theorem depthsUpTo_root (heap : Cells) (n : ℕ) : depthsUpTo heap n 1 = 0 :=
  (depthsUpTo_stable heap (Nat.zero_le n) (by omega)).trans (Cells.put_self _ _ _)

/-- The parent's cell holds its depth already when it is read. -/
theorem depthsUpTo_parent {n : ℕ} (hc : 2 ≤ c) (hcn : c < 2 + n) (hlt : heap c < c) :
    depthsUpTo heap n c = depthsUpTo heap n (heap c) + 1 := by
  obtain ⟨j, rfl⟩ : ∃ j, c = 2 + j := ⟨c - 2, by omega⟩
  rw [depthsUpTo_stable heap (show j + 1 ≤ n by omega) (show 2 + j < 2 + (j + 1) by omega), depthsUpTo_succ,
    Cells.put_self, depthsUpTo_above heap le_rfl, depthsUpTo_stable heap (show j ≤ n by omega) hlt]

end Depths

/-- Depths from the parent pointers are depths in the tree. -/
theorem Forest.depth_eq {size : ℕ} {heap : Cells} {tree : ℕ → Huffman.Tree ℕ} (hf : Forest size 1 heap tree [1])
    (hc : 1 ≤ c) (hlt : c < 2 * size) : ∀ p ∈ (tree c).depths,
      phase3 size heap (size + p.1) = phase3 size heap c + p.2 := by
  induction ht : tree c generalizing c with
  | leaf a =>
    have hsize : size ≤ c := by
      by_contra hlow
      obtain ⟨c0, c1, hnode, -⟩ := hf.inner c hc (by omega)
      rw [ht] at hnode
      exact absurd hnode (by simp)
    have hleaf := hf.leaf (c - size) (by omega)
    rw [Nat.add_sub_cancel' hsize, ht] at hleaf
    intro p hp
    obtain rfl := mem_singleton.mp hp
    obtain rfl : a = c - size := Huffman.Tree.leaf.inj hleaf
    rw [Nat.add_sub_cancel' hsize, Nat.add_zero]
  | node l r ihl ihr =>
    have hsize : c < size := by
      by_contra hhigh
      have hleaf := hf.leaf (c - size) (by omega)
      rw [Nat.add_sub_cancel' (by omega), ht] at hleaf
      exact absurd hleaf (by simp)
    obtain ⟨c0, c1, hnode, ⟨hlt0, hle0, -, hc0⟩, hlt1, hle1, -, hc1⟩ := hf.inner c hc hsize
    rw [ht] at hnode
    obtain ⟨rfl, rfl⟩ := Huffman.Tree.node.inj hnode
    have hd0 : phase3 size heap c0 = phase3 size heap c + 1 := by
      rw [phase3_eq, depthsUpTo_parent (by omega) (by omega) (by omega), hc0]
    have hd1 : phase3 size heap c1 = phase3 size heap c + 1 := by
      rw [phase3_eq, depthsUpTo_parent (by omega) (by omega) (by omega), hc1]
    intro p hp
    obtain ⟨q, hq, rfl⟩ := mem_map.mp hp
    rcases mem_append.mp hq with hq | hq
    · rw [ihl (by omega) hle0 rfl q hq, hd0]
      omega
    · rw [ihr (by omega) hle1 rfl q hq, hd1]
      omega

/-- The tree that phases 1 and 2 leave in the array. -/
def finalTree (size : ℕ) (freq : ℕ → ℕ) : Huffman.Tree ℕ :=
  treesAfter size (phase1 size (size / 2) (initHeap size freq)) (fun c => .leaf (c - size)) (size - 1) 1

theorem heapForest_rounds (size : ℕ) (freq : ℕ → ℕ) {k : ℕ} (hk : k < size) :
    HeapForest size (size - k) (rounds size (phase1 size (size / 2) (initHeap size freq)) k)
      (treesAfter size (phase1 size (size / 2) (initHeap size freq)) (fun c => .leaf (c - size)) k) :=
  ((initHeap_forest size freq).same (phase1_same size _ _)).rounds hk

theorem phase2_forest {size : ℕ} (hsize : 1 ≤ size) (freq : ℕ → ℕ) :
    Forest size 1 (phase2 size (phase1 size (size / 2) (initHeap size freq)))
      (treesAfter size (phase1 size (size / 2) (initHeap size freq)) (fun c => .leaf (c - size)) (size - 1)) [1] := by
  have hf := heapForest_rounds size freq (show size - 1 < size by omega)
  rw [show size - (size - 1) = 1 by omega, ← phase2_eq_rounds] at hf
  have hroot := Forest.last_root hf hsize
  unfold HeapForest at hf
  rw [range_one, map_singleton, hroot] at hf
  exact hf

theorem finalTree_leaves {size : ℕ} (hsize : 1 ≤ size) (freq : ℕ → ℕ) : (finalTree size freq).leaves.Perm (range size) := by
  have hleaves := (phase2_forest hsize freq).leaves
  rwa [flatMap_singleton] at hleaves

/-- The array after the three phases holds the depths of the leaves. -/
theorem depthCells_eq {size : ℕ} (hsize : 1 ≤ size) (freq : ℕ → ℕ) {p : ℕ × ℕ} (hp : p ∈ (finalTree size freq).depths) :
    depthCells size freq (p.1 + size) = p.2 := by
  have hroot : phase3 size (phase2 size (phase1 size (size / 2) (initHeap size freq))) 1 = 0 := depthsUpTo_root _ _
  have h := (phase2_forest hsize freq).depth_eq le_rfl (by omega) p hp
  rw [hroot, Nat.zero_add, Nat.add_comm] at h
  exact h

/-- A sum over the leaves by their depths is a sum over the symbols by their code lengths. -/
theorem sum_depths {M : Type*} [AddCommMonoid M] {size : ℕ} (hsize : 1 ≤ size) (freq : ℕ → ℕ) (f : ℕ → ℕ → M) :
    ((finalTree size freq).depths.map fun p => f p.1 p.2).sum =
      ∑ i ∈ Finset.range size, f i (depthCells size freq (i + size)) := by
  have hmap : (finalTree size freq).depths.map (fun p => f p.1 p.2) =
      (finalTree size freq).leaves.map fun i => f i (depthCells size freq (i + size)) := by
    rw [← Huffman.Tree.depths_fst, map_map]
    exact map_congr_left fun p hp => by rw [comp_apply, depthCells_eq hsize freq hp]
  rw [hmap, ((finalTree_leaves hsize freq).map _).sum_eq]
  rfl

/-- Kraft's equality. -/
theorem kraft_depthCells {size : ℕ} (hsize : 1 ≤ size) (freq : ℕ → ℕ) :
    ∑ i ∈ Finset.range size, (1 / 2 : ℚ) ^ depthCells size freq (i + size) = 1 := by
  rw [← sum_depths hsize freq fun _ d => (1 / 2 : ℚ) ^ d]
  exact (finalTree size freq).kraft_eq_one

/-! The code tables of `compute_code_lengths`: the statistics over the code lengths, the least
code words, the codes and the symbols, and the descriptor block as a file. -/

open CanonicalCode

section Statistics

variable {cl : ℕ → ℕ}

/-- The statistics over the lengths of the first `n` codes. -/
def statsUpTo (cl : ℕ → ℕ) (n : ℕ) : LengthStats := ((range n).map cl).foldl collectLength {}

theorem statsUpTo_succ (n : ℕ) : statsUpTo cl (n + 1) = collectLength (statsUpTo cl n) (cl n) := by
  unfold statsUpTo
  rw [range_succ, map_append, foldl_append]
  rfl

theorem lcount_eq (n l : ℕ) : (statsUpTo cl n).lcount l = count n cl l := by
  induction n with
  | zero => rfl
  | succ n ih =>
    rw [statsUpTo_succ, CanonicalCode.count, count_succ]
    unfold collectLength
    by_cases h : cl n = l
    · subst h
      rw [Cells.put_self, ih, if_pos rfl]
      rfl
    · rw [Cells.put_ne (Ne.symm h), ih, if_neg h]
      rfl

theorem le_maxCodelen {n : ℕ} (hi : i < n) : cl i ≤ (statsUpTo cl n).maxCodelen := by
  induction n with
  | zero => omega
  | succ n ih =>
    rw [statsUpTo_succ]
    simp only [collectLength]
    by_cases h : i = n
    · subst h
      split_ifs <;> omega
    · have := ih (by omega)
      split_ifs <;> omega

theorem minCodelen_le {n : ℕ} (hi : i < n) : (statsUpTo cl n).minCodelen ≤ cl i := by
  induction n with
  | zero => omega
  | succ n ih =>
    rw [statsUpTo_succ]
    simp only [collectLength]
    by_cases h : i = n
    · subst h
      split_ifs <;> omega
    · have := ih (by omega)
      split_ifs <;> omega

theorem maxCodelen_lt {n bound : ℕ} (hbound : 0 < bound) (h : ∀ i < n, cl i < bound) :
    (statsUpTo cl n).maxCodelen < bound := by
  induction n with
  | zero => exact hbound
  | succ n ih =>
    rw [statsUpTo_succ]
    simp only [collectLength]
    have := ih fun i hi => h i (by omega)
    have := h n (by omega)
    split_ifs <;> assumption

end Statistics

section MinCode

variable {lcount : Cells}

theorem fillMinCode_above {j : ℕ} (minCode : Cells) (hj : i < j) : fillMinCode lcount i minCode j = minCode j := by
  induction i generalizing minCode with
  | zero => rfl
  | succ i ih =>
    rw [fillMinCode, ih _ (by omega), Cells.put_ne (by omega)]

theorem fillMinCode_eq {j : ℕ} (minCode : Cells) (h1 : 1 ≤ j) (hj : j ≤ i) :
    fillMinCode lcount i minCode j = (fillMinCode lcount i minCode (j + 1) + lcount (j + 1)) / 2 := by
  induction i generalizing minCode with
  | zero => omega
  | succ i ih =>
    rw [fillMinCode]
    by_cases h : j = i + 1
    · subst h
      rw [fillMinCode_above _ (by omega), fillMinCode_above _ (by omega), Cells.put_self, Cells.put_ne (by omega)]
    · exact ih _ (by omega)

/-- The array of the symbol indices after `k` rounds. -/
theorem fillSymindex_eq {n lo hi l : ℕ} {cl : ℕ → ℕ} (hcount : ∀ l, lcount l = count n cl l) (hmin : ∀ i < n, lo ≤ cl i)
    (hlo : lo ≤ l) (hhi : l ≤ hi) : fillSymindex lcount lo hi l = offset n cl l := by
  have hnone : offset n cl lo = 0 := by
    apply Finset.sum_eq_zero
    intro j hj
    rw [count_eq_card, Finset.card_eq_zero, Finset.filter_eq_empty_iff]
    intro i hi
    have := hmin i (Finset.mem_range.mp hi)
    have := Finset.mem_range.mp hj
    omega
  have hfold : ∀ k l, lo ≤ l → l ≤ lo + k → ((range' (lo + 1) k).foldl
      (fun (symindex : Cells) i => symindex.put i (symindex (i - 1) + lcount (i - 1))) .zero) l = offset n cl l := by
    intro k
    induction k with
    | zero =>
      intro l h1 h2
      obtain rfl : l = lo := by omega
      exact hnone.symm
    | succ k ih =>
      intro l h1 h2
      rw [range'_1_concat, foldl_append, foldl_cons, foldl_nil]
      by_cases h : l = lo + 1 + k
      · subst h
        rw [Cells.put_self, show lo + 1 + k - 1 = lo + k by omega, ih _ (by omega) le_rfl, hcount,
          show lo + 1 + k = lo + k + 1 by omega, offset_succ]
      · rw [Cells.put_ne h]
        exact ih l h1 (by omega)
  exact hfold (hi - lo) l hlo (by omega)

end MinCode

section Issue

variable {size : ℕ} {cl : ℕ → ℕ} {symindex : Cells} {first : Cells} {heap : Cells}

/-- The loop that issues the codes, after `m` symbols. -/
def issueUpTo (size : ℕ) (cl : ℕ → ℕ) (symindex first heap : Cells) (m : ℕ) : Issue :=
  (range m).foldl (issueCode size cl symindex) { heap := heap, nextCode := first, issued := .zero }

theorem issueUpTo_succ (m : ℕ) : issueUpTo size cl symindex first heap (m + 1) =
    issueCode size cl symindex (issueUpTo size cl symindex first heap m) m := by
  unfold issueUpTo
  rw [range_succ, foldl_append]
  rfl

theorem issue_counters (m l : ℕ) : (issueUpTo size cl symindex first heap m).nextCode l = first l + count m cl l ∧
    (issueUpTo size cl symindex first heap m).issued l = count m cl l := by
  induction m with
  | zero => exact ⟨rfl, rfl⟩
  | succ m ih =>
    rw [issueUpTo_succ, CanonicalCode.count, count_succ]
    simp only [issueCode]
    by_cases h : cl m = l
    · subst h
      rw [Cells.put_self, Cells.put_self, ih.1, ih.2, if_pos rfl]
      exact ⟨rfl, rfl⟩
    · rw [Cells.put_ne (Ne.symm h), Cells.put_ne (Ne.symm h), ih.1, ih.2, if_neg h]
      exact ⟨rfl, rfl⟩

/-- The code words stand in the first half of the array, the symbols in the second. -/
theorem issue_heap (hsym : ∀ i < size, symindex (cl i) = offset size cl (cl i)) {m : ℕ} (hm : m ≤ size) :
    ∀ i < m, (issueUpTo size cl symindex first heap m).heap i = first (cl i) + rank cl i ∧
      (issueUpTo size cl symindex first heap m).heap (size + index size cl i) = i := by
  induction m with
  | zero =>
    intro i hi
    omega
  | succ m ih =>
    intro i hi
    have hplace : symindex (cl m) + (issueUpTo size cl symindex first heap m).issued (cl m) = index size cl m := by
      rw [hsym m (by omega), (issue_counters m (cl m)).2]
      rfl
    rw [issueUpTo_succ]
    simp only [issueCode]
    rw [hplace, (issue_counters m (cl m)).1]
    by_cases h : i = m
    · subst h
      rw [Cells.put_ne (by omega), Cells.put_self, Cells.put_self]
      exact ⟨rfl, rfl⟩
    · have hne : index size cl i ≠ index size cl m := fun heq => h (index_inj (by omega) (by omega) heq)
      obtain ⟨hcode, hsymbol⟩ := ih (by omega) i (by omega)
      rw [Cells.put_ne (by omega), Cells.put_ne h, Cells.put_ne (by omega), Cells.put_ne (by omega)]
      exact ⟨hcode, hsymbol⟩

end Issue

/-- What is loaded is what was written. -/
theorem loadHCD_writeHCD {hc : HCD} (hl : hc.lcount.length = MAXCODELEN) (hs : hc.symindex.length = MAXCODELEN)
    (hm : hc.minCode.length = MAXCODELEN) : loadHCD (writeHCD hc) = hc := by
  have hdrop : ∀ (xs ys : List ℕ) (n : ℕ), xs.length = n → (xs ++ ys).drop n = ys := by
    intro xs ys n h
    rw [← h, drop_left]
  have htake : ∀ (xs ys : List ℕ) (n : ℕ), xs.length = n → (xs ++ ys).take n = xs := by
    intro xs ys n h
    rw [← h, take_left]
  have hdata : writeHCD hc = [hc.size, hc.length, hc.minCodelen, hc.maxCodelen] ++
      (hc.lcount ++ (hc.symindex ++ (hc.minCode ++ hc.symbols))) := by
    simp [writeHCD]
  have h4 : (writeHCD hc).drop 4 = hc.lcount ++ (hc.symindex ++ (hc.minCode ++ hc.symbols)) := by
    rw [hdata]
    rfl
  have h5 : (writeHCD hc).drop (4 + MAXCODELEN) = hc.symindex ++ (hc.minCode ++ hc.symbols) := by
    rw [← drop_drop, h4, hdrop _ _ _ hl]
  have h6 : (writeHCD hc).drop (4 + 2 * MAXCODELEN) = hc.minCode ++ hc.symbols := by
    rw [show 4 + 2 * MAXCODELEN = 4 + MAXCODELEN + MAXCODELEN by rfl, ← drop_drop, h5, hdrop _ _ _ hs]
  have h7 : (writeHCD hc).drop (4 + 3 * MAXCODELEN) = hc.symbols := by
    rw [show 4 + 3 * MAXCODELEN = 4 + 2 * MAXCODELEN + MAXCODELEN by rfl, ← drop_drop, h6, hdrop _ _ _ hm]
  unfold loadHCD
  rw [h4, h5, h6, h7, htake _ _ _ hl, htake _ _ _ hs, htake _ _ _ hm]
  rfl

end CWB
