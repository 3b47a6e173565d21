import CWB.Sanity.Huffcode

/-! The code lengths of `compute_code_lengths` are optimal. As long as the weights that are
compared are below `2 ^ 31`, sifting keeps the heap order, so that every round merges the two
lightest trees. -/

namespace CWB

open Function List BinaryHeap

/-- The weight at a node of the heap, read through its pointer. -/
def nodeWeight (heap : Cells) (node : ℕ) : ℕ := heap (heap (node - 1))

/-- The weight as `sift` reads it. -/
def signedWeight (heap : Cells) (node : ℕ) : ℤ := signed32 (nodeWeight heap node)

theorem signed32_le {a b : ℕ} (ha : a < 2 ^ 31) (hb : b < 2 ^ 31) : signed32 a ≤ signed32 b ↔ a ≤ b := by
  unfold signed32
  rw [if_pos ha, if_pos hb]
  exact Int.ofNat_le

section Sift

variable {n lo node child : ℕ} {heap : Cells}

theorem nodeWeight_swap {a b i : ℕ} (hptr : ∀ c < n, n ≤ heap c) (ha1 : 1 ≤ a) (ha : a ≤ n) (hb1 : 1 ≤ b) (hb : b ≤ n)
    (h1 : 1 ≤ i) (hi : i ≤ n) :
    nodeWeight (swapCells heap (a - 1) (b - 1)) i = nodeWeight heap (Equiv.swap a b i) := by
  have hswap : Equiv.swap (a - 1) (b - 1) (i - 1) = Equiv.swap a b i - 1 ∧ Equiv.swap a b i - 1 < n := by
    by_cases hia : i = a
    · rw [hia, Equiv.swap_apply_left, Equiv.swap_apply_left]
      omega
    · by_cases hib : i = b
      · rw [hib, Equiv.swap_apply_right, Equiv.swap_apply_right]
        omega
      · rw [Equiv.swap_apply_of_ne_of_ne hia hib, Equiv.swap_apply_of_ne_of_ne (by omega) (by omega)]
        omega
  have hge := hptr _ hswap.2
  unfold nodeWeight
  rw [swapCells_apply, swapCells_apply, hswap.1, Equiv.swap_apply_of_ne_of_ne (by omega) (by omega)]

/-- One exchange of `sift`, with the smaller child. -/
theorem sift_exchange (hptr : ∀ c < n, n ≤ heap c) (hlo : 1 ≤ lo) (hnode : 1 ≤ node)
    (ho : DownOrder (signedWeight heap) n lo node) (hc : child / 2 = node) (hcn : child ≤ n)
    (hmin : ∀ i, 2 ≤ i → i ≤ n → i / 2 = node → signedWeight heap child ≤ signedWeight heap i)
    (hlt : signedWeight heap child < signedWeight heap node) :
    DownOrder (signedWeight (swapCells heap (child - 1) (node - 1))) n lo child := by
  apply (ho.exchange hnode hc hcn hmin hlt).congr hlo (by omega)
  intro i h1 hi
  exact congrArg signed32 (nodeWeight_swap hptr (by omega) hcn hnode (by omega) h1 hi)

theorem siftLoop_ordered {fuel : ℕ} (hptr : ∀ c < n, n ≤ heap c) (hlo : 1 ≤ lo) (hnode : 1 ≤ node)
    (hfuel : n < fuel + node) (ho : DownOrder (signedWeight heap) n lo node) :
    BinaryHeap.Ordered (signedWeight (siftLoop n fuel heap node)) n lo := by
  induction fuel generalizing heap node with
  | zero => exact ho.finish fun i h2 hn hi => by omega
  | succ fuel ih =>
    have hswap : ∀ child, child ≤ n → child / 2 = node → ∀ c < n, n ≤ swapCells heap (child - 1) (node - 1) c := by
      intro child hcn hc c hclt
      rw [swapCells_apply]
      apply hptr
      by_cases h1 : c = child - 1
      · rw [h1, Equiv.swap_apply_left]
        omega
      · by_cases h2 : c = node - 1
        · rw [h2, Equiv.swap_apply_right]
          omega
        · rwa [Equiv.swap_apply_of_ne_of_ne h1 h2]
    have hchildren : ∀ i, 2 ≤ i → i ≤ n → i / 2 = node → i = 2 * node ∨ i = 2 * node + 1 := by
      intro i h2 hn hi
      omega
    simp only [siftLoop]
    split_ifs with hle hright hlt hlt
    · -- the right child is the smaller one
      have hmin : ∀ i, 2 ≤ i → i ≤ n → i / 2 = node → signedWeight heap (2 * node + 1) ≤ signedWeight heap i := by
        intro i h2 hn hi
        rcases hchildren i h2 hn hi with rfl | rfl
        · exact hright.2.le
        · exact le_rfl
      exact ih (hswap _ (by omega) (by omega)) (by omega) (by omega)
        (sift_exchange hptr hlo hnode ho (by omega) (by omega) hmin hlt)
    · apply ho.finish
      intro i h2 hn hi
      have hself : signedWeight heap node ≤ signedWeight heap (2 * node + 1) := not_lt.mp hlt
      rcases hchildren i h2 hn hi with rfl | rfl
      · exact hself.trans hright.2.le
      · exact hself
    · have hmin : ∀ i, 2 ≤ i → i ≤ n → i / 2 = node → signedWeight heap (2 * node) ≤ signedWeight heap i := by
        intro i h2 hn hi
        rcases hchildren i h2 hn hi with rfl | rfl
        · exact le_rfl
        · exact not_lt.mp fun h => hright ⟨by omega, h⟩
      exact ih (hswap _ (by omega) (by omega)) (by omega) (by omega)
        (sift_exchange hptr hlo hnode ho (by omega) (by omega) hmin hlt)
    · apply ho.finish
      intro i h2 hn hi
      have hself : signedWeight heap node ≤ signedWeight heap (2 * node) := not_lt.mp hlt
      rcases hchildren i h2 hn hi with rfl | rfl
      · exact hself
      · exact hself.trans (not_lt.mp fun h => hright ⟨by omega, h⟩)
    · exact ho.finish fun i h2 hn hi => by omega

theorem sift_ordered (hptr : ∀ c < n, n ≤ heap c) (hlo : 1 ≤ lo) (hnode : 1 ≤ node)
    (ho : DownOrder (signedWeight heap) n lo node) : BinaryHeap.Ordered (signedWeight (sift heap n node)) n lo :=
  siftLoop_ordered hptr hlo hnode (by omega) ho

theorem swapUp_ordered {fuel current : ℕ} (hptr : ∀ c < n, n ≤ heap c) (hcur : current ≤ n) (hcur1 : 1 ≤ current)
    (hfuel : current ≤ fuel) (ho : UpOrder (nodeWeight heap) n current) :
    BinaryHeap.Ordered (nodeWeight (swapUp fuel heap current)) n 1 := by
  induction fuel generalizing heap current with
  | zero => omega
  | succ fuel ih =>
    simp only [swapUp]
    split_ifs with h
    · obtain ⟨hpos, hlt⟩ := h
      apply ih
      · intro c hc
        rw [swapCells_apply]
        apply hptr
        by_cases h1 : c = current / 2 - 1
        · rw [h1, Equiv.swap_apply_left]
          omega
        · by_cases h2 : c = current - 1
          · rw [h2, Equiv.swap_apply_right]
            omega
          · rwa [Equiv.swap_apply_of_ne_of_ne h1 h2]
      · omega
      · omega
      · omega
      · apply (ho.exchange (by omega) hlt).congr hpos
        intro i h1 hi
        exact nodeWeight_swap hptr hpos (by omega) hcur1 hcur h1 hi
    · apply ho.finish
      intro h2
      exact not_lt.mp fun hlt => h ⟨by omega, hlt⟩

/-- Weights below `2 ^ 31` are ordered as numbers if they are ordered as signed integers. -/
theorem ordered_of_signed (ho : BinaryHeap.Ordered (signedWeight heap) n 1) (hsmall : ∀ i, 1 ≤ i → i ≤ n → nodeWeight heap i < 2 ^ 31) :
    BinaryHeap.Ordered (nodeWeight heap) n 1 := by
  intro i h2 hn hi
  exact (signed32_le (hsmall _ (by omega) (by omega)) (hsmall i (by omega) hn)).mp (ho i h2 hn hi)

theorem phase1_ordered (hptr : ∀ c < n, n ≤ heap c) {i : ℕ} (ho : BinaryHeap.Ordered (signedWeight heap) n (i + 1)) :
    BinaryHeap.Ordered (signedWeight (phase1 n i heap)) n 1 := by
  induction i generalizing heap with
  | zero => exact ho
  | succ i ih =>
    have hsame := sift_same heap n (show 1 ≤ i + 1 by omega)
    apply ih
    · intro c hc
      obtain ⟨a, ha, heq⟩ := mem_map.mp (hsame.mem_iff.mp (mem_map_of_mem (mem_range.mpr hc)))
      exact heq ▸ hptr a (mem_range.mp ha)
    · apply sift_ordered hptr (by omega) (by omega)
      exact ⟨fun j h2 hn hj hne => ho j h2 hn (by omega), fun j hn hj h1 hlow => by omega⟩

end Sift

section Rounds

variable {size h : ℕ} {heap heap' : Cells} {tree : ℕ → Huffman.Tree ℕ} {w : ℕ → ℕ}

/-- Every root holds the weight of its tree. -/
def Weighted (w : ℕ → ℕ) (heap : Cells) (tree : ℕ → Huffman.Tree ℕ) (roots : List ℕ) : Prop :=
  ∀ c ∈ roots, heap c = (tree c).weight w

theorem mem_pointers {c : ℕ} (hc : c < h) : heap c ∈ (range h).map heap :=
  mem_map_of_mem (mem_range.mpr hc)

/-- Removing the top keeps the order of the rest. -/
theorem removeTop_ordered (hptr : ∀ c ∈ (range (h + 1)).map heap, h + 1 ≤ c)
    (hsmall : 2 ≤ h → ∀ c ∈ (range (h + 1)).map heap, heap c < 2 ^ 31)
    (ho : BinaryHeap.Ordered (nodeWeight heap) (h + 1) 1) : BinaryHeap.Ordered (nodeWeight (removeTop heap (h + 1))) h 1 := by
  by_cases hh : h ≤ 1
  · intro i h2 hi
    omega
  have hlt := hsmall (by omega)
  obtain ⟨habove, hperm⟩ := removeTop_spec heap h
  have hmem : ∀ c < h, removeTop heap (h + 1) c ∈ (range (h + 1)).map heap := fun c hc =>
    hperm.subset (mem_cons_of_mem _ (mem_pointers hc))
  apply ordered_of_signed
  · have hput : ∀ c < h, h + 1 ≤ (heap.put 0 (heap h)) c := by
      intro c hc
      by_cases h0 : c = 0
      · rw [h0, Cells.put_self]
        exact hptr _ (mem_pointers (by omega))
      · rw [Cells.put_ne h0]
        exact hptr _ (mem_pointers (by omega))
    have hkey : ∀ i, 2 ≤ i → i ≤ h → signedWeight (heap.put 0 (heap h)) i = signed32 (nodeWeight heap i) := by
      intro i h2 hi
      have hge := hptr (heap (i - 1)) (mem_pointers (by omega))
      unfold signedWeight nodeWeight
      rw [Cells.put_ne (show i - 1 ≠ 0 by omega), Cells.put_ne (by omega)]
    have hsign : ∀ i, 1 ≤ i → i ≤ h → nodeWeight heap i < 2 ^ 31 := fun i h1 hi => hlt _ (mem_pointers (by omega))
    apply sift_ordered (fun c hc => (Nat.le_succ h).trans (hput c hc)) le_rfl le_rfl
    refine ⟨fun i h2 hi hlo hne => ?_, fun i hi hc h1 => by omega⟩
    rw [hkey i h2 hi, hkey (i / 2) (by omega) (by omega), signed32_le (hsign _ hlo (by omega)) (hsign i (by omega) hi)]
    exact ho i h2 (by omega) hlo
  · intro i h1 hi
    have hptri := hmem (i - 1) (by omega)
    have hge := hptr _ hptri
    unfold nodeWeight
    rw [habove _ (by omega)]
    exact hlt _ hptri

/-- The top of the heap is the lightest root. -/
theorem top_le (ho : BinaryHeap.Ordered (nodeWeight heap) h 1) {c : ℕ} (hc : c ∈ (range h).map heap) : heap (heap 0) ≤ heap c := by
  obtain ⟨a, ha, rfl⟩ := mem_map.mp hc
  have hlt := mem_range.mp ha
  exact root_le ho (show 1 ≤ a + 1 by omega) (by omega)

/-- What phase 2 keeps: the weights of the roots, the order of the heap, and weights that `sift`
compares correctly as long as there is something to compare. -/
structure HuffmanHeap (w : ℕ → ℕ) (size h : ℕ) (heap : Cells) (tree : ℕ → Huffman.Tree ℕ) : Prop where
  forest : HeapForest size h heap tree
  weighted : Weighted w heap tree ((range h).map heap)
  ordered : BinaryHeap.Ordered (nodeWeight heap) h 1
  small : 3 ≤ h → ∀ c ∈ (range h).map heap, heap c < 2 ^ 31

theorem sum_weights (hf : HeapForest size h heap tree) :
    (((range h).map heap).map fun c => (tree c).weight w).sum = ∑ i ∈ Finset.range size, w i := by
  have hleaves : ∀ t : Huffman.Tree ℕ, t.weight w = (t.leaves.map w).sum := by
    intro t
    rw [Huffman.Tree.weight_eq, ← Huffman.Tree.depths_fst, map_map]
    rfl
  have hsum := (hf.leaves.map w).sum_eq
  rw [map_flatMap, flatMap_def, sum_flatten, map_map] at hsum
  simp only [hleaves]
  exact hsum

/-- The two pointers that a round removes, and what is left. -/
structure Removed (heap : Cells) (h : ℕ) (p0 p1 : ℕ) (rest : List ℕ) : Prop where
  perm : (p0 :: p1 :: rest).Perm ((range (h + 2)).map heap)
  fst_le : heap p0 ≤ heap p1
  snd_le : ∀ c ∈ rest, heap p1 ≤ heap c

theorem HuffmanHeap.removeTop_ordered (hh : HuffmanHeap w size (h + 2) heap tree) :
    BinaryHeap.Ordered (nodeWeight (removeTop heap (h + 2))) (h + 1) 1 :=
  CWB.removeTop_ordered hh.forest.pointer_ge (fun h2 => hh.small (by omega)) hh.ordered

theorem HuffmanHeap.removeTwo_ordered (hh : HuffmanHeap w size (h + 2) heap tree) :
    BinaryHeap.Ordered (nodeWeight (removeTop (removeTop heap (h + 2)) (h + 1))) h 1 := by
  obtain ⟨habove, hperm⟩ := removeTop_spec heap (h + 1)
  have hmem : ∀ c ∈ (range (h + 1)).map (removeTop heap (h + 2)), c ∈ (range (h + 2)).map heap :=
    fun c hc => hperm.subset (mem_cons_of_mem _ hc)
  have hge := hh.forest.pointer_ge
  apply CWB.removeTop_ordered _ _ hh.removeTop_ordered
  · intro c hc
    have := hge c (hmem c hc)
    omega
  · intro h2 c hc
    rw [habove c (by have := hge c (hmem c hc); omega)]
    exact hh.small (by omega) c (hmem c hc)

theorem HuffmanHeap.removed (hh : HuffmanHeap w size (h + 2) heap tree) :
    Removed heap h (heap 0) (removeTop heap (h + 2) 0) ((range h).map (removeTop (removeTop heap (h + 2)) (h + 1))) := by
  have hperm := removed_perm heap h
  obtain ⟨habove, hperm1⟩ := removeTop_spec heap (h + 1)
  have hge := hh.forest.pointer_ge
  have h1 : removeTop heap (h + 2) 0 ∈ (range (h + 2)).map heap :=
    hperm.subset (mem_cons_of_mem _ mem_cons_self)
  refine ⟨hperm, top_le hh.ordered h1, fun c hc => ?_⟩
  have hcin : c ∈ (range (h + 1)).map (removeTop heap (h + 2)) :=
    (removeTop_spec (removeTop heap (h + 2)) h).2.subset (mem_cons_of_mem _ hc)
  have hcge := hge c (hperm.subset (mem_cons_of_mem _ (mem_cons_of_mem _ hc)))
  have hge1 := hge _ h1
  have hle := top_le hh.removeTop_ordered hcin
  rwa [habove _ (by omega), habove c (by omega)] at hle

/-- Before the new item is swapped up the heap is in order but for it. -/
theorem HuffmanHeap.joined_upOrder (hh : HuffmanHeap w size (h + 2) heap tree) :
    UpOrder (nodeWeight (joined heap h)) (h + 1) (h + 1) := by
  have hge := hh.forest.pointer_ge
  have hround := joined_round hge
  refine ⟨fun i h2 hi hne => ?_, fun i hi hc h1 => by omega⟩
  have hkey : ∀ c < h, joined heap h (joined heap h c) =
      removeTop (removeTop heap (h + 2)) (h + 1) (removeTop (removeTop heap (h + 2)) (h + 1) c) := by
    intro c hc
    have h0 := hge _ hround.fst_mem
    have h1 := hge _ hround.snd_mem
    have hrest : removeTop (removeTop heap (h + 2)) (h + 1) c ∈
        (range h).map (removeTop (removeTop heap (h + 2)) (h + 1)) := mem_pointers hc
    have hrge := hge _ (hround.rest_mem hrest)
    have hptr : joined heap h c = removeTop (removeTop heap (h + 2)) (h + 1) c := by
      simp only [joined, joinTwo]
      rw [Cells.put_ne (by omega), Cells.put_ne (by omega), Cells.put_ne (by omega), Cells.put_ne (by omega)]
    obtain ⟨hne0, hne1⟩ := hround.rest_ne hh.forest.nodup hrest
    rw [hptr, hround.others _ hrge hne0 hne1]
    exact (removed_above (by omega)).symm
  have ho := hh.removeTwo_ordered i h2 (by omega) (by omega)
  unfold nodeWeight at ho ⊢
  rwa [hkey (i / 2 - 1) (by omega), hkey (i - 1) (by omega)]

theorem HuffmanHeap.mergeRound_ordered (hh : HuffmanHeap w size (h + 2) heap tree) :
    BinaryHeap.Ordered (nodeWeight (mergeRound heap (h + 2))) (h + 1) 1 := by
  rw [mergeRound_eq]
  apply swapUp_ordered _ le_rfl (by omega) (by omega) hh.joined_upOrder
  intro c hc
  have hround := joined_round hh.forest.pointer_ge
  have hmem : joined heap h c ∈ (h + 1) :: (range h).map (removeTop (removeTop heap (h + 2)) (h + 1)) :=
    hround.after.mem_iff.mpr (mem_pointers hc)
  rcases mem_cons.mp hmem with heq | hrest
  · exact heq.ge
  · have := hh.forest.pointer_ge _ (hround.rest_mem hrest)
    omega

/-- The weights after a round. -/
theorem HuffmanHeap.round_weighted (hh : HuffmanHeap w size (h + 2) heap tree) (htotal : ∑ i ∈ Finset.range size, w i < 2 ^ 32) :
    Weighted w (mergeRound heap (h + 2)) (joinTree heap h tree) ((range (h + 1)).map (mergeRound heap (h + 2))) := by
  have hge := hh.forest.pointer_ge
  have hround := mergeRound_round hge
  have h0 := hround.fst_mem
  have h1 := hround.snd_mem
  intro c hc
  rcases mem_cons.mp (hround.after.mem_iff.mpr hc) with rfl | hrest
  · have hsum := (hround.before.map fun c => (tree c).weight w).sum_eq
    rw [sum_weights hh.forest, map_cons, map_cons, sum_cons, sum_cons] at hsum
    rw [hround.sum_eq, hh.weighted _ h0, hh.weighted _ h1, joinTree, update_self, Huffman.Tree.weight,
      Nat.mod_eq_of_lt (by omega)]
  · have hcin := hround.rest_mem hrest
    have hcge := hge c hcin
    obtain ⟨hne0, hne1⟩ := hround.rest_ne hh.forest.nodup hrest
    rw [hround.others c hcge hne0 hne1, joinTree, update_of_ne (by omega)]
    exact hh.weighted c hcin

/-- A weight from `2 ^ 31` on can only appear when no more than two roots are left: the new item is
no heavier than any two others together. -/
theorem HuffmanHeap.round_small (hh : HuffmanHeap w size (h + 2) heap tree) (htotal : ∑ i ∈ Finset.range size, w i < 2 ^ 32)
    (h2 : 2 ≤ h) : ∀ c ∈ (range (h + 1)).map (mergeRound heap (h + 2)), mergeRound heap (h + 2) c < 2 ^ 31 := by
  have hge := hh.forest.pointer_ge
  have hround := mergeRound_round hge
  have hremoved := hh.removed
  have h0 := hround.fst_mem
  have h1 := hround.snd_mem
  intro c hc
  rcases mem_cons.mp (hround.after.mem_iff.mpr hc) with rfl | hrest
  · have hsum := (hround.before.map fun c => (tree c).weight w).sum_eq
    rw [sum_weights hh.forest, map_cons, map_cons, sum_cons, sum_cons, ← hh.weighted _ h0,
      ← hh.weighted _ h1] at hsum
    have htwo : 2 * heap (removeTop heap (h + 2) 0) ≤
        (((range h).map (removeTop (removeTop heap (h + 2)) (h + 1))).map fun c => (tree c).weight w).sum := by
      have hcard := card_nsmul_le_sum
        (((range h).map (removeTop (removeTop heap (h + 2)) (h + 1))).map fun c => (tree c).weight w)
        (heap (removeTop heap (h + 2) 0)) (by
          intro x hx
          obtain ⟨c, hc, rfl⟩ := mem_map.mp hx
          rw [← hh.weighted c (hround.rest_mem hc)]
          exact hremoved.snd_le c hc)
      rw [length_map, length_map, length_range, smul_eq_mul] at hcard
      exact (Nat.mul_le_mul_right _ h2).trans hcard
    have hfst := hremoved.fst_le
    rw [hround.sum_eq, Nat.mod_eq_of_lt (by omega)]
    omega
  · have hcin := hround.rest_mem hrest
    obtain ⟨hne0, hne1⟩ := hround.rest_ne hh.forest.nodup hrest
    rw [hround.others c (hge c hcin) hne0 hne1]
    exact hh.small (by omega) c hcin

theorem HuffmanHeap.round (hh : HuffmanHeap w size (h + 2) heap tree) (hsize : h + 1 < size)
    (htotal : ∑ i ∈ Finset.range size, w i < 2 ^ 32) :
    HuffmanHeap w size (h + 1) (mergeRound heap (h + 2)) (joinTree heap h tree) :=
  ⟨hh.forest.round hsize, hh.round_weighted htotal, hh.mergeRound_ordered, fun h3 => hh.round_small htotal (by omega)⟩

/-- The trees of the heap. -/
def forestOf (h : ℕ) (heap : Cells) (tree : ℕ → Huffman.Tree ℕ) : Multiset (Huffman.Tree ℕ) :=
  Multiset.ofList (((range h).map heap).map tree)

/-- A round merges the two lightest trees. -/
theorem HuffmanHeap.round_merges (hh : HuffmanHeap w size (h + 2) heap tree) :
    Huffman.Merges w (forestOf (h + 2) heap tree) (forestOf (h + 1) (mergeRound heap (h + 2)) (joinTree heap h tree)) := by
  have hge := hh.forest.pointer_ge
  have hround := mergeRound_round hge
  have hremoved := hh.removed
  have h0 := hround.fst_mem
  have h1 := hround.snd_mem
  have hrest : ((range h).map (removeTop (removeTop heap (h + 2)) (h + 1))).map (joinTree heap h tree) =
      ((range h).map (removeTop (removeTop heap (h + 2)) (h + 1))).map tree := by
    apply map_congr_left
    intro c hc
    have := hge c (hround.rest_mem hc)
    exact update_of_ne (by omega) _ _
  have hbefore : forestOf (h + 2) heap tree = tree (heap 0) ::ₘ tree (removeTop heap (h + 2) 0) ::ₘ
      Multiset.ofList (((range h).map (removeTop (removeTop heap (h + 2)) (h + 1))).map tree) :=
    Multiset.coe_eq_coe.mpr (hround.before.map tree).symm
  have hafter : forestOf (h + 1) (mergeRound heap (h + 2)) (joinTree heap h tree) =
      .node (tree (heap 0)) (tree (removeTop heap (h + 2) 0)) ::ₘ
        Multiset.ofList (((range h).map (removeTop (removeTop heap (h + 2)) (h + 1))).map tree) := by
    have hperm := hround.after.map (joinTree heap h tree)
    rw [map_cons, hrest, joinTree, update_self] at hperm
    exact Multiset.coe_eq_coe.mpr hperm.symm
  rw [hbefore, hafter]
  constructor
  · rw [← hh.weighted _ h0, ← hh.weighted _ h1]
    exact hremoved.fst_le
  · intro u hu
    obtain ⟨c, hc, rfl⟩ := mem_map.mp (Multiset.mem_coe.mp hu)
    rw [← hh.weighted _ h1, ← hh.weighted c (hround.rest_mem hc)]
    exact hremoved.snd_le c hc

end Rounds

section Optimal

variable {size : ℕ} {freq : ℕ → ℕ}

/-- The heap when phase 2 begins. -/
def initialHeap (size : ℕ) (freq : ℕ → ℕ) : Cells := phase1 size (size / 2) (initHeap size freq)

theorem initialHeap_huffman (hfreq : ∀ i < size, freq i + 1 < 2 ^ 31) :
    HuffmanHeap (fun i => freq i + 1) size size (initialHeap size freq) fun c => .leaf (c - size) := by
  have hsame := phase1_same size (size / 2) (initHeap size freq)
  have hf : HeapForest size size (initialHeap size freq) fun c => .leaf (c - size) := (initHeap_forest size freq).same hsame
  have hcell : ∀ c ∈ (range size).map (initialHeap size freq),
      initialHeap size freq c = freq (c - size) + 1 ∧ c - size < size := by
    intro c hc
    obtain ⟨hge, hlt⟩ := hf.root_mem c hc
    refine ⟨(hsame.above c hge).trans ?_, by omega⟩
    change (if c < size then size + c else if c < 2 * size then freq (c - size) + 1 else 0) = _
    rw [if_neg (by omega), if_pos hlt]
  have hsmall : ∀ c ∈ (range size).map (initialHeap size freq), initialHeap size freq c < 2 ^ 31 := by
    intro c hc
    rw [(hcell c hc).1]
    exact hfreq _ (hcell c hc).2
  refine ⟨hf, fun c hc => (hcell c hc).1, ?_, fun _ => hsmall⟩
  apply ordered_of_signed
  · apply phase1_ordered
    · intro c hc
      rw [initHeap_pointer hc]
      exact Nat.le_add_right size c
    · intro i h2 hi hlo
      omega
  · intro i h1 hi
    exact hsmall _ (mem_pointers (by omega))

theorem rounds_huffman (hfreq : ∀ i < size, freq i + 1 < 2 ^ 31) (htotal : ∑ i ∈ Finset.range size, (freq i + 1) < 2 ^ 32)
    {k : ℕ} (hk : k < size) :
    HuffmanHeap (fun i => freq i + 1) size (size - k) (rounds size (initialHeap size freq) k)
        (treesAfter size (initialHeap size freq) (fun c => .leaf (c - size)) k) ∧
      Relation.ReflTransGen (Huffman.Merges fun i => freq i + 1)
        (forestOf size (initialHeap size freq) fun c => .leaf (c - size))
        (forestOf (size - k) (rounds size (initialHeap size freq) k)
          (treesAfter size (initialHeap size freq) (fun c => .leaf (c - size)) k)) := by
  induction k with
  | zero => exact ⟨initialHeap_huffman hfreq, .refl⟩
  | succ k ih =>
    obtain ⟨hh, hmerges⟩ := ih (by omega)
    obtain ⟨h, hsize⟩ : ∃ h, size - k = h + 2 := ⟨size - k - 2, by omega⟩
    rw [rounds, treesAfter, show size - (k + 1) = h + 1 by omega, hsize, Nat.add_sub_cancel]
    rw [hsize] at hh hmerges
    exact ⟨hh.round (by omega) htotal, hmerges.tail hh.round_merges⟩

/-- The leaves that a heap of `n` nodes points to still hold their frequencies. -/
def LeavesIntact (size : ℕ) (freq : ℕ → ℕ) (n : ℕ) (heap : Cells) : Prop :=
  ∀ c < n, ∀ i < size, heap c = size + i → heap (size + i) = freq i + 1

/-- One round of phase 2: the heap order after each sift, the frequencies of the leaves that are
still to be read, and the parent pointers that are written. -/
structure RoundSound (size : ℕ) (freq : ℕ → ℕ) (h : ℕ) (heap : Cells) : Prop where
  first_sift : BinaryHeap.Ordered (nodeWeight (removeTop heap (h + 2))) (h + 1) 1
  second_sift : BinaryHeap.Ordered (nodeWeight (removeTop (removeTop heap (h + 2)) (h + 1))) h 1
  swapped_up : BinaryHeap.Ordered (nodeWeight (mergeRound heap (h + 2))) (h + 1) 1
  leaves : LeavesIntact size freq (h + 2) heap
  first_leaves : LeavesIntact size freq (h + 1) (removeTop heap (h + 2))
  second_leaves : LeavesIntact size freq h (removeTop (removeTop heap (h + 2)) (h + 1))
  merged_leaves : LeavesIntact size freq (h + 1) (mergeRound heap (h + 2))
  removed : ∀ i < size, heap 0 = size + i ∨ removeTop heap (h + 2) 0 = size + i →
    removeTop (removeTop heap (h + 2)) (h + 1) (size + i) = freq i + 1
  fst_parent : mergeRound heap (h + 2) (heap 0) = h + 1 ∧ h + 1 < heap 0
  snd_parent : mergeRound heap (h + 2) (removeTop heap (h + 2) 0) = h + 1 ∧ h + 1 < removeTop heap (h + 2) 0

theorem HuffmanHeap.sound {h : ℕ} {heap : Cells} {tree : ℕ → Huffman.Tree ℕ}
    (hh : HuffmanHeap (fun i => freq i + 1) size (h + 2) heap tree) (hsize : h + 1 < size) : RoundSound size freq h heap := by
  have hge := hh.forest.pointer_ge
  have hround := mergeRound_round hge
  have h0 := hge _ hround.fst_mem
  have h1 := hge _ hround.snd_mem
  obtain ⟨habove, hperm⟩ := removeTop_spec heap (h + 1)
  have hleaf : ∀ c ∈ (range (h + 2)).map heap, ∀ i < size, c = size + i → heap (size + i) = freq i + 1 := by
    intro c hc i hi heq
    subst heq
    rw [hh.weighted _ hc, hh.forest.leaf i hi]
    rfl
  refine ⟨hh.removeTop_ordered, hh.removeTwo_ordered, hh.mergeRound_ordered, ?_, ?_, ?_, ?_, ?_, ?_, ?_⟩
  · intro c hc
    exact hleaf _ (mem_pointers hc)
  · intro c hc i hi heq
    have hmem : removeTop heap (h + 2) c ∈ (range (h + 2)).map heap :=
      hperm.subset (mem_cons_of_mem _ (mem_pointers hc))
    have := hge _ hmem
    rw [habove _ (by omega)]
    exact hleaf _ hmem i hi heq
  · intro c hc i hi heq
    have hmem := hround.rest_mem (mem_pointers hc)
    have := hge _ hmem
    rw [removed_above (by omega)]
    exact hleaf _ hmem i hi heq
  · intro c hc i hi heq
    rcases mem_cons.mp (hround.after.mem_iff.mpr (mem_pointers hc)) with hnew | hrest
    · omega
    · have hmem := hround.rest_mem hrest
      have hne := hround.rest_ne hh.forest.nodup hrest
      have hcge := hge _ hmem
      rw [heq] at hmem hne hcge
      rw [hround.others _ hcge hne.1 hne.2]
      exact hleaf _ hmem i hi rfl
  · intro i hi heq
    rw [removed_above (by omega)]
    rcases heq with heq | heq
    · exact hleaf _ hround.fst_mem i hi heq
    · exact hleaf _ hround.snd_mem i hi heq
  · exact ⟨hround.fst_eq, h0⟩
  · exact ⟨hround.snd_eq, h1⟩

theorem codelength_eq (hsize : 2 ≤ size) {i : ℕ} (hi : i < size) :
    codelength size (depthCells size freq) i = depthCells size freq (i + size) := by
  unfold codelength
  rw [if_neg]
  intro hzero
  have hkraft := kraft_depthCells (show 1 ≤ size by omega) freq
  obtain ⟨j, hj, hne⟩ : ∃ j < size, j ≠ i := by
    by_cases h0 : i = 0
    · exact ⟨1, by omega, by omega⟩
    · exact ⟨0, by omega, by omega⟩
  have hterm := Finset.add_le_sum (f := fun i => (1 / 2 : ℚ) ^ depthCells size freq (i + size)) (s := Finset.range size)
    (fun _ _ => by positivity) (Finset.mem_range.mpr hi) (Finset.mem_range.mpr hj) (Ne.symm hne)
  have hpos : (0 : ℚ) < (1 / 2 : ℚ) ^ depthCells size freq (j + size) := by positivity
  simp only [hzero, pow_zero] at hterm
  linarith

/-- Phase 2 merges the leaves to the tree. -/
theorem finalTree_merges (hsize : 1 ≤ size) (hfreq : ∀ i < size, freq i + 1 < 2 ^ 31)
    (htotal : ∑ i ∈ Finset.range size, (freq i + 1) < 2 ^ 32) :
    Relation.ReflTransGen (Huffman.Merges fun i => freq i + 1)
      (Multiset.ofList ((range size).map Huffman.Tree.leaf)) {finalTree size freq} := by
  obtain ⟨hh, hmerges⟩ := rounds_huffman hfreq htotal (show size - 1 < size by omega)
  have hlast : forestOf (size - (size - 1)) (rounds size (initialHeap size freq) (size - 1))
      (treesAfter size (initialHeap size freq) (fun c => .leaf (c - size)) (size - 1)) = {finalTree size freq} := by
    have hf := hh.forest
    rw [show size - (size - 1) = 1 by omega] at hf ⊢
    have hroot := Forest.last_root hf (by omega)
    unfold forestOf
    rw [range_one, map_singleton, map_singleton, hroot]
    rfl
  rw [hlast] at hmerges
  have hleaves : forestOf size (initialHeap size freq) (fun c => .leaf (c - size)) =
      Multiset.ofList ((range size).map Huffman.Tree.leaf) := by
    have hperm := (phase1_same size (size / 2) (initHeap size freq)).perm.map fun c => Huffman.Tree.leaf (c - size)
    refine (Multiset.coe_eq_coe.mpr hperm).trans (congrArg _ ?_)
    rw [map_map]
    apply map_congr_left
    intro c hc
    rw [comp_apply, initHeap_pointer (mem_range.mp hc), Nat.add_sub_cancel_left]
  rwa [hleaves] at hmerges

/-- No prefix code has a smaller sum of weighted lengths than the tree. -/
theorem finalTree_cost_le (hsize : 2 ≤ size) (hfreq : ∀ i < size, freq i + 1 < 2 ^ 31)
    (htotal : ∑ i ∈ Finset.range size, (freq i + 1) < 2 ^ 32) {code : ℕ → List Bool} (hcode : Huffman.PrefixCode size code) :
    (finalTree size freq).cost (fun i => freq i + 1) ≤ ∑ i ∈ Finset.range size, (freq i + 1) * (code i).length := by
  have hmerges := finalTree_merges (show 1 ≤ size by omega) hfreq htotal
  have hle := Huffman.cost_le_of_merges (fun i => freq i + 1) hmerges
    (S := Multiset.ofList ((range size).map fun i => (freq i + 1, (code i).length)))
    (by simp [comp_def, Huffman.Tree.weight]) (by
      simp only [Huffman.kraft, Multiset.map_coe, Multiset.sum_coe, map_map]
      exact hcode.kraft_le hsize)
  have hzero : ((Multiset.ofList ((range size).map (Huffman.Tree.leaf (α := ℕ)))).map
      (Huffman.Tree.cost fun i => freq i + 1)).sum = 0 := by
    simp [comp_def, Huffman.Tree.cost]
  rw [hzero, Nat.zero_add] at hle
  refine hle.trans_eq ?_
  simp [Huffman.total, comp_def]
  rfl

/-- The codes of the lengths that the three phases compute satisfy Kraft's equality and are optimal;
phase 2 keeps the heap order, and phase 3 finds the depths of the parents in their cells. -/
theorem depthCells_optimal (hsize : 2 ≤ size) (hfreq : ∀ i < size, freq i + 1 < 2 ^ 31)
    (htotal : ∑ i ∈ Finset.range size, (freq i + 1) < 2 ^ 32) :
    ∑ i ∈ Finset.range size, (1 / 2 : ℚ) ^ codelength size (depthCells size freq) i = 1 ∧
    (∀ code, Huffman.PrefixCode size code →
      ∑ i ∈ Finset.range size, (freq i + 1) * codelength size (depthCells size freq) i ≤
        ∑ i ∈ Finset.range size, (freq i + 1) * (code i).length) ∧
    BinaryHeap.Ordered (nodeWeight (initialHeap size freq)) size 1 ∧
    (∀ k h, k + (h + 2) = size → RoundSound size freq h (rounds size (initialHeap size freq) k)) ∧
    phase2 size (initialHeap size freq) = rounds size (initialHeap size freq) (size - 1) ∧
    ∀ c, 2 ≤ c → c < 2 * size →
      1 ≤ phase2 size (initialHeap size freq) c ∧ phase2 size (initialHeap size freq) c < c ∧
      depthsUpTo (phase2 size (initialHeap size freq)) (c - 2) c = phase2 size (initialHeap size freq) c ∧
      depthsUpTo (phase2 size (initialHeap size freq)) (c - 2) (phase2 size (initialHeap size freq) c) =
        depthCells size freq (phase2 size (initialHeap size freq) c) := by
  have hlen : ∀ i ∈ Finset.range size, codelength size (depthCells size freq) i = depthCells size freq (i + size) :=
    fun i hi => codelength_eq hsize (Finset.mem_range.mp hi)
  refine ⟨?_, ?_, (initialHeap_huffman hfreq).ordered, ?_, phase2_eq_rounds _ _, ?_⟩
  · rw [Finset.sum_congr rfl fun i hi => by rw [hlen i hi]]
    exact kraft_depthCells (by omega) freq
  · intro code hcode
    rw [Finset.sum_congr rfl fun i hi => by rw [hlen i hi],
      ← sum_depths (by omega) freq fun i d => (freq i + 1) * d, ← Huffman.Tree.cost_eq fun i => freq i + 1]
    exact finalTree_cost_le hsize hfreq htotal hcode
  · intro k h hk
    have hh := (rounds_huffman hfreq htotal (show k < size by omega)).1
    rw [show size - k = h + 2 by omega] at hh
    exact hh.sound (by omega)
  · intro c h2 hc
    have hforest : Forest size 1 (phase2 size (initialHeap size freq)) _ [1] := phase2_forest (by omega) freq
    obtain ⟨hge, hlt, -⟩ := hforest.parent c (by omega) hc (by simp; omega)
    refine ⟨hge, hlt, depthsUpTo_above _ (by omega), ?_⟩
    exact (depthsUpTo_stable _ (show c - 2 ≤ 2 * size - 2 by omega) (by omega)).symm

theorem depthCells_optimal_three :
    ((range 3).map (codelength 3 (depthCells 3 fun i => i)) = [2, 2, 1]) ∧
      ∑ i ∈ Finset.range 3, (1 / 2 : ℚ) ^ codelength 3 (depthCells 3 fun i => i) i = 1 :=
  ⟨by decide, (depthCells_optimal (by decide) (by decide) (by decide)).1⟩

end Optimal

end CWB

/-! The code lengths of `compute_code_lengths` against the size of its tables. The lengths that it
counts in `lcount` are the depths of the Huffman tree, which nothing bounds before they are used. -/

namespace CWB

section Heights

variable {size : ℕ} {freq : ℕ → ℕ}

/-- The trees by their pointers after `k` rounds of phase 2. -/
def treeAt (size : ℕ) (freq : ℕ → ℕ) (k : ℕ) : ℕ → Huffman.Tree ℕ :=
  treesAfter size (initialHeap size freq) (fun c => .leaf (c - size)) k

/-- The two trees that round `k` of phase 2 takes off the heap. -/
def takenOff (size : ℕ) (freq : ℕ → ℕ) (k : ℕ) : Huffman.Tree ℕ × Huffman.Tree ℕ :=
  let heap := rounds size (initialHeap size freq) k
  (treeAt size freq k (heap 0), treeAt size freq k (removeTop heap (size - k) 0))

theorem treeAt_succ (freq : ℕ → ℕ) {h k : ℕ} (hk : k + (h + 2) = size) :
    treeAt size freq (k + 1) = Function.update (treeAt size freq k) (h + 1)
      (.node (takenOff size freq k).1 (takenOff size freq k).2) := by
  rw [treeAt, treesAfter, joinTree, show size - k - 2 = h by omega, takenOff, show size - k = h + 2 by omega]
  rfl

/-- The pointers on the heap after `k` rounds. -/
def pointersAt (size : ℕ) (freq : ℕ → ℕ) (k : ℕ) : List ℕ := (List.range (size - k)).map (rounds size (initialHeap size freq) k)

theorem round_pointers (freq : ℕ → ℕ) {h k : ℕ} (hk : k + (h + 2) = size) : ∃ p0 p1 rest,
    (p0 :: p1 :: rest).Perm (pointersAt size freq k) ∧ ((h + 1) :: rest).Perm (pointersAt size freq (k + 1)) ∧
    takenOff size freq k = (treeAt size freq k p0, treeAt size freq k p1) ∧ ∀ c ∈ rest, h + 2 ≤ c := by
  have hf : HeapForest size (size - k) (rounds size (initialHeap size freq) k) _ := heapForest_rounds size freq (by omega)
  rw [show size - k = h + 2 by omega] at hf
  have hround := mergeRound_round hf.pointer_ge
  have hnext : rounds size (initialHeap size freq) (k + 1) = mergeRound (rounds size (initialHeap size freq) k) (h + 2) := by
    rw [rounds, show size - k = h + 2 by omega]
  refine ⟨rounds size (initialHeap size freq) k 0, removeTop (rounds size (initialHeap size freq) k) (h + 2) 0, _, ?_, ?_, ?_,
    fun c hc => hf.pointer_ge c (hround.rest_mem hc)⟩
  · rw [pointersAt, show size - k = h + 2 by omega]
    exact hround.before
  · rw [pointersAt, show size - (k + 1) = h + 1 by omega, hnext]
    exact hround.after
  · rw [takenOff, show size - k = h + 2 by omega]

/-- A tree on the heap is not higher than the last tree. -/
theorem height_le_final (freq : ℕ → ℕ) {k c : ℕ} (hk : k < size) (hc : c ∈ pointersAt size freq k) :
    (treeAt size freq k c).height ≤ (finalTree size freq).height := by
  obtain ⟨j, hj⟩ : ∃ j, k + j + 1 = size := ⟨size - k - 1, by omega⟩
  induction j generalizing k c with
  | zero =>
    have hf := heapForest_rounds size freq hk
    rw [show size - k = 1 by omega] at hf
    have hroot := Forest.last_root hf (by omega)
    rw [pointersAt, show size - k = 1 by omega, List.range_one, List.map_singleton, List.mem_singleton] at hc
    rw [hc, finalTree, treeAt, show size - 1 = k by omega]
    exact le_of_eq (congrArg _ (congrArg _ hroot))
  | succ j ih =>
    obtain ⟨p0, p1, rest, hbefore, hafter, htaken, hrest⟩ := round_pointers freq (show k + (j + 2) = size by omega)
    have hnext : ∀ c ∈ (j + 1) :: rest, (treeAt size freq (k + 1) c).height ≤ (finalTree size freq).height :=
      fun c hc => ih (by omega) (hafter.mem_iff.mp hc) (by omega)
    rw [treeAt_succ freq (show k + (j + 2) = size by omega), htaken] at hnext
    have hnew := hnext _ List.mem_cons_self
    rw [Function.update_self, Huffman.Tree.height] at hnew
    dsimp only at hnew
    rcases List.mem_cons.mp (hbefore.mem_iff.mpr hc) with rfl | hc
    · omega
    rcases List.mem_cons.mp hc with rfl | hc
    · omega
    · have hge := hrest c hc
      have hle := hnext c (List.mem_cons_of_mem _ hc)
      rwa [Function.update_of_ne (by omega)] at hle

theorem takenOff_lt_final (freq : ℕ → ℕ) {k : ℕ} (hk : k + 1 < size) : (takenOff size freq k).1.height < (finalTree size freq).height ∧
    (takenOff size freq k).2.height < (finalTree size freq).height := by
  obtain ⟨h, hh⟩ : ∃ h, k + (h + 2) = size := ⟨size - k - 2, by omega⟩
  obtain ⟨p0, p1, rest, -, hafter, -, -⟩ := round_pointers freq hh
  have hle := height_le_final freq hk (hafter.mem_iff.mp List.mem_cons_self)
  rw [treeAt_succ freq hh, Function.update_self, Huffman.Tree.height] at hle
  omega

theorem finalTree_eq (hsize : 2 ≤ size) :
    finalTree size freq = .node (takenOff size freq (size - 2)).1 (takenOff size freq (size - 2)).2 := by
  have htree := treeAt_succ freq (show size - 2 + (0 + 2) = size by omega)
  rw [show size - 2 + 1 = size - 1 by omega] at htree
  rw [finalTree, ← initialHeap, ← treeAt, htree, Function.update_self]

/-- The last tree stays below a height as long as the trees taken off the heap stay below the next
smaller one. -/
theorem finalTree_height_lt_iff (hsize : 2 ≤ size) {n : ℕ} : (finalTree size freq).height < n + 1 ↔
    ∀ k, k + 1 < size → (takenOff size freq k).1.height < n ∧ (takenOff size freq k).2.height < n := by
  refine ⟨fun h k hk => ?_, fun h => ?_⟩
  · have := takenOff_lt_final freq hk
    omega
  · have := h (size - 2) (by omega)
    rw [finalTree_eq hsize, Huffman.Tree.height]
    omega

end Heights

/-! ## The lengths that are counted -/

/-- The lengths in the loop over `lcount`. -/
def countedLengths (freqs : List ℕ) : List ℕ :=
  (List.range freqs.length).map (codelength freqs.length (depthCells freqs.length fun i => freqs.getD i 0))

section Lengths

variable {freqs : List ℕ}

/-- The lengths are the depths of the tree; a single type has a code of one bit. -/
theorem countedLengths_lt_iff (hsize : 2 ≤ freqs.length) (n : ℕ) : (∀ cl ∈ countedLengths freqs, cl < n) ↔
    (finalTree freqs.length fun i => freqs.getD i 0).height < n := by
  have hleaves := finalTree_leaves (show 1 ≤ freqs.length by omega) fun i => freqs.getD i 0
  have hmem : ∀ i, i ∈ (finalTree freqs.length fun i => freqs.getD i 0).leaves ↔ i < freqs.length := fun i => by
    rw [hleaves.mem_iff, List.mem_range]
  have hlen : ∀ p ∈ (finalTree freqs.length fun i => freqs.getD i 0).depths, p.1 < freqs.length ∧
      codelength freqs.length (depthCells freqs.length fun i => freqs.getD i 0) p.1 = p.2 := fun p hp => by
    have hp1 : p.1 < freqs.length := by
      rw [← hmem, ← Huffman.Tree.depths_fst]
      exact List.mem_map_of_mem hp
    exact ⟨hp1, by rw [codelength_eq hsize hp1, depthCells_eq (by omega) _ hp]⟩
  refine ⟨fun h => ?_, fun h cl hcl => ?_⟩
  · obtain ⟨p, hp, heq⟩ := (finalTree freqs.length fun i => freqs.getD i 0).exists_deepest
    obtain ⟨hp1, hp2⟩ := hlen p hp
    rw [← heq, ← hp2]
    exact h _ (List.mem_map_of_mem (List.mem_range.mpr hp1))
  · obtain ⟨i, hi, rfl⟩ := List.mem_map.mp hcl
    rw [List.mem_range, ← hmem, ← Huffman.Tree.depths_fst] at hi
    obtain ⟨p, hp, rfl⟩ := List.mem_map.mp hi
    rw [(hlen p hp).2]
    exact (Huffman.Tree.depth_le_height _ p hp).trans_lt h

theorem sum_adjusted (freqs : List ℕ) :
    ∑ i ∈ Finset.range freqs.length, (freqs.getD i 0 + 1) = (freqs.map fun f => f + 1).sum := by
  have hmap : (List.range freqs.length).map (fun i => freqs.getD i 0 + 1) = freqs.map fun f => f + 1 := by
    apply List.ext_getElem
    · simp
    · intro i hi hi'
      rw [List.length_map] at hi'
      simp [List.getElem?_eq_getElem hi']
  rw [← hmap]
  rfl

/-- The adjusted frequencies of a lexicon for less than 2 G tokens stay below the limits of the heap. -/
theorem adjusted_lt (hsize : 2 ≤ freqs.length) (hpos : ∀ f ∈ freqs, 0 < f) (hsum : freqs.sum ≤ 2 ^ 31 - 1) :
    (∀ i < freqs.length, freqs.getD i 0 + 1 < 2 ^ 31) ∧ ∑ i ∈ Finset.range freqs.length, (freqs.getD i 0 + 1) < 2 ^ 32 := by
  refine ⟨fun i hi => ?_, ?_⟩
  · rw [List.getD_eq_getElem _ _ hi]
    have hmem := List.getElem_mem hi
    have hsplit := (List.perm_cons_erase hmem).sum_eq
    have hother := List.length_le_sum_of_one_le (freqs.erase freqs[i]) fun f hf => hpos f (List.mem_of_mem_erase hf)
    rw [List.length_erase_of_mem hmem] at hother
    rw [List.sum_cons] at hsplit
    omega
  · have hall := List.length_le_sum_of_one_le freqs hpos
    rw [sum_adjusted, List.sum_map_add, List.map_id', List.map_const', List.sum_replicate, smul_eq_mul]
    omega

theorem finalTree_weight {size : ℕ} (hsize : 1 ≤ size) (freq w : ℕ → ℕ) :
    (finalTree size freq).weight w = ∑ i ∈ Finset.range size, w i := by
  rw [Huffman.Tree.weight_eq]
  exact sum_depths hsize freq fun i _ => w i

/-- With fewer than 2 F(34) adjusted tokens no code is too long. -/
theorem height_lt_of_sum (hsize : 2 ≤ freqs.length) (hpos : ∀ f ∈ freqs, 0 < f) (hsum : freqs.sum ≤ 2 ^ 31 - 1)
    (hfew : (freqs.map fun f => f + 1).sum < 2 * Nat.fib 34) :
    (finalTree freqs.length fun i => freqs.getD i 0).height < MAXCODELEN := by
  obtain ⟨hfreq, htotal⟩ := adjusted_lt hsize hpos hsum
  have hmerges := finalTree_merges (show 1 ≤ freqs.length by omega) hfreq htotal
  have htwo : ∀ i ∈ Multiset.ofList (List.range freqs.length), 2 ≤ freqs.getD i 0 + 1 := fun i hi => by
    have hi := List.mem_range.mp (Multiset.mem_coe.mp hi)
    have := hpos _ (List.getElem_mem hi)
    rw [List.getD_eq_getElem _ _ hi]
    omega
  have hheavy := Huffman.fib_height_le _ hmerges htwo
  rw [finalTree_weight (by omega), sum_adjusted] at hheavy
  by_contra hge
  have hmono : Nat.fib 34 ≤ Nat.fib ((finalTree freqs.length fun i => freqs.getD i 0).height + 2) := Nat.fib_mono (by
    rw [MAXCODELEN] at hge
    omega)
  omega

/-- A single type has a code of one bit. -/
theorem countedLengths_single (h : freqs.length = 1) : countedLengths freqs = [1] := by
  rw [countedLengths, h]
  simp [codelength, depthCells, phase3]

def fibFreqs (n : ℕ) : List ℕ := (List.range n).map fun i => Nat.fib (i + 3) - 1

theorem fibFreqs_weight {n i : ℕ} (hi : i < n) : (fibFreqs n).getD i 0 + 1 = Nat.fib (i + 3) := by
  have hpos : 0 < Nat.fib (i + 3) := Nat.fib_pos.mpr (by omega)
  have hget : (fibFreqs n).getD i 0 = Nat.fib (i + 3) - 1 := by simp [fibFreqs, hi]
  omega

theorem fib_chained {w : ℕ → ℕ} {k n total : ℕ} (htotal : total + 3 = Nat.fib (k + 4)) (hw : ∀ i ∈ List.range' k n, w i = Nat.fib (i + 3)) :
    Huffman.Chained w total (List.range' k n) := by
  induction n generalizing k total with
  | zero => trivial
  | succ n ih =>
    rw [List.range'_succ] at hw ⊢
    have hk := hw k List.mem_cons_self
    have hnext : Nat.fib (k + 3) < Nat.fib (k + 4) := Nat.fib_lt_fib_succ (by omega)
    refine ⟨fun i hi => ?_, ih ?_ fun i hi => hw i (List.mem_cons_of_mem _ hi)⟩
    · have hmono : Nat.fib (k + 4) ≤ Nat.fib (i + 3) := Nat.fib_mono (by
        have := List.mem_range'_1.mp hi
        omega)
      rw [hk, hw i (List.mem_cons_of_mem _ hi)]
      omega
    · have hfib : Nat.fib (k + 5) = Nat.fib (k + 3) + Nat.fib (k + 4) := Nat.fib_add_two
      rw [hk, show k + 1 + 4 = k + 5 by omega, hfib]
      omega

theorem fibFreqs_height {n : ℕ} (hfreq : ∀ i < n + 1, (fibFreqs (n + 1)).getD i 0 + 1 < 2 ^ 31)
    (htotal : ∑ i ∈ Finset.range (n + 1), ((fibFreqs (n + 1)).getD i 0 + 1) < 2 ^ 32) :
    (finalTree (n + 1) fun i => (fibFreqs (n + 1)).getD i 0).height = n := by
  have hmerges := finalTree_merges (show 1 ≤ n + 1 by omega) hfreq htotal
  have hfirst : (Huffman.Tree.leaf 0).weight (fun i => (fibFreqs (n + 1)).getD i 0 + 1) = 2 :=
    fibFreqs_weight (show 0 < n + 1 by omega)
  have hchain : Huffman.Chained (fun i => (fibFreqs (n + 1)).getD i 0 + 1)
      ((Huffman.Tree.leaf 0).weight fun i => (fibFreqs (n + 1)).getD i 0 + 1) (List.range' 1 n) := by
    refine fib_chained (by rw [hfirst]; rfl) fun i hi => fibFreqs_weight ?_
    have := List.mem_range'_1.mp hi
    omega
  rw [List.range_eq_range', List.range'_succ, List.map_cons, ← Multiset.cons_coe] at hmerges
  rw [Huffman.height_of_chained _ hchain hmerges, List.length_range', Huffman.Tree.height, Nat.zero_add]

end Lengths

end CWB
