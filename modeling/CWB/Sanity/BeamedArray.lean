import CWB.Spec.BestPath

/-! Reading a beamed array after a write: a cell within the block of its diagonal, or on a
diagonal without a block, takes the value, and nothing else changes. -/

namespace CWB

open List

variable {b : BAR} {x y i : ℤ} {id : ℕ} {lo hi : ℤ}

namespace Diagonal

variable {w : ℕ} {d : Diagonal}

/-- The cell `x` lies in the block, or there is no block yet. -/
def Writable (w : ℕ) (d : Diagonal) (x : ℤ) : Prop :=
  d.blockStartX < 0 ∨ (0 ≤ x - d.blockStartX ∧ x - d.blockStartX < w)

theorem get_put (hd : 0 ≤ d.blockStartX → d.blockData.length = w) (hw : 0 < w) (hx : 0 ≤ x) (h : d.Writable w x) (x' : ℤ) :
    (d.put w x i).get w x' = if x' = x then i else d.get w x' := by
  unfold put
  split_ifs with hfree heq hblock heq heq
  · subst heq
    rw [get]
    simp [hx, hw]
  · rw [get, get]
    simp only [if_neg (show ¬(d.blockStartX ≥ 0 ∧ 0 ≤ x' - d.blockStartX ∧ x' - d.blockStartX < w) by omega)]
    split_ifs with hin
    · obtain ⟨n, hn⟩ : ∃ n : ℕ, (x' - x).toNat = n + 1 := ⟨(x' - x).toNat - 1, by omega⟩
      rw [hn, getD_eq_getElem?_getD, getElem?_set_ne (Nat.succ_ne_zero n).symm, getElem?_replicate]
      split_ifs
      · rfl
      · rfl
    · rfl
  · subst heq
    rw [get]
    simp only
    rw [if_pos ⟨by omega, hblock⟩, getD_eq_getElem?_getD, getElem?_set_self (by rw [hd (by omega)]; omega)]
    rfl
  · rw [get, get]
    simp only
    split_ifs with hin
    · rw [getD_eq_getElem?_getD, getElem?_set_ne (by omega), getD_eq_getElem?_getD]
    · rfl
  · exact absurd (h.resolve_left hfree) (by omega)
  · rfl

theorem start_put (d : Diagonal) (w : ℕ) (x i : ℤ) :
    (d.put w x i).blockStartX = if d.blockStartX < 0 then x else d.blockStartX := by
  unfold put
  split_ifs
  · rfl
  · rfl
  · rfl

theorem length_put (hd : 0 ≤ d.blockStartX → d.blockData.length = w) (x i : ℤ) :
    (d.put w x i).blockData.length = w := by
  unfold put
  split_ifs with hfree hblock
  · simp
  · rw [length_set]
    exact hd (by omega)
  · exact hd (by omega)

end Diagonal

namespace BAR

/-- `d_block_start_x`. -/
def start (b : BAR) (k : ℕ) : ℤ := (b.diagonals.getD k {}).blockStartX

/-- The block of diagonal `id` starts between `lo` and `hi`, or is not placed yet, and later
diagonals have no block. -/
structure Fits (b : BAR) (id : ℕ) (lo hi : ℤ) : Prop where
  length : b.diagonals.length = b.xSize + b.ySize
  data : ∀ d ∈ b.diagonals, 0 ≤ d.blockStartX → d.blockData.length = b.beamWidth
  later : ∀ k, id < k → b.start k < 0
  block : b.start id < 0 ∨ (lo ≤ b.start id ∧ b.start id ≤ hi)

theorem Fits.mono (h : b.Fits id lo hi) {hi' : ℤ} (hle : hi ≤ hi') : b.Fits id lo hi' :=
  ⟨h.length, h.data, h.later, h.block.imp_right fun hb => ⟨hb.1, hb.2.trans hle⟩⟩

theorem Fits.next (h : b.Fits id lo hi) (lo' hi' : ℤ) : b.Fits (id + 1) lo' hi' :=
  ⟨h.length, h.data, fun k hk => h.later k (by omega), .inl (h.later _ (Nat.lt_succ_self id))⟩

theorem read_outside (h : ¬b.inMatrix x y) : b.read x y = 0 := if_neg h

/-- A diagonal without a block reads as zero. -/
theorem Fits.read_later (h : b.Fits id lo hi) (hlater : (id : ℤ) < x + y) : b.read x y = 0 := by
  have hs := h.later (x + y).toNat (by omega)
  rw [start] at hs
  unfold read
  split_ifs with hin
  · exact if_neg fun hb => absurd hb.1 (by omega)
  · rfl

@[simp] theorem write_sizes (b : BAR) (x y i : ℤ) : (b.write x y i).xSize = b.xSize ∧ (b.write x y i).ySize = b.ySize ∧
    (b.write x y i).beamWidth = b.beamWidth := by
  unfold write
  split_ifs
  · exact ⟨rfl, rfl, rfl⟩
  · exact ⟨rfl, rfl, rfl⟩

theorem inMatrix_write (b : BAR) (x y i x' y' : ℤ) : (b.write x y i).inMatrix x' y' ↔ b.inMatrix x' y' := by
  obtain ⟨hx, hy, -⟩ := b.write_sizes x y i
  rw [inMatrix, inMatrix, hx, hy]

theorem diagonal_write (hin : b.inMatrix x y) (hlen : b.diagonals.length = b.xSize + b.ySize) (k : ℕ) :
    (b.write x y i).diagonals.getD k {} =
      if k = (x + y).toNat then (b.diagonals.getD k {}).put b.beamWidth x i else b.diagonals.getD k {} := by
  have hcell := hin
  obtain ⟨hx0, hx, hy0, hy⟩ := hcell
  rw [write, if_pos hin]
  simp only [getD_eq_getElem?_getD, getElem?_modify]
  split_ifs with h1 h2 h2
  · subst h1
    rw [getElem?_eq_getElem (show (x + y).toNat < b.diagonals.length by omega)]
    rfl
  · exact absurd h1.symm h2
  · exact absurd h2.symm h1
  · rw [id_map']

theorem start_write (hin : b.inMatrix x y) (hlen : b.diagonals.length = b.xSize + b.ySize) (k : ℕ) :
    (b.write x y i).start k = if k = (x + y).toNat ∧ b.start k < 0 then x else b.start k := by
  rw [start, diagonal_write hin hlen, start]
  by_cases hk : k = (x + y).toNat
  · rw [if_pos hk, Diagonal.start_put]
    simp [hk]
  · rw [if_neg hk, if_neg (fun h => hk h.1)]

/-- A cell of diagonal `id` at or behind `hi`, less than a beam width behind `lo`. -/
structure Ahead (b : BAR) (id : ℕ) (lo hi x y : ℤ) : Prop where
  inMatrix : b.inMatrix x y
  diagonal : x + y = id
  ge : hi ≤ x
  lt : x < lo + b.beamWidth

theorem Fits.getD_data (h : b.Fits id lo hi) (k : ℕ) (hs : 0 ≤ (b.diagonals.getD k {}).blockStartX) :
    (b.diagonals.getD k {}).blockData.length = b.beamWidth := by
  obtain hk | hk := lt_or_ge k b.diagonals.length
  · rw [getD_eq_getElem?_getD, getElem?_eq_getElem hk, Option.getD_some] at hs ⊢
    exact h.data _ (getElem_mem hk) hs
  · rw [getD_eq_getElem?_getD, getElem?_eq_none hk, Option.getD_none] at hs
    exact absurd hs (by decide)

theorem Fits.read_write (h : b.Fits id lo hi) (hc : b.Ahead id lo hi x y) (hlo : lo ≤ hi) (i x' y' : ℤ) :
    (b.write x y i).read x' y' = if x' = x ∧ y' = y then i else b.read x' y' := by
  obtain ⟨hx0, hx, hy0, hy⟩ := hc.inMatrix
  have hdiag := hc.diagonal
  have hge := hc.ge
  have hlt := hc.lt
  by_cases hin : b.inMatrix x' y'
  · have hcell := hin
    obtain ⟨hx0', hx', hy0', hy'⟩ := hcell
    rw [read, if_pos ((inMatrix_write ..).mpr hin), diagonal_write hc.inMatrix h.length, (b.write_sizes x y i).2.2,
      read, if_pos hin]
    by_cases hk : (x' + y').toNat = (x + y).toNat
    · have hwrit : (b.diagonals.getD (x' + y').toNat {}).Writable b.beamWidth x := by
        have hb := h.block
        rw [start, show id = (x' + y').toNat by omega] at hb
        obtain hfree | hb := hb
        · exact .inl hfree
        · exact .inr ⟨by omega, by omega⟩
      rw [if_pos hk, Diagonal.get_put (h.getD_data _) (by omega) hx0 hwrit]
      exact if_congr ⟨fun he => ⟨he, by omega⟩, fun he => he.1⟩ rfl rfl
    · rw [if_neg hk, if_neg fun he => hk (by rw [he.1, he.2])]
  · rw [read_outside (fun hin' => hin ((inMatrix_write ..).mp hin')), read_outside hin, if_neg]
    rintro ⟨rfl, rfl⟩
    exact hin hc.inMatrix

theorem Fits.write (h : b.Fits id lo hi) (hc : b.Ahead id lo hi x y) (hlo : lo ≤ hi) (i : ℤ) :
    (b.write x y i).Fits id lo x := by
  obtain ⟨hx0, hx, hy0, hy⟩ := hc.inMatrix
  have hdiag := hc.diagonal
  have hge := hc.ge
  obtain ⟨hxs, hys, hws⟩ := b.write_sizes x y i
  refine ⟨?_, ?_, ?_, ?_⟩
  · rw [hxs, hys, ← h.length, BAR.write, if_pos hc.inMatrix, length_modify]
  · intro d hd hs
    obtain ⟨k, hk, rfl⟩ := getElem_of_mem hd
    have hget : (b.write x y i).diagonals[k] = (b.write x y i).diagonals.getD k {} := by
      rw [getD_eq_getElem?_getD, getElem?_eq_getElem hk, Option.getD_some]
    rw [hget, hws]
    rw [hget] at hs
    rw [diagonal_write hc.inMatrix h.length] at hs ⊢
    split_ifs at hs ⊢ with heq
    · exact Diagonal.length_put (h.getD_data k) x i
    · exact h.getD_data k hs
  · intro k hk
    rw [start_write hc.inMatrix h.length, if_neg fun hkk => by omega]
    exact h.later k hk
  · right
    rw [start_write hc.inMatrix h.length]
    have hb := h.block
    split_ifs with hfree
    · exact ⟨by omega, le_rfl⟩
    · obtain hneg | hb := hb
      · exact absurd ⟨by omega, hneg⟩ hfree
      · exact ⟨hb.1, hb.2.trans hge⟩

theorem start_barNew (n m w k : ℕ) : (barNew n m w).start k = -1 := by
  rw [start, barNew, getD_eq_getElem?_getD, getElem?_replicate]
  split_ifs
  · rfl
  · rfl

theorem fits_barNew (n m w id : ℕ) (lo hi : ℤ) : (barNew n m w).Fits id lo hi where
  length := length_replicate
  data := fun d hd hs => by
    rw [eq_of_mem_replicate hd] at hs
    exact absurd hs (by decide)
  later := fun k _ => by rw [start_barNew]; decide
  block := .inl (by rw [start_barNew]; decide)

theorem read_barNew (n m w : ℕ) (x y : ℤ) : (barNew n m w).read x y = 0 := by
  unfold read
  split_ifs with hin
  · have hs := start_barNew n m w (x + y).toNat
    rw [start] at hs
    rw [Diagonal.get, if_neg]
    intro h
    rw [hs] at h
    exact absurd h.1 (by decide)
  · rfl

end BAR

end CWB
