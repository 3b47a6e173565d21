import CWB.Sanity.BeamedArray

/-! The path that `best_path` returns. A cell with a positive quality is linked to a cell from
which an alignment step leads to it, and the end of both texts has a positive quality; the path
is an alignment path exactly if no link on the way back leads to a cell of quality 0, as it can
where a cell outside the beam was extended. -/

namespace CWB

open List Backtrace

abbrev Cell := ℤ × ℤ

namespace PathArrays

def value (a : PathArrays) (c : Cell) : ℤ := a.quality.read c.1 c.2

def link (a : PathArrays) (c : Cell) : Cell := (a.nextX.read c.1 c.2, a.nextY.read c.1 c.2)

end PathArrays

namespace AlignInput

variable {inp : AlignInput} {a a0 : PathArrays} {id : ℕ} {lo hi ix iy : ℤ}

/-- The similarity of the step between two cells. -/
def cellCost (inp : AlignInput) (p c : Cell) : ℤ :=
  inp.stepSimilarity (p.1 + inp.f1, p.2 + inp.f2) (c.1 + inp.f1, c.2 + inp.f2)

def CellStep (p c : Cell) : Prop := (c.1 - p.1, c.2 - p.2) ∈ steps

def InMatrix (inp : AlignInput) (c : Cell) : Prop := 0 ≤ c.1 ∧ c.1 ≤ inp.xRanges ∧ 0 ≤ c.2 ∧ c.2 ≤ inp.yRanges

theorem cellStep_lt {p c : Cell} (h : CellStep p c) : p.1 ≤ c.1 ∧ p.2 ≤ c.2 ∧ p.1 + p.2 < c.1 + c.2 := by
  simp only [CellStep, steps, mem_cons, Prod.mk.injEq, not_mem_nil, or_false] at h
  omega

/-- The three arrays have their sizes and hold blocks as far as diagonal `id`. -/
structure Filled (inp : AlignInput) (id : ℕ) (lo hi : ℤ) (b : BAR) : Prop where
  xSize : b.xSize = inp.xRanges + 1
  ySize : b.ySize = inp.yRanges + 1
  beamWidth : b.beamWidth = inp.beamWidth
  fits : b.Fits id lo hi

theorem Filled.inMatrix {b : BAR} (h : inp.Filled id lo hi b) : b.inMatrix ix iy ↔ inp.InMatrix (ix, iy) := by
  rw [BAR.inMatrix, InMatrix, h.xSize, h.ySize]
  push_cast
  omega

/-- A cell of diagonal `id` that the loop over its cells reaches next. -/
structure Next (inp : AlignInput) (id : ℕ) (lo hi : ℤ) (c : Cell) : Prop where
  inMatrix : inp.InMatrix c
  diagonal : c.1 + c.2 = id
  lo_le : lo ≤ hi
  ge : hi ≤ c.1
  lt : c.1 < lo + inp.beamWidth

theorem Filled.ahead {b : BAR} (h : inp.Filled id lo hi b) (hc : inp.Next id lo hi (ix, iy)) : b.Ahead id lo hi ix iy where
  inMatrix := h.inMatrix.mpr hc.inMatrix
  diagonal := hc.diagonal
  ge := hc.ge
  lt := by rw [h.beamWidth]; exact hc.lt

theorem Filled.write {b : BAR} (h : inp.Filled id lo hi b) (hc : inp.Next id lo hi (ix, iy)) (i : ℤ) :
    inp.Filled id lo ix (b.write ix iy i) := by
  obtain ⟨hx, hy, hw⟩ := b.write_sizes ix iy i
  exact ⟨hx.trans h.xSize, hy.trans h.ySize, hw.trans h.beamWidth, h.fits.write (h.ahead hc) hc.lo_le i⟩

structure FilledArrays (inp : AlignInput) (id : ℕ) (lo hi : ℤ) (a : PathArrays) : Prop where
  quality : inp.Filled id lo hi a.quality
  nextX : inp.Filled id lo hi a.nextX
  nextY : inp.Filled id lo hi a.nextY

theorem FilledArrays.mono (h : inp.FilledArrays id lo hi a) {hi' : ℤ} (hle : hi ≤ hi') : inp.FilledArrays id lo hi' a where
  quality := { h.quality with fits := h.quality.fits.mono hle }
  nextX := { h.nextX with fits := h.nextX.fits.mono hle }
  nextY := { h.nextY with fits := h.nextY.fits.mono hle }

theorem FilledArrays.next (h : inp.FilledArrays id lo hi a) (lo' hi' : ℤ) : inp.FilledArrays (id + 1) lo' hi' a where
  quality := { h.quality with fits := h.quality.fits.next lo' hi' }
  nextX := { h.nextX with fits := h.nextX.fits.next lo' hi' }
  nextY := { h.nextY with fits := h.nextY.fits.next lo' hi' }

theorem FilledArrays.write (h : inp.FilledArrays id lo hi a) (hc : inp.Next id lo hi (ix, iy)) (q nx ny : ℤ) :
    inp.FilledArrays id lo ix (a.write ix iy q nx ny) where
  quality := h.quality.write hc q
  nextX := h.nextX.write hc nx
  nextY := h.nextY.write hc ny

theorem FilledArrays.value_write (h : inp.FilledArrays id lo hi a) (hc : inp.Next id lo hi (ix, iy)) (q nx ny : ℤ)
    (c : Cell) : (a.write ix iy q nx ny).value c = if c = (ix, iy) then q else a.value c := by
  rw [PathArrays.value, PathArrays.write, h.quality.fits.read_write (h.quality.ahead hc) hc.lo_le]
  exact if_congr ⟨fun he => Prod.ext he.1 he.2, fun he => Prod.ext_iff.mp he⟩ rfl rfl

theorem FilledArrays.link_write (h : inp.FilledArrays id lo hi a) (hc : inp.Next id lo hi (ix, iy)) (q nx ny : ℤ)
    (c : Cell) : (a.write ix iy q nx ny).link c = if c = (ix, iy) then (nx, ny) else a.link c := by
  rw [PathArrays.link, PathArrays.write, h.nextX.fits.read_write (h.nextX.ahead hc) hc.lo_le,
    h.nextY.fits.read_write (h.nextY.ahead hc) hc.lo_le]
  by_cases heq : c = (ix, iy)
  · rw [if_pos heq, if_pos (Prod.ext_iff.mp heq), if_pos (Prod.ext_iff.mp heq)]
  · rw [if_neg heq, if_neg fun he => heq (Prod.ext he.1 he.2), if_neg fun he => heq (Prod.ext he.1 he.2)]
    rfl

theorem FilledArrays.value_outside (h : inp.FilledArrays id lo hi a) {c : Cell} (hc : ¬inp.InMatrix c) : a.value c = 0 :=
  BAR.read_outside fun hin => hc (h.quality.inMatrix.mp hin)

theorem FilledArrays.value_later (h : inp.FilledArrays id lo hi a) {c : Cell} (hc : (id : ℤ) < c.1 + c.2) : a.value c = 0 :=
  h.quality.fits.read_later hc

/-! ## The table -/

/-- The table: the origin has quality 1, other cells with a quality are linked to the cell they
were extended from, and all links lead back towards the origin. -/
structure Table (inp : AlignInput) (a : PathArrays) : Prop where
  nonneg : ∀ c, 0 ≤ a.value c
  origin : a.value (0, 0) = 1
  linked : Linked a.value a.link (0, 0) inp.cellCost CellStep
  back : ∀ c, inp.InMatrix c → c ≠ (0, 0) →
    0 ≤ (a.link c).1 ∧ (a.link c).1 ≤ c.1 ∧ 0 ≤ (a.link c).2 ∧ (a.link c).2 ≤ c.2 ∧ (a.link c).1 + (a.link c).2 < c.1 + c.2

theorem cellCost_nonneg (inp : AlignInput) (p c : Cell) : 0 ≤ inp.cellCost p c := by
  unfold cellCost stepSimilarity
  split_ifs
  · exact Int.natCast_nonneg _
  · exact le_rfl

/-- Writing a cell that is extended from `p`. -/
theorem Table.write (ht : inp.Table a) (h : inp.FilledArrays id lo hi a) (hc : inp.Next id lo hi (ix, iy)) {p : Cell}
    (hp : inp.InMatrix p) (hstep : CellStep p (ix, iy)) :
    inp.Table (a.write ix iy (a.value p + inp.cellCost p (ix, iy)) p.1 p.2) := by
  obtain ⟨hpx, hpy, hlt⟩ := cellStep_lt hstep
  have hdiag := hc.diagonal
  have hp' := hp
  obtain ⟨hpx0, -, hpy0, -⟩ := hp'
  simp only at hlt hpx hpy hdiag
  have hne : p ≠ (ix, iy) := by
    rintro rfl
    omega
  have horigin : ((0, 0) : Cell) ≠ (ix, iy) := by
    intro he
    rw [Prod.ext_iff] at he
    simp only at he
    omega
  have hpcell : (p.1, p.2) = p := rfl
  refine ⟨fun c => ?_, ?_, fun c hpos hc0 => ?_, fun c hin hc0 => ?_⟩
  · rw [h.value_write hc]
    split_ifs
    · exact add_nonneg (ht.nonneg p) (inp.cellCost_nonneg _ _)
    · exact ht.nonneg c
  · rw [h.value_write hc, if_neg horigin]
    exact ht.origin
  · rw [h.value_write hc] at hpos
    rw [h.value_write hc, h.value_write hc, h.link_write hc]
    by_cases heq : c = (ix, iy)
    · rw [if_pos heq, if_pos heq, if_neg (by rw [hpcell]; exact hne), heq]
      exact ⟨hstep, rfl⟩
    · rw [if_neg heq] at hpos
      obtain ⟨hs, hval⟩ := ht.linked c hpos hc0
      -- cells with a quality lie no further than this diagonal, so none is linked to this cell
      have hlink : a.link c ≠ (ix, iy) := by
        intro he
        have hslt := (cellStep_lt hs).2.2
        rw [he] at hslt
        have hzero := h.value_later (c := c) (by simp only at hslt; omega)
        omega
      rw [if_neg heq, if_neg heq, if_neg hlink]
      exact ⟨hs, hval⟩
  · rw [h.link_write hc]
    split_ifs with heq
    · rw [heq]
      exact ⟨hpx0, hpx, hpy0, hpy, hlt⟩
    · exact ht.back c hin hc0

/-! ## One cell -/

/-- After some of the writes to cell `c` of diagonal `id`: no other value has changed. -/
structure Scanned (inp : AlignInput) (id : ℕ) (lo : ℤ) (c : Cell) (a0 a : PathArrays) : Prop where
  table : inp.Table a
  filled : inp.FilledArrays id lo c.1 a
  others : ∀ c', c' ≠ c → a.value c' = a0.value c'

theorem Scanned.write (h : inp.Scanned id lo (ix, iy) a0 a) (hc : inp.Next id lo ix (ix, iy)) {p : Cell}
    (hp : inp.InMatrix p) (hstep : CellStep p (ix, iy)) :
    inp.Scanned id lo (ix, iy) a0 (a.write ix iy (a.value p + inp.cellCost p (ix, iy)) p.1 p.2) where
  table := h.table.write h.filled hc hp hstep
  filled := h.filled.write hc _ _ _
  others := fun c' hne => by
    rw [h.filled.value_write hc, if_neg hne]
    exact h.others c' hne

theorem cellCost_single (inp : AlignInput) (p c : Cell) (h : p.1 = c.1 ∨ p.2 = c.2) : inp.cellCost p c = 0 := by
  unfold cellCost stepSimilarity
  apply if_neg
  simp only
  omega

theorem initCell_scanned (h : inp.Scanned id lo (ix, iy) a0 a) (hc : inp.Next id lo ix (ix, iy)) :
    inp.Scanned id lo (ix, iy) a0 (a.initCell ix iy) ∧ a0.value (ix - 1, iy) ≤ (a.initCell ix iy).value (ix, iy) ∧
      a0.value (ix, iy - 1) ≤ (a.initCell ix iy).value (ix, iy) := by
  obtain ⟨hx0, hx, hy0, hy⟩ := hc.inMatrix
  simp only at hx0 hx hy0 hy
  have hleft : ∀ {a}, inp.Scanned id lo (ix, iy) a0 a → a.value (ix - 1, iy) = a0.value (ix - 1, iy) := fun hs =>
    hs.others _ fun he => by
      rw [Prod.ext_iff] at he
      simp only at he
      omega
  have hbelow : ∀ {a}, inp.Scanned id lo (ix, iy) a0 a → a.value (ix, iy - 1) = a0.value (ix, iy - 1) := fun hs =>
    hs.others _ fun he => by
      rw [Prod.ext_iff] at he
      simp only at he
      omega
  -- 1:0 where there is a sentence, else the cell on the left is outside and reads as zero
  have hfirst : ∃ a1, (if ix ≥ 1 then a.write ix iy (a.quality.read (ix - 1) iy) (ix - 1) iy else a) = a1 ∧
      inp.Scanned id lo (ix, iy) a0 a1 ∧ a0.value (ix - 1, iy) ≤ a1.value (ix, iy) := by
    refine ⟨_, rfl, ?_⟩
    split_ifs with h1
    · have hw := h.write hc (p := (ix - 1, iy)) ⟨by simp only; omega, by simp only; omega, hy0, hy⟩
        (by simp [CellStep, steps])
      have hval : a.value (ix - 1, iy) + inp.cellCost (ix - 1, iy) (ix, iy) = a.quality.read (ix - 1) iy := by
        rw [cellCost_single inp (ix - 1, iy) (ix, iy) (.inr rfl), add_zero]
        rfl
      rw [hval] at hw
      refine ⟨hw, ?_⟩
      rw [h.filled.value_write hc, if_pos rfl, ← hleft h]
      exact le_rfl
    · refine ⟨h, ?_⟩
      rw [← hleft h, h.filled.value_outside (by rintro ⟨h0, -⟩; simp only at h0; omega)]
      exact h.table.nonneg _
  obtain ⟨a1, heq, h1, hle⟩ := hfirst
  rw [PathArrays.initCell]
  simp only [heq]
  split_ifs with hbetter
  · have hpos : (0 : ℤ) < a1.value (ix, iy - 1) := lt_of_le_of_lt (h1.table.nonneg (ix, iy)) hbetter
    have hin : inp.InMatrix (ix, iy - 1) := by
      by_contra hout
      rw [h1.filled.value_outside hout] at hpos
      exact lt_irrefl _ hpos
    have hw := h1.write hc hin (by simp [CellStep, steps])
    have hval : a1.value (ix, iy - 1) + inp.cellCost (ix, iy - 1) (ix, iy) = a1.quality.read ix (iy - 1) := by
      rw [cellCost_single inp (ix, iy - 1) (ix, iy) (.inl rfl), add_zero]
      rfl
    rw [hval] at hw
    refine ⟨hw, ?_, ?_⟩
    · rw [h1.filled.value_write hc, if_pos rfl]
      exact hle.trans hbetter.le
    · rw [h1.filled.value_write hc, if_pos rfl, ← hbelow h1]
      exact le_rfl
  · refine ⟨h1, hle, ?_⟩
    rw [← hbelow h1]
    exact not_lt.mp hbetter

theorem tryStep_scanned (h : inp.Scanned id lo (ix, iy) a0 a) (hc : inp.Next id lo ix (ix, iy)) {d : ℤ × ℤ}
    (hd : d ∈ [((1 : ℤ), (1 : ℤ)), (1, 2), (2, 1), (2, 2)]) :
    inp.Scanned id lo (ix, iy) a0 (a.tryStep inp ix iy d) ∧ a.value (ix, iy) ≤ (a.tryStep inp ix iy d).value (ix, iy) := by
  obtain ⟨hx0, hx, hy0, hy⟩ := hc.inMatrix
  simp only at hx0 hx hy0 hy
  have hd' : 1 ≤ d.1 ∧ 1 ≤ d.2 ∧ (ix - (ix - d.1), iy - (iy - d.2)) ∈ steps := by
    rw [sub_sub_cancel, sub_sub_cancel]
    fin_cases hd <;> simp [steps]
  unfold PathArrays.tryStep
  split_ifs with hin
  · have hcost : inp.cellCost (ix - d.1, iy - d.2) (ix, iy) =
        inp.featureMatch (inp.f1 + ix - d.1) (inp.f1 + ix - 1) (inp.f2 + iy - d.2) (inp.f2 + iy - 1) := by
      rw [cellCost, stepSimilarity, if_pos ⟨by simp only; omega, by simp only; omega⟩]
      simp only
      rw [show ix - d.1 + inp.f1 = inp.f1 + ix - d.1 by ring, show ix + inp.f1 - 1 = inp.f1 + ix - 1 by ring,
        show iy - d.2 + inp.f2 = inp.f2 + iy - d.2 by ring, show iy + inp.f2 - 1 = inp.f2 + iy - 1 by ring]
    simp only
    split_ifs with hbetter
    · have hw := h.write hc (p := (ix - d.1, iy - d.2)) ⟨hin.1, by simp only; omega, hin.2, by simp only; omega⟩ hd'.2.2
      rw [hcost] at hw
      refine ⟨hw, ?_⟩
      rw [h.filled.value_write hc, if_pos rfl]
      exact hbetter.le
    · exact ⟨h, le_rfl⟩
  · exact ⟨h, le_rfl⟩

theorem scanCell_scanned (ht : inp.Table a) (hf : inp.FilledArrays id lo hi a) (hc : inp.Next id lo hi (ix, iy)) :
    inp.Scanned id lo (ix, iy) a (a.scanCell inp ix iy) ∧ a.value (ix - 1, iy) ≤ (a.scanCell inp ix iy).value (ix, iy) ∧
      a.value (ix, iy - 1) ≤ (a.scanCell inp ix iy).value (ix, iy) := by
  have hc' : inp.Next id lo ix (ix, iy) := ⟨hc.inMatrix, hc.diagonal, hc.lo_le.trans hc.ge, le_rfl, hc.lt⟩
  have hstart : inp.Scanned id lo (ix, iy) a a := ⟨ht, hf.mono hc.ge, fun _ _ => rfl⟩
  obtain ⟨h, hleft, hbelow⟩ := initCell_scanned hstart hc'
  -- each further step keeps the table and does not lower the quality
  have hloop : ∀ (ds : List (ℤ × ℤ)) (a1 : PathArrays), (∀ d ∈ ds, d ∈ [((1 : ℤ), (1 : ℤ)), (1, 2), (2, 1), (2, 2)]) →
      inp.Scanned id lo (ix, iy) a a1 →
      inp.Scanned id lo (ix, iy) a (ds.foldl (fun a d => a.tryStep inp ix iy d) a1) ∧
        a1.value (ix, iy) ≤ (ds.foldl (fun a d => a.tryStep inp ix iy d) a1).value (ix, iy) := by
    intro ds
    induction ds with
    | nil => exact fun a1 _ h1 => ⟨h1, le_rfl⟩
    | cons d ds ih =>
      intro a1 hds h1
      obtain ⟨h2, hle⟩ := tryStep_scanned h1 hc' (hds d mem_cons_self)
      obtain ⟨h3, hle'⟩ := ih _ (fun d' hd' => hds d' (mem_cons_of_mem d hd')) h2
      exact ⟨h3, hle.trans hle'⟩
  obtain ⟨hs, hle⟩ := hloop _ _ (fun d hd => hd) h
  exact ⟨hs, hleft.trans hle, hbelow.trans hle⟩

/-! ## One diagonal -/

/-- After the cells `lo .. hi - 1` of diagonal `id`: they have at least the quality of the cells on
the left and below, other diagonals have not changed, and `xMax` is the best of them. -/
structure Swept (inp : AlignInput) (id : ℕ) (lo hi : ℤ) (a0 : PathArrays) (st : PathSearch) : Prop where
  table : inp.Table st.arrays
  filled : inp.FilledArrays id lo hi st.arrays
  others : ∀ c : Cell, c.1 + c.2 ≠ id → st.arrays.value c = a0.value c
  covered : ∀ x y, lo ≤ x → x < hi → inp.InMatrix (x, y) → x + y = id →
    a0.value (x - 1, y) ≤ st.arrays.value (x, y) ∧ a0.value (x, y - 1) ≤ st.arrays.value (x, y)
  best : ∀ x, lo ≤ x → x < hi → st.arrays.value (x, id - x) ≤ st.qMax
  xMax : 0 ≤ st.qMax ∧ (0 < st.qMax → lo ≤ st.xMax ∧ st.xMax < hi ∧ st.arrays.value (st.xMax, id - st.xMax) = st.qMax)

variable {st : PathSearch}

theorem Swept.skip (h : inp.Swept id lo hi a0 st) (hout : ¬inp.InMatrix (hi, id - hi)) : inp.Swept id lo (hi + 1) a0 st where
  table := h.table
  filled := h.filled.mono (by omega)
  others := h.others
  covered := fun x y hlo hx hin hd => by
    obtain hlt | rfl : x < hi ∨ x = hi := by omega
    · exact h.covered x y hlo hlt hin hd
    · rw [show y = (id : ℤ) - x by omega] at hin
      exact absurd hin hout
  best := fun x hlo hx => by
    obtain hlt | rfl : x < hi ∨ x = hi := by omega
    · exact h.best x hlo hlt
    · rw [h.filled.value_outside hout]
      exact h.xMax.1
  xMax := ⟨h.xMax.1, fun hpos => by
    obtain ⟨hlo, hlt, hval⟩ := h.xMax.2 hpos
    exact ⟨hlo, by omega, hval⟩⟩

/-- Left of the matrix the loop reads and writes nothing. -/
theorem scanCell_negative (hf : inp.FilledArrays id lo hi a) (hneg : ix < 0) : a.scanCell inp ix iy = a := by
  have hzero : ∀ y, a.quality.read ix y = 0 := fun y => hf.value_outside (c := (ix, y)) fun hin => by
    have h0 := hin.1
    simp only at h0
    omega
  have hinit : a.initCell ix iy = a := by
    simp only [PathArrays.initCell, if_neg (show ¬ix ≥ 1 by omega), hzero]
    exact if_neg (lt_irrefl 0)
  have htry : ∀ d : ℤ × ℤ, 0 ≤ d.1 → a.tryStep inp ix iy d = a := fun d hd => by
    rw [PathArrays.tryStep, if_neg]
    omega
  rw [PathArrays.scanCell, hinit]
  simp only [foldl_cons, foldl_nil]
  rw [htry _ (by decide), htry _ (by decide), htry _ (by decide), htry _ (by decide)]

/-- The loop does nothing at a place outside the matrix. -/
theorem Swept.outside (h : inp.Swept id lo hi a0 st) (hin : ¬inp.InMatrix (hi, id - hi)) : inp.scanStep id st hi = st := by
  rw [scanStep]
  simp only
  split_ifs with hskip hbetter
  · rfl
  · rw [scanCell_negative h.filled (by rw [InMatrix] at hin; simp only at hin; omega)] at hbetter
    have hzero : st.arrays.value (hi, id - hi) = 0 := h.filled.value_outside hin
    have hq := h.xMax.1
    rw [PathArrays.value] at hzero
    simp only at hzero
    omega
  · rw [scanCell_negative h.filled (by rw [InMatrix] at hin; simp only at hin; omega)]

theorem Swept.step (h : inp.Swept id lo hi a0 st) (hlo : lo ≤ hi) (hlt : hi < lo + inp.beamWidth) :
    inp.Swept id lo (hi + 1) a0 (inp.scanStep id st hi) := by
  by_cases hin : inp.InMatrix (hi, id - hi)
  · have hcell := hin
    obtain ⟨hx0, hx, hy0, hy⟩ := hcell
    simp only at hx0 hx hy0 hy
    have hnext : inp.Next id lo hi (hi, id - hi) := ⟨hin, by simp only; omega, hlo, le_rfl, hlt⟩
    obtain ⟨hs, hleft, hbelow⟩ := scanCell_scanned h.table h.filled hnext
    rw [scanStep]
    simp only
    rw [if_neg (by omega)]
    generalize st.arrays.scanCell inp hi (id - hi) = a1 at hs hleft hbelow
    have hothers : ∀ c : Cell, c.1 + c.2 ≠ id → a1.value c = a0.value c := by
      intro c hc
      rw [hs.others c fun he => hc (by rw [he]; simp only; omega)]
      exact h.others c hc
    have hearlier : ∀ x y, x < hi → a1.value (x, y) = st.arrays.value (x, y) := by
      intro x y hx
      apply hs.others
      intro he
      rw [Prod.ext_iff] at he
      simp only at he
      omega
    have hcovered : ∀ x y, lo ≤ x → x < hi + 1 → inp.InMatrix (x, y) → x + y = id →
        a0.value (x - 1, y) ≤ a1.value (x, y) ∧ a0.value (x, y - 1) ≤ a1.value (x, y) := by
      intro x y hlo hx hin hd
      obtain hlt | rfl : x < hi ∨ x = hi := by omega
      · rw [hearlier x y hlt]
        exact h.covered x y hlo hlt hin hd
      · obtain rfl : y = (id : ℤ) - x := by omega
        rw [← h.others (x - 1, (id : ℤ) - x) (by simp only; omega), ← h.others (x, (id : ℤ) - x - 1) (by simp only; omega)]
        exact ⟨hleft, hbelow⟩
    split_ifs with hbetter
    · refine ⟨hs.table, hs.filled.mono (by simp only; omega), hothers, hcovered, fun x hlo hx => ?_,
        (h.xMax.1.trans hbetter.le), fun _ => ⟨hlo, by simp only; omega, rfl⟩⟩
      obtain hlt | rfl : x < hi ∨ x = hi := by omega
      · rw [hearlier x _ hlt]
        exact (h.best x hlo hlt).trans hbetter.le
      · exact le_rfl
    · refine ⟨hs.table, hs.filled.mono (by simp only; omega), hothers, hcovered, fun x hlo hx => ?_, h.xMax.1, fun hpos => ?_⟩
      · obtain hlt | rfl : x < hi ∨ x = hi := by omega
        · rw [hearlier x _ hlt]
          exact h.best x hlo hlt
        · exact not_lt.mp hbetter
      · obtain ⟨hle, hx, hval⟩ := h.xMax.2 hpos
        refine ⟨hle, hx.trans (lt_add_one hi), ?_⟩
        rw [hearlier _ _ hx]
        exact hval
  · rw [h.outside hin]
    exact h.skip hin

/-- The first `k` places of the beam. -/
theorem scanDiagonal_upTo (ht : inp.Table st.arrays) (hf : inp.FilledArrays id lo hi st.arrays) (k : ℕ)
    (hk : k ≤ inp.beamWidth) : let lo' := st.xMax - (inp.beamWidth / 2 : ℕ)
    inp.Swept (id + 1) lo' (lo' + k) st.arrays
      (((range k).map fun k : ℕ => lo' + k).foldl (inp.scanStep (id + 1)) { arrays := st.arrays, xMax := lo' }) := by
  intro lo'
  induction k with
  | zero =>
    refine ⟨ht, hf.next _ _, fun _ _ => rfl, fun x y hlo hx => by push_cast at hx; omega, fun x hlo hx => ?_, le_rfl,
      fun hpos => absurd hpos (lt_irrefl 0)⟩
    push_cast at hx
    omega
  | succ k ih =>
    rw [range_succ, map_append, foldl_append, map_singleton, foldl_cons, foldl_nil]
    have hstep := (ih (by omega)).step (by omega) (by omega)
    rw [show lo' + ((k + 1 : ℕ) : ℤ) = lo' + k + 1 by push_cast; ring]
    exact hstep

theorem scanDiagonal_swept (ht : inp.Table st.arrays) (hf : inp.FilledArrays id lo hi st.arrays) :
    let lo' := st.xMax - (inp.beamWidth / 2 : ℕ)
    inp.Swept (id + 1) lo' (lo' + inp.beamWidth) st.arrays (inp.scanDiagonal st (id + 1)) :=
  scanDiagonal_upTo ht hf _ le_rfl

/-! ## All diagonals -/

/-- After `n` diagonals: the best cell of the last one lies in the next beam, with its neighbours. -/
structure Searched (inp : AlignInput) (n : ℕ) (st : PathSearch) : Prop where
  table : inp.Table st.arrays
  filled : ∃ lo hi, inp.FilledArrays n lo hi st.arrays
  best : ∃ x, x ≤ st.xMax ∧ st.xMax ≤ x + 1 ∧ 0 < st.arrays.value (x, n - x)

theorem next_start (inp : AlignInput) (hw : 0 < inp.beamWidth) : inp.Next 0 0 0 (0, 0) where
  inMatrix := ⟨le_rfl, Int.natCast_nonneg _, le_rfl, Int.natCast_nonneg _⟩
  diagonal := rfl
  lo_le := le_rfl
  ge := le_rfl
  lt := by simp only; omega

/-- The arrays before the write to the origin. -/
def newArrays (inp : AlignInput) : PathArrays :=
  let bar := barNew (inp.xRanges + 1) (inp.yRanges + 1) inp.beamWidth
  ⟨bar, bar, bar⟩

theorem filled_newArrays (inp : AlignInput) : inp.FilledArrays 0 0 0 inp.newArrays :=
  have h : inp.Filled 0 0 0 (barNew (inp.xRanges + 1) (inp.yRanges + 1) inp.beamWidth) :=
    ⟨rfl, rfl, rfl, BAR.fits_barNew ..⟩
  ⟨h, h, h⟩

theorem startArrays_eq (inp : AlignInput) : inp.startArrays = inp.newArrays.write 0 0 1 0 0 := rfl

theorem value_startArrays (inp : AlignInput) (hw : 0 < inp.beamWidth) (c : Cell) :
    inp.startArrays.value c = if c = (0, 0) then 1 else 0 := by
  rw [startArrays_eq, inp.filled_newArrays.value_write (inp.next_start hw)]
  exact if_congr Iff.rfl rfl (BAR.read_barNew ..)

theorem link_startArrays (inp : AlignInput) (hw : 0 < inp.beamWidth) (c : Cell) : inp.startArrays.link c = (0, 0) := by
  rw [startArrays_eq, inp.filled_newArrays.link_write (inp.next_start hw)]
  split_ifs
  · rfl
  · exact Prod.ext (BAR.read_barNew ..) (BAR.read_barNew ..)

theorem searched_start (inp : AlignInput) (hw : 0 < inp.beamWidth) :
    inp.Searched 0 { arrays := inp.startArrays, xMax := 1 } where
  table := by
    refine ⟨fun c => ?_, ?_, fun c hpos hne => ?_, fun c hin hne => ?_⟩
    · rw [value_startArrays inp hw]
      split_ifs
      · exact zero_le_one
      · exact le_rfl
    · rw [value_startArrays inp hw, if_pos rfl]
    · rw [value_startArrays inp hw, if_neg hne] at hpos
      exact absurd hpos (lt_irrefl 0)
    · obtain ⟨hx0, -, hy0, -⟩ := hin
      rw [link_startArrays inp hw]
      refine ⟨le_rfl, hx0, le_rfl, hy0, ?_⟩
      obtain hlt | heq := lt_or_eq_of_le (add_nonneg hx0 hy0)
      · exact hlt
      · exact absurd (Prod.ext (by simp only; omega) (by simp only; omega)) hne
  filled := ⟨0, 0, inp.filled_newArrays.write (inp.next_start hw) 1 0 0⟩
  best := by
    refine ⟨0, zero_le_one, le_rfl, ?_⟩
    rw [value_startArrays inp hw]
    exact zero_lt_one

theorem Searched.step {n : ℕ} (h : inp.Searched n st) (hw : 10 < inp.beamWidth ∨ inp.xRanges < inp.beamWidth / 2)
    (hn : n < inp.xRanges + inp.yRanges) :
    inp.Searched (n + 1) (inp.scanDiagonal st (n + 1)) := by
  obtain ⟨lo, hi, hf⟩ := h.filled
  have hs := scanDiagonal_swept h.table hf
  simp only at hs
  obtain ⟨x, hle, hge, hpos⟩ := h.best
  have hin : inp.InMatrix (x, n - x) := by
    by_contra hout
    rw [hf.value_outside hout] at hpos
    exact lt_irrefl _ hpos
  obtain ⟨hx0, hx, hy0, hy⟩ := hin
  simp only at hx0 hx hy0 hy
  -- the cell on the right or the one above is in the beam and has at least this quality
  have hreach : ∃ x', st.xMax - (inp.beamWidth / 2 : ℕ) ≤ x' ∧ x' < st.xMax - (inp.beamWidth / 2 : ℕ) + inp.beamWidth ∧
      0 < (inp.scanDiagonal st (n + 1)).arrays.value (x', (n + 1 : ℕ) - x') := by
    obtain hright | habove : x < inp.xRanges ∨ (n : ℤ) - x < inp.yRanges := by omega
    · have hcov := hs.covered (x + 1) (n - x) (by omega) (by omega) ⟨by simp only; omega, by simp only; omega, hy0, hy⟩
        (by push_cast; ring)
      rw [add_sub_cancel_right] at hcov
      refine ⟨x + 1, by omega, by omega, ?_⟩
      rw [show ((n + 1 : ℕ) : ℤ) - (x + 1) = n - x by push_cast; ring]
      exact hpos.trans_le hcov.1
    · have hcov := hs.covered x (n + 1 - x) (by omega) (by omega) ⟨hx0, hx, by simp only; omega, by simp only; omega⟩
        (by push_cast; ring)
      rw [show (n : ℤ) + 1 - x - 1 = n - x by ring] at hcov
      refine ⟨x, by omega, by omega, ?_⟩
      rw [show ((n + 1 : ℕ) : ℤ) - x = n + 1 - x by push_cast; ring]
      exact hpos.trans_le hcov.2
  obtain ⟨x', hlo, hlt, hval⟩ := hreach
  have hq := hval.trans_le (hs.best x' hlo hlt)
  obtain ⟨-, -, hmax⟩ := hs.xMax.2 hq
  refine ⟨hs.table, ⟨_, _, hs.filled⟩, _, le_rfl, (lt_add_one _).le, ?_⟩
  rw [hmax]
  exact hq

theorem forward_searched (hw : 10 < inp.beamWidth ∨ inp.xRanges < inp.beamWidth / 2) {n : ℕ}
    (hn : n ≤ inp.xRanges + inp.yRanges) :
    inp.Searched n (inp.forward n) := by
  induction n with
  | zero => exact searched_start inp (by omega)
  | succ n ih =>
    rw [forward, range_succ, foldl_append]
    exact (ih (by omega)).step hw (by omega)

/-- The table of the whole search. -/
def finalArrays (inp : AlignInput) : PathArrays := (inp.forward (inp.xRanges + inp.yRanges)).arrays

theorem value_end (hw : 10 < inp.beamWidth) : 0 < inp.finalArrays.value (inp.xRanges, inp.yRanges) := by
  have h := forward_searched (.inl hw) (le_refl (inp.xRanges + inp.yRanges))
  obtain ⟨lo, hi, hf⟩ := h.filled
  obtain ⟨x, -, -, hpos⟩ := h.best
  have hin : inp.InMatrix (x, (inp.xRanges + inp.yRanges : ℕ) - x) := by
    by_contra hout
    rw [hf.value_outside hout] at hpos
    exact lt_irrefl _ hpos
  obtain ⟨hx0, hx, hy0, hy⟩ := hin
  push_cast at hpos hy0 hy
  simp only at hx hy
  obtain rfl : x = inp.xRanges := by omega
  rw [add_sub_cancel_left] at hpos
  exact hpos

/-! ## The way back -/

/-- The cell of a point. -/
def cellOf (inp : AlignInput) (p : ℤ × ℤ × ℤ) : Cell := (p.1 - inp.f1, p.2.1 - inp.f2)

/-- Points that the backward loop has written: each is the link of the next one, and its quality
is the difference between both. -/
def BackFrom (inp : AlignInput) (a : PathArrays) (out : List (ℤ × ℤ × ℤ)) : Prop :=
  out.IsChain fun p c => inp.cellOf c ≠ (0, 0) ∧ inp.cellOf p = a.link (inp.cellOf c) ∧
    p.2.2 = a.value (inp.cellOf c) - a.value (inp.cellOf p)

theorem traceBack_spec (ht : inp.Table a) (room : ℕ) (ix iy iq : ℤ) (out : List (ℤ × ℤ × ℤ)) (hin : inp.InMatrix (ix, iy))
    (hroom : ix + iy < room) (hout : inp.BackFrom a out)
    (hhead : ∀ c ∈ out.head?, inp.cellOf c ≠ (0, 0) ∧ (ix, iy) = a.link (inp.cellOf c) ∧ iq = a.value (inp.cellOf c)) :
    ∃ path, inp.traceBack a room ix iy iq out = some path ∧ inp.BackFrom a path ∧
      path.head?.map inp.cellOf = some (0, 0) ∧ ∃ before, path = before ++ (ix + inp.f1, iy + inp.f2, iq - a.value (ix, iy)) :: out := by
  induction room generalizing ix iy iq out with
  | zero =>
    obtain ⟨hx0, -, hy0, -⟩ := hin
    simp only at hx0 hy0
    omega
  | succ room ih =>
    have hcell := hin
    obtain ⟨hx0, hx, hy0, hy⟩ := hcell
    simp only at hx0 hx hy0 hy
    have hof : inp.cellOf (ix + inp.f1, iy + inp.f2, iq - a.value (ix, iy)) = (ix, iy) :=
      Prod.ext (add_sub_cancel_right _ _) (add_sub_cancel_right _ _)
    have hnew : inp.BackFrom a ((ix + inp.f1, iy + inp.f2, iq - a.value (ix, iy)) :: out) := by
      apply isChain_cons.mpr
      refine ⟨fun c hc => ?_, hout⟩
      obtain ⟨hne, hlink, hiq⟩ := hhead c hc
      rw [hof]
      exact ⟨hne, hlink, by rw [hiq]⟩
    rw [traceBack, if_pos ⟨hx0, hy0⟩]
    simp only
    split_ifs with hend
    · obtain rfl : ix = 0 := by omega
      obtain rfl : iy = 0 := by omega
      exact ⟨_, rfl, hnew, congrArg some hof, [], rfl⟩
    · have hne : ((ix, iy) : Cell) ≠ (0, 0) := by
        intro he
        rw [Prod.ext_iff] at he
        simp only at he
        omega
      obtain ⟨hlx0, hlx, hly0, hly, hlt⟩ := ht.back (ix, iy) hin hne
      simp only at hlx hly hlt
      obtain ⟨path, hpath, hback, hfirst, before, hsplit⟩ := ih (a.link (ix, iy)).1 (a.link (ix, iy)).2 (a.value (ix, iy))
        ((ix + inp.f1, iy + inp.f2, iq - a.value (ix, iy)) :: out)
        ⟨hlx0, hlx.trans hx, hly0, hly.trans hy⟩ (by omega) hnew (fun c hc => by
          cases hc
          rw [hof]
          exact ⟨hne, rfl, rfl⟩)
      exact ⟨path, hpath, hback, hfirst, before ++ [_], by rw [hsplit, append_assoc, singleton_append]⟩

/-- The way back from the end of both texts. -/
theorem traceBack_end (ht : inp.Table a) {room : ℕ} (hroom : inp.xRanges + inp.yRanges < room) :
    ∃ path, inp.traceBack a room inp.xRanges inp.yRanges (a.value (inp.xRanges, inp.yRanges)) [] = some path ∧
      inp.BackFrom a path ∧ path.head?.map inp.cellOf = some (0, 0) ∧
        path.getLast? = some (inp.f1 + inp.xRanges, inp.f2 + inp.yRanges, 0) := by
  obtain ⟨path, hpath, hback, hfirst, before, hsplit⟩ := traceBack_spec ht room inp.xRanges inp.yRanges
    (a.value (inp.xRanges, inp.yRanges)) [] ⟨Int.natCast_nonneg _, le_rfl, Int.natCast_nonneg _, le_rfl⟩ (by omega)
    isChain_nil (fun c hc => by cases hc)
  refine ⟨path, hpath, hback, hfirst, ?_⟩
  rw [hsplit, getLast?_concat, sub_self, add_comm, add_comm (inp.yRanges : ℤ)]

/-! ## The path -/

variable {path : List (ℤ × ℤ × ℤ)}

theorem cellCost_cellOf (inp : AlignInput) (p c : ℤ × ℤ × ℤ) :
    inp.cellCost (inp.cellOf p) (inp.cellOf c) = inp.stepSimilarity (p.1, p.2.1) (c.1, c.2.1) := by
  simp only [cellCost, cellOf, sub_add_cancel]

theorem cellStep_cellOf (inp : AlignInput) (p c : ℤ × ℤ × ℤ) :
    CellStep (inp.cellOf p) (inp.cellOf c) ↔ (c.1 - p.1, c.2.1 - p.2.1) ∈ steps := by
  simp only [CellStep, cellOf, sub_sub_sub_cancel_right]

theorem BackFrom.walk (h : inp.BackFrom a path) : Walk a.link (0, 0) (path.map inp.cellOf) := by
  rw [Walk, isChain_map]
  exact h.imp fun p c hpc => ⟨hpc.1, hpc.2.1⟩

/-- The steps of the path are right if those between its cells are. -/
theorem BackFrom.steps_iff (h : inp.BackFrom a path) :
    ((path.map inp.cellOf).IsChain fun p c => CellStep p c ∧ a.value c - a.value p = inp.cellCost p c) ↔
      path.IsChain fun p c => (c.1 - p.1, c.2.1 - p.2.1) ∈ steps ∧
        p.2.2 = inp.stepSimilarity (p.1, p.2.1) (c.1, c.2.1) := by
  rw [isChain_map]
  constructor
  · intro hs
    apply (isChain_and h hs).imp
    intro p c hpc
    obtain ⟨⟨-, -, hq⟩, hstep, hcost⟩ := hpc
    refine ⟨(inp.cellStep_cellOf p c).mp hstep, ?_⟩
    rw [hq, hcost, cellCost_cellOf]
  · intro hs
    apply (isChain_and h hs).imp
    intro p c hpc
    obtain ⟨⟨-, -, hq⟩, hstep, hsim⟩ := hpc
    refine ⟨(inp.cellStep_cellOf p c).mpr hstep, ?_⟩
    rw [← hq, hsim, cellCost_cellOf]

theorem step_nonneg {d : ℤ × ℤ} (h : d ∈ steps) : 0 ≤ d.1 ∧ 0 ≤ d.2 := by
  have hall : ∀ d ∈ steps, 0 ≤ d.1 ∧ 0 ≤ d.2 := by decide
  exact hall d h

/-- Steps from the start to the end are an alignment path: the rest of what it says follows. -/
theorem alignmentPath_of_steps (hfirst : path.head?.map inp.cellOf = some (0, 0))
    (hlast : path.getLast?.map (fun p => (p.1, p.2.1)) = some (inp.f1 + inp.xRanges, inp.f2 + inp.yRanges))
    (hstep : path.IsChain fun p c => (c.1 - p.1, c.2.1 - p.2.1) ∈ steps ∧
      p.2.2 = inp.stepSimilarity (p.1, p.2.1) (c.1, c.2.1)) : inp.AlignmentPath path := by
  have hrise : path.IsChain fun p c => (p.1, p.2.1) ≤ (c.1, c.2.1) := by
    apply hstep.imp
    intro p c h
    obtain ⟨hx, hy⟩ := step_nonneg h.1
    exact ⟨sub_nonneg.mp hx, sub_nonneg.mp hy⟩
  have hpoints : (path.map fun p => (p.1, p.2.1)).IsChain (· ≤ ·) := (isChain_map _).mpr hrise
  have hstart : path.head?.map (fun p => (p.1, p.2.1)) = some (inp.f1, inp.f2) := by
    obtain ⟨first, hf, hcell⟩ := Option.map_eq_some_iff.mp hfirst
    rw [Prod.ext_iff] at hcell
    simp only [cellOf] at hcell
    rw [hf]
    exact congrArg some (Prod.ext (by simp only; omega) (by simp only; omega))
  refine ⟨hstart, hlast, hstep, ?_, fun p hp => ?_⟩
  · exact (pairwise_map.mp (isChain_iff_pairwise.mp hpoints)).imp fun h => h
  · obtain ⟨hge, hle⟩ := mem_Icc_of_isChain hpoints (by rw [head?_map, hstart]) (by rw [getLast?_map, hlast])
      _ (mem_map_of_mem hp)
    exact ⟨hge.1, hle.1, hge.2, hle.2⟩

/-- The cell `c` was extended from a cell of quality 0, one outside the beam. -/
def Lost (inp : AlignInput) (c : Cell) : Prop :=
  c ≠ (0, 0) ∧ 0 < inp.finalArrays.value c ∧ inp.finalArrays.value (inp.finalArrays.link c) ≤ 0

instance (inp : AlignInput) (c : Cell) : Decidable (inp.Lost c) := inferInstanceAs (Decidable (_ ∧ _ ∧ _))

/-- Only 1:1 steps with similarity 1: the path of a text of two sentences and its translation. -/
def diagonalInput : AlignInput where
  featureMatch := fun s1 s2 t1 t2 => if s1 = s2 ∧ t1 = t2 ∧ s1 = t1 then 1 else 0
  xRanges := 2
  yRanges := 2
  beamWidth := 11

/-- A similarity of 100 pulls the beam away from the cells before the sentences 6 and 0. -/
def lostInput : AlignInput where
  featureMatch := fun s1 s2 t1 t2 =>
    if (s1, s2, t1, t2) = (4, 4, 1, 1) then 5 else if (s1, s2, t1, t2) = (6, 6, 0, 0) then 100 else 0
  xRanges := 7
  yRanges := 8
  beamWidth := 11

end AlignInput

end CWB
