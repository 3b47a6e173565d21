import CWB.Proofs.BestPath

/-! With half a beam that is wider than the source text, the beam covers all cells. Each cell then has the quality
of the best path to it, and `best_path` returns a path of the greatest similarity. -/

namespace CWB

open List Backtrace

namespace AlignInput

variable {inp : AlignInput} {a a0 : PathArrays} {st : PathSearch} {id : ℕ} {lo hi ix iy : ℤ}

/-! ## One cell -/

theorem tryStep_ge (h : inp.Scanned id lo (ix, iy) a0 a) (hc : inp.Next id lo ix (ix, iy)) {d : ℤ × ℤ}
    (hd : d ∈ [((1 : ℤ), (1 : ℤ)), (1, 2), (2, 1), (2, 2)]) (hin : inp.InMatrix (ix - d.1, iy - d.2)) :
    a0.value (ix - d.1, iy - d.2) + inp.cellCost (ix - d.1, iy - d.2) (ix, iy) ≤ (a.tryStep inp ix iy d).value (ix, iy) := by
  have hpos : 1 ≤ d.1 ∧ 1 ≤ d.2 := by fin_cases hd <;> simp
  obtain ⟨hx0, -, hy0, -⟩ := hin
  simp only at hx0 hy0
  have hcost : inp.cellCost (ix - d.1, iy - d.2) (ix, iy) =
      inp.featureMatch (inp.f1 + ix - d.1) (inp.f1 + ix - 1) (inp.f2 + iy - d.2) (inp.f2 + iy - 1) := by
    rw [cellCost, stepSimilarity, if_pos ⟨by simp only; omega, by simp only; omega⟩]
    simp only
    rw [show ix - d.1 + inp.f1 = inp.f1 + ix - d.1 by ring, show ix + inp.f1 - 1 = inp.f1 + ix - 1 by ring,
      show iy - d.2 + inp.f2 = inp.f2 + iy - d.2 by ring, show iy + inp.f2 - 1 = inp.f2 + iy - 1 by ring]
  rw [← h.others _ fun he => by rw [Prod.ext_iff] at he; simp only at he; omega, hcost]
  unfold PathArrays.tryStep
  rw [if_pos ⟨hx0, hy0⟩]
  simp only
  split_ifs with hbetter
  · rw [h.filled.value_write hc, if_pos rfl]
    exact le_rfl
  · exact not_lt.mp hbetter

theorem tryStep_loop_ge (hc : inp.Next id lo ix (ix, iy)) (ds : List (ℤ × ℤ))
    (hds : ∀ d ∈ ds, d ∈ [((1 : ℤ), (1 : ℤ)), (1, 2), (2, 1), (2, 2)]) (h : inp.Scanned id lo (ix, iy) a0 a) :
    let a' := ds.foldl (fun a d => a.tryStep inp ix iy d) a
    a.value (ix, iy) ≤ a'.value (ix, iy) ∧ ∀ d ∈ ds, inp.InMatrix (ix - d.1, iy - d.2) →
      a0.value (ix - d.1, iy - d.2) + inp.cellCost (ix - d.1, iy - d.2) (ix, iy) ≤ a'.value (ix, iy) := by
  induction ds generalizing a with
  | nil => exact ⟨le_rfl, fun d hd => by cases hd⟩
  | cons d ds ih =>
    obtain ⟨hd, hds⟩ := forall_mem_cons.mp hds
    obtain ⟨hscan, hmono⟩ := tryStep_scanned h hc hd
    obtain ⟨hle, hall⟩ := ih hds hscan
    refine ⟨hmono.trans hle, fun d' hd' hin => ?_⟩
    obtain rfl | hd' := mem_cons.mp hd'
    · exact (tryStep_ge h hc hd hin).trans hle
    · exact hall d' hd' hin

/-- No step leads to a better quality than the one that the cell gets. -/
theorem scanCell_ge (ht : inp.Table a) (hf : inp.FilledArrays id lo hi a) (hc : inp.Next id lo hi (ix, iy)) {p : Cell}
    (hp : inp.InMatrix p) (hstep : CellStep p (ix, iy)) :
    a.value p + inp.cellCost p (ix, iy) ≤ (a.scanCell inp ix iy).value (ix, iy) := by
  have hc' : inp.Next id lo ix (ix, iy) := ⟨hc.inMatrix, hc.diagonal, hc.lo_le.trans hc.ge, le_rfl, hc.lt⟩
  have hstart : inp.Scanned id lo (ix, iy) a a := ⟨ht, hf.mono hc.ge, fun _ _ => rfl⟩
  obtain ⟨h, hleft, hbelow⟩ := initCell_scanned hstart hc'
  obtain ⟨hle, hall⟩ := tryStep_loop_ge hc' _ (fun d hd => hd) h
  have hpeq : p = (ix - (ix - p.1), iy - (iy - p.2)) := Prod.ext (sub_sub_cancel _ _).symm (sub_sub_cancel _ _).symm
  rw [CellStep] at hstep
  generalize hd : (((ix, iy) : Cell).1 - p.1, ((ix, iy) : Cell).2 - p.2) = d at hstep
  obtain ⟨hd1, hd2⟩ := Prod.ext_iff.mp hd
  simp only at hd1 hd2
  rw [hd1, hd2] at hpeq
  subst hpeq
  simp only [steps, mem_cons, not_mem_nil, or_false] at hstep
  obtain rfl | rfl | hstep := hstep
  · rw [cellCost_single inp _ _ (.inr (sub_zero iy)), add_zero, sub_zero]
    exact hleft.trans hle
  · rw [cellCost_single inp _ _ (.inl (sub_zero ix)), add_zero, sub_zero]
    exact hbelow.trans hle
  · exact hall d (by simpa using hstep) hp

/-! ## All diagonals -/

/-- The cells `lo .. hi - 1` of diagonal `id` have the quality that the best step gives them. -/
def Topped (inp : AlignInput) (id : ℕ) (lo hi : ℤ) (a0 a : PathArrays) : Prop :=
  ∀ x, lo ≤ x → x < hi → ∀ p, inp.InMatrix p → inp.InMatrix (x, id - x) → CellStep p (x, id - x) →
    a0.value p + inp.cellCost p (x, id - x) ≤ a.value (x, id - x)

theorem Topped.step (h : inp.Topped id lo hi a0 st.arrays) (hs : inp.Swept id lo hi a0 st) (hlo : lo ≤ hi)
    (hlt : hi < lo + inp.beamWidth) : inp.Topped id lo (hi + 1) a0 (inp.scanStep id st hi).arrays := by
  by_cases hin : inp.InMatrix (hi, id - hi)
  · have hcell := hin
    obtain ⟨hx0, hx, hy0, hy⟩ := hcell
    simp only at hx0 hx hy0 hy
    have hnext : inp.Next id lo hi (hi, id - hi) := ⟨hin, by simp only; omega, hlo, le_rfl, hlt⟩
    obtain ⟨hscan, -, -⟩ := scanCell_scanned hs.table hs.filled hnext
    have harrays : (inp.scanStep id st hi).arrays = st.arrays.scanCell inp hi (id - hi) := by
      rw [scanStep]
      simp only
      rw [if_neg (by omega)]
      split_ifs <;> rfl
    rw [harrays]
    intro x hlo hx p hp hc hstep
    obtain hlt | rfl : x < hi ∨ x = hi := by omega
    · rw [hscan.others (x, id - x) fun he => by rw [Prod.ext_iff] at he; simp only at he; omega]
      exact h x hlo hlt p hp hc hstep
    · have hdiag := (cellStep_lt hstep).2.2
      rw [← hs.others p (by simp only at hdiag; omega)]
      exact scanCell_ge hs.table hs.filled hnext hp hstep
  · rw [hs.outside hin]
    intro x hlo hx p hp hc hstep
    obtain hlt | rfl : x < hi ∨ x = hi := by omega
    · exact h x hlo hlt p hp hc hstep
    · exact absurd hc hin

theorem scanDiagonal_topped (ht : inp.Table st.arrays) (hf : inp.FilledArrays id lo hi st.arrays) :
    let lo' := st.xMax - (inp.beamWidth / 2 : ℕ)
    inp.Topped (id + 1) lo' (lo' + inp.beamWidth) st.arrays (inp.scanDiagonal st (id + 1)).arrays := by
  intro lo'
  have hrun : ∀ k ≤ inp.beamWidth, inp.Topped (id + 1) lo' (lo' + k) st.arrays
      (((range k).map fun k : ℕ => lo' + k).foldl (inp.scanStep (id + 1)) { arrays := st.arrays, xMax := lo' }).arrays := by
    intro k
    induction k with
    | zero =>
      intro _ x hlo hx
      push_cast at hx
      omega
    | succ k ih =>
      intro hk
      have hstep := (ih (by omega)).step (scanDiagonal_upTo ht hf k (by omega)) (by omega) (by omega)
      rw [range_succ, map_append, foldl_append, map_singleton, foldl_cons, foldl_nil]
      rw [show lo' + ((k + 1 : ℕ) : ℤ) = lo' + k + 1 by push_cast; ring]
      exact hstep
  exact hrun _ le_rfl

/-- The cells as far as diagonal `n`. -/
def Before (inp : AlignInput) (n : ℕ) (c : Cell) : Prop := inp.InMatrix c ∧ c.1 + c.2 ≤ n

/-- A beam that is wide enough covers all cells of the diagonal. -/
theorem Searched.topped {n : ℕ} (h : inp.Searched n st) (hw : inp.xRanges < inp.beamWidth / 2)
    (hd : Dominates st.arrays.value inp.cellCost CellStep (inp.Before n)) :
    Dominates (inp.scanDiagonal st (n + 1)).arrays.value inp.cellCost CellStep (inp.Before (n + 1)) := by
  obtain ⟨lo, hi, hf⟩ := h.filled
  obtain ⟨x, hle, hge, hpos⟩ := h.best
  have hin : inp.InMatrix (x, n - x) := by
    by_contra hout
    rw [hf.value_outside hout] at hpos
    exact lt_irrefl _ hpos
  obtain ⟨hx0, hx, -, -⟩ := hin
  simp only at hx0 hx
  have hs := scanDiagonal_swept h.table hf
  have htop := scanDiagonal_topped h.table hf
  simp only at hs htop
  intro p c hp hc hstep
  obtain ⟨hpx, hpy, hlt⟩ := cellStep_lt hstep
  have hcd := hc.2
  obtain ⟨hcx0, hcx, -, -⟩ := hc.1
  push_cast at hcd
  have hpval : (inp.scanDiagonal st (n + 1)).arrays.value p = st.arrays.value p :=
    hs.others p (by push_cast; omega)
  obtain hearlier | hlast : c.1 + c.2 ≤ n ∨ c.1 + c.2 = n + 1 := by omega
  · rw [hpval, hs.others c (by push_cast; omega)]
    exact hd p c ⟨hp.1, by omega⟩ ⟨hc.1, hearlier⟩ hstep
  · have hceq : c = (c.1, ((n + 1 : ℕ) : ℤ) - c.1) := Prod.ext rfl (by push_cast; omega)
    rw [hpval]
    have hgoal := htop c.1 (by omega) (by omega) p hp.1
    rw [← hceq] at hgoal
    exact hgoal hc.1 hstep

theorem forward_topped (hw : inp.xRanges < inp.beamWidth / 2) {n : ℕ} (hn : n ≤ inp.xRanges + inp.yRanges) :
    Dominates (inp.forward n).arrays.value inp.cellCost CellStep (inp.Before n) := by
  induction n with
  | zero =>
    intro p c hp hc hstep
    obtain ⟨hpx0, -, hpy0, -⟩ := hp.1
    have hlt := (cellStep_lt hstep).2.2
    have hcd := hc.2
    push_cast at hcd
    omega
  | succ n ih =>
    have hs := forward_searched (.inr hw) (show n ≤ inp.xRanges + inp.yRanges by omega)
    have htop := hs.topped hw (ih (by omega))
    rw [forward, range_succ, foldl_append]
    exact htop

theorem finalArrays_topped (hw : inp.xRanges < inp.beamWidth / 2) :
    Dominates inp.finalArrays.value inp.cellCost CellStep inp.InMatrix := by
  intro p c hp hc hstep
  have hbefore : ∀ c, inp.InMatrix c → inp.Before (inp.xRanges + inp.yRanges) c := by
    rintro c ⟨hx0, hx, hy0, hy⟩
    exact ⟨⟨hx0, hx, hy0, hy⟩, by push_cast; omega⟩
  exact forward_topped hw le_rfl p c (hbefore p hp) (hbefore c hc) hstep

/-- Every cell is reached from the origin in steps 1:0 and 0:1. -/
theorem value_pos (hd : Dominates a.value inp.cellCost CellStep inp.InMatrix) (horigin : a.value (0, 0) = 1)
    {c : Cell} (hc : inp.InMatrix c) : 0 < a.value c := by
  obtain ⟨n, hn⟩ : ∃ n : ℕ, c.1 + c.2 = n := ⟨(c.1 + c.2).toNat, by obtain ⟨hx0, -, hy0, -⟩ := hc; omega⟩
  induction n generalizing c with
  | zero =>
    obtain ⟨hx0, -, hy0, -⟩ := hc
    have hc0 : c = (0, 0) := Prod.ext (by simp only; omega) (by simp only; omega)
    rw [hc0, horigin]
    exact zero_lt_one
  | succ n ih =>
    have hcell := hc
    obtain ⟨hx0, hx, hy0, hy⟩ := hcell
    obtain hpos | hzero := lt_or_eq_of_le hx0
    · have hp : inp.InMatrix (c.1 - 1, c.2) := ⟨by simp only; omega, by simp only; omega, hy0, hy⟩
      have hle := hd (c.1 - 1, c.2) c hp hc (by simp [CellStep, steps])
      rw [cellCost_single inp (c.1 - 1, c.2) c (.inr rfl), add_zero] at hle
      exact (ih hp (by push_cast at hn; simp only; omega)).trans_le hle
    · have hp : inp.InMatrix (c.1, c.2 - 1) := ⟨hx0, hx, by push_cast at hn; simp only; omega, by simp only; omega⟩
      have hle := hd (c.1, c.2 - 1) c hp hc (by simp [CellStep, steps])
      rw [cellCost_single inp (c.1, c.2 - 1) c (.inl rfl), add_zero] at hle
      exact (ih hp (by push_cast at hn; simp only; omega)).trans_le hle

/-- The end is reached from every cell in such steps. -/
theorem value_le_end (hd : Dominates a.value inp.cellCost CellStep inp.InMatrix) {c : Cell} (hc : inp.InMatrix c) :
    a.value c ≤ a.value (inp.xRanges, inp.yRanges) := by
  obtain ⟨n, hn⟩ : ∃ n : ℕ, c.1 + c.2 + n = inp.xRanges + inp.yRanges := by
    obtain ⟨hx0, hx, hy0, hy⟩ := hc
    exact ⟨(inp.xRanges + inp.yRanges - (c.1 + c.2)).toNat, by omega⟩
  induction n generalizing c with
  | zero =>
    obtain ⟨-, hx, -, hy⟩ := hc
    have hend : c = ((inp.xRanges : ℤ), (inp.yRanges : ℤ)) := Prod.ext (by push_cast at hn; omega) (by push_cast at hn; omega)
    rw [hend]
  | succ n ih =>
    have hcell := hc
    obtain ⟨hx0, hx, hy0, hy⟩ := hcell
    push_cast at hn
    obtain hlt | hend := lt_or_eq_of_le hx
    · have hnext : inp.InMatrix (c.1 + 1, c.2) := ⟨by simp only; omega, by simp only; omega, hy0, hy⟩
      have hle := hd c (c.1 + 1, c.2) hc hnext (by simp [CellStep, steps])
      rw [cellCost_single inp c (c.1 + 1, c.2) (.inr rfl), add_zero] at hle
      exact hle.trans (ih hnext (by simp only; omega))
    · have hnext : inp.InMatrix (c.1, c.2 + 1) := ⟨hx0, hx, by simp only; omega, by simp only; omega⟩
      have hle := hd c (c.1, c.2 + 1) hc hnext (by simp [CellStep, steps])
      rw [cellCost_single inp c (c.1, c.2 + 1) (.inl rfl), add_zero] at hle
      exact hle.trans (ih hnext (by simp only; omega))

/-! ## The path -/

/-- The cell of a point. -/
def pointCell (inp : AlignInput) (p : ℤ × ℤ) : Cell := (p.1 - inp.f1, p.2 - inp.f2)

theorem totalSimilarity_eq (inp : AlignInput) (points : List (ℤ × ℤ)) :
    inp.totalSimilarity points = total inp.cellCost (points.map inp.pointCell) := by
  rw [total_map, totalSimilarity]
  congr 1
  funext p c
  simp only [cellCost, pointCell, sub_add_cancel]

theorem MonotonePath.inMatrix {points : List (ℤ × ℤ)} (h : inp.MonotonePath points) :
    ∀ c ∈ points.map inp.pointCell, inp.InMatrix c := by
  intro c hc
  obtain ⟨p, hp, rfl⟩ := mem_map.mp hc
  have hrise : points.IsChain (· ≤ ·) := by
    apply h.step.imp
    intro p c h
    obtain ⟨hx, hy⟩ := step_nonneg h
    exact ⟨sub_nonneg.mp hx, sub_nonneg.mp hy⟩
  obtain ⟨⟨hx0, hy0⟩, hx, hy⟩ := mem_Icc_of_isChain hrise h.first h.last p hp
  simp only at hx0 hy0 hx hy
  exact ⟨by simp only [pointCell]; omega, by simp only [pointCell]; omega, by simp only [pointCell]; omega,
    by simp only [pointCell]; omega⟩

/-- No path through both texts is better than the quality of their end. -/
theorem MonotonePath.le_value (hw : inp.xRanges < inp.beamWidth / 2) {points : List (ℤ × ℤ)} (h : inp.MonotonePath points) :
    1 + inp.totalSimilarity points ≤ inp.finalArrays.value (inp.xRanges, inp.yRanges) := by
  have hs := forward_searched (.inr hw) (le_refl (inp.xRanges + inp.yRanges))
  have hchain : (points.map inp.pointCell).IsChain CellStep := by
    rw [isChain_map]
    apply h.step.imp
    intro p c hstep
    rw [CellStep, pointCell, pointCell, sub_sub_sub_cancel_right, sub_sub_sub_cancel_right]
    exact hstep
  have hle := (finalArrays_topped hw).total_le h.inMatrix hchain (head?_map ▸ congrArg (Option.map inp.pointCell) h.first)
    (getLast?_map ▸ congrArg (Option.map inp.pointCell) h.last)
  rw [totalSimilarity_eq]
  simp only [pointCell, sub_self, add_sub_cancel_left] at hle
  have horigin : inp.finalArrays.value (0, 0) = 1 := hs.table.origin
  rwa [horigin] at hle

/-- The qualities of the points sum up to the similarity of the path. -/
theorem sum_quality {path : List (ℤ × ℤ × ℤ)}
    (hstep : path.IsChain fun p c => p.2.2 = inp.stepSimilarity (p.1, p.2.1) (c.1, c.2.1))
    (hlast : ∀ p ∈ path.getLast?, p.2.2 = 0) :
    (path.map (·.2.2)).sum = inp.totalSimilarity (path.map fun p => (p.1, p.2.1)) := by
  induction path with
  | nil => rfl
  | cons p path ih =>
    cases path with
    | nil => exact (add_zero _).trans (hlast p rfl)
    | cons c path =>
      obtain ⟨hq, htail⟩ := isChain_cons_cons.mp hstep
      have hrest := ih htail fun q hq => hlast q (by rwa [getLast?_cons_cons])
      rw [map_cons, sum_cons, hrest, hq]
      rfl

end AlignInput

end CWB
