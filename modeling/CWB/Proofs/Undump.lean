import CWB.Sanity.QueryResult
import CWB.Proofs.SetOperations

/-! Undump, then dump: the rows come back in their order, whatever `RangeSort` made of the
vectors in between. -/

namespace CWB

open List

variable {rows : List Match}

namespace Undump

variable (u : Undump)

/-- A row that an undump may be given; anchors without a field of their own are -1. -/
structure RowOk (m : Match) : Prop where
  start_nonneg : 0 ≤ m.start
  start_le : m.start ≤ m.stop
  stop_lt : m.stop < u.motherSize
  target_ge : -1 ≤ m.target
  target_lt : m.target < u.motherSize
  keyword_ge : -1 ≤ m.keyword
  keyword_lt : m.keyword < u.motherSize
  target_none : u.extensionFields.val < 1 → m.target = -1
  keyword_none : u.extensionFields.val < 2 → m.keyword = -1

/-- The fields of a row in the table. -/
def rowFields (m : Match) : List UndumpField :=
  ([m.start, m.stop, m.target, m.keyword].take (2 + u.extensionFields.val)).map .int

/-- The stream holds these rows, after a line with their number or, in a file, without it. -/
def Holds (rows : List Match) : Prop :=
  u.lines = [.int rows.length] :: rows.map u.rowFields ∨
    u.stdin = false ∧ rows ≠ [] ∧ u.lines = rows.map u.rowFields

variable {u} {m : Match}

theorem scanRow_rowFields : scanRow (u.rowFields m) = 2 + u.extensionFields.val := by
  have h := u.extensionFields.isLt
  unfold rowFields
  interval_cases hx : u.extensionFields.val <;> rfl

theorem scanInts_rowFields (h : u.RowOk m) :
    (⟨(scanInts 4 (u.rowFields m)).getD 0 0, (scanInts 4 (u.rowFields m)).getD 1 0,
      (scanInts 4 (u.rowFields m)).getD 2 (-1), (scanInts 4 (u.rowFields m)).getD 3 (-1)⟩ : Match) = m := by
  have hlt := u.extensionFields.isLt
  have ht := h.target_none
  have hk := h.keyword_none
  unfold rowFields
  cases m
  interval_cases hx : u.extensionFields.val <;> simp_all [scanInts]

theorem rowErrors_nil (h : u.RowOk m) (hs : u.sortRanges = true) (mark : ℤ) (row : ℕ) :
    u.rowErrors mark row m = [] := by
  have hmax : u.maxCpos = u.motherSize - 1 := rfl
  have h1 := h.start_nonneg
  have h2 := h.start_le
  have h3 := h.stop_lt
  have h4 := h.target_ge
  have h5 := h.target_lt
  have h6 := h.keyword_ge
  have h7 := h.keyword_lt
  unfold rowErrors
  rw [if_neg (by omega), if_neg (by omega), if_neg (by simp [hs]), if_neg (by omega), if_neg (by omega)]
  rfl

theorem readRows_rows (hs : u.sortRanges = true) (h : ∀ m ∈ rows, u.RowOk m) (i : ℕ) (mark : ℤ) :
    u.readRows rows.length i mark (rows.map u.rowFields) = .ok rows := by
  induction rows generalizing i mark with
  | nil => rfl
  | cons m rest ih =>
    have hm := h m (by simp)
    simp only [length_cons, map_cons, readRows, scanRow_rowFields, ne_eq, not_true, if_false,
      scanInts_rowFields hm, rowErrors_nil hm hs, ih fun m' hm' => h m' (by simp [hm'])]
    rfl

theorem tableSize_holds (h : u.Holds rows) :
    u.tableSize = some (rows.length, rows.map u.rowFields) := by
  obtain hl | ⟨hstdin, hne, hl⟩ := h
  · simp [tableSize, hl, scanHeader, scanInts]
  · obtain ⟨m, rest, rfl⟩ := exists_cons_of_ne_nil hne
    have hfirst : scanHeader (u.rowFields m) = 2 ∧ (scanInts 2 (u.rowFields m)).length = 2 := by
      have hlt := u.extensionFields.isLt
      unfold rowFields
      interval_cases hx : u.extensionFields.val <;> exact ⟨rfl, rfl⟩
    rw [map_cons] at hl
    simp [tableSize, hl, hfirst.1, hfirst.2, hstdin]

theorem doUndump_holds (hs : u.sortRanges = true) (h : ∀ m ∈ rows, u.RowOk m)
    (hl : u.Holds rows) : u.doUndump = .ok { (u.filled rows).rangeSort true with type := .sub } := by
  simp only [doUndump, tableSize_holds hl, readRows_rows hs h, hs, if_true]
  rfl

theorem lines_filled (h : ∀ m ∈ rows, u.RowOk m) : (u.filled rows).lines = rows := by
  refine QueryResult.lines_of_vectors rfl ?_ ?_
  · by_cases hx : 1 ≤ u.extensionFields.val
    · exact .inl (if_pos hx)
    · exact .inr ⟨if_neg hx, fun m hm => (h m hm).target_none (by omega)⟩
  · by_cases hx : 2 ≤ u.extensionFields.val
    · exact .inl (if_pos hx)
    · exact .inr ⟨if_neg hx, fun m hm => (h m hm).keyword_none (by omega)⟩

end Undump

namespace QueryResult

/-- A dump of all rows follows the sort index. -/
theorem doDump_all (c : QueryResult) {first last : ℤ} (hf : first ≤ 0) (hl : (c.size : ℤ) - 1 ≤ last) :
    c.doDump first last = (List.range c.size).map fun i => (c.line (c.realLine i)).row := by
  have h1 : (if first ≥ 0 then first else 0) = 0 := by split_ifs <;> omega
  have h2 : (if last < c.size then last else (c.size : ℤ) - 1) = c.size - 1 := by split_ifs <;> omega
  have h3 : ((c.size : ℤ) - 1 + 1 - 0).toNat = c.size := by omega
  simp only [doDump, h1, h2, h3, Int.toNat_zero, Nat.zero_add]

theorem qsortIndex_sorted (c : QueryResult) :
    ((qsortIndex c.size c.rsCompareRanges).map c.line).Pairwise fun a b => CWB.rsCompareRanges a b ≤ 0 := by
  have hsorted : (qsortIndex c.size c.rsCompareRanges).Pairwise fun i j => rsLe (c.line i) (c.line j) = true := by
    have htrans : ∀ i j k, rsLe (c.line i) (c.line j) = true → rsLe (c.line j) (c.line k) = true →
        rsLe (c.line i) (c.line k) = true := by
      intro i j k hij hjk
      rw [rsLe_iff] at *
      omega
    have htotal : ∀ i j, (rsLe (c.line i) (c.line j) || rsLe (c.line j) (c.line i)) = true := by
      intro i j
      rw [Bool.or_eq_true, rsLe_iff, rsLe_iff]
      omega
    exact pairwise_mergeSort htrans htotal _
  rw [pairwise_map]
  exact hsorted.imp fun h => of_decide_eq_true h

end QueryResult

open QueryResult in
/-- The rows of a table come back from the query result that it was read into. -/
theorem doDump_doUndump (u : Undump) (hs : u.sortRanges = true) (rows : List Match)
    (h : ∀ m ∈ rows, u.RowOk m) (hl : u.Holds rows) :
    ∃ c, u.doUndump = .ok c ∧
      (∀ first last : ℤ, first ≤ 0 → (c.size : ℤ) - 1 ≤ last →
        c.doDump first last = rows.map Match.row) ∧
      c.lines.Pairwise (fun a b => CWB.rsCompareRanges a b ≤ 0) ∧ c.lines.Perm rows ∧
      (c.targets = if 1 ≤ u.extensionFields.val then some (c.lines.map Match.target) else none) ∧
      (c.keywords = if 2 ≤ u.extensionFields.val then some (c.lines.map Match.keyword) else none) ∧
      ∃ idx, c.sortidx = some idx ∧ idx.Perm (List.range c.size) ∧ idx.map c.line = rows := by
  have htype : (u.filled rows).type ≠ .system := by simp [Undump.filled]
  have hperm := qsortIndex_perm (u.filled rows).size (u.filled rows).rsCompareRanges
  have hlines : (u.filled rows).lines = rows := Undump.lines_filled h
  set index := qsortIndex (u.filled rows).size (u.filled rows).rsCompareRanges with hindex
  set c : QueryResult := { (u.filled rows).unsorted index with type := .sub } with hc
  have hcl : c.lines = index.map (u.filled rows).line := (u.filled rows).lines_reindex index
  have hshown := unsorted_shown hperm
  have hsize : c.size = (u.filled rows).size := size_unsorted hperm
  have hsound : c.Sound := ⟨(sound_unsorted hperm).targets, (sound_unsorted hperm).keywords, (sound_unsorted hperm).sortidx⟩
  refine ⟨c, ?_, fun first last hf hlast => ?_, ?_, ?_, ?_, ?_, _, rfl, ?_, hshown.trans hlines⟩
  · rw [Undump.doUndump_holds hs h hl, rangeSort_true _ htype]
  · have hlen : ((List.range (u.filled rows).size).map index.idxOf).length = c.size := by simp [hsize]
    rw [c.doDump_all hf hlast, ← hshown.trans hlines, map_map]
    exact map_realLine rfl hlen (Match.row ∘ c.line)
  · rw [hcl]; exact (u.filled rows).qsortIndex_sorted
  · rw [← hlines]; exact lines_unsorted_perm hperm
  · rw [hsound.targets_eq]
    by_cases hx : 1 ≤ u.extensionFields.val
    · simp [hc, unsorted, reindex, Undump.filled, hx]
    · simp [hc, unsorted, reindex, Undump.filled, hx]
  · rw [hsound.keywords_eq]
    by_cases hx : 2 ≤ u.extensionFields.val
    · simp [hc, unsorted, reindex, Undump.filled, hx]
    · simp [hc, unsorted, reindex, Undump.filled, hx]
  · rw [hsize]; exact IndexVector.perm_inverse hperm

/-- Two rows with a target column, the second before the first in the corpus. -/
def sampleUndump : Undump :=
  { motherSize := 10
    extensionFields := 1
    lines := [[.int 3], [.int 5, .int 7, .int 6], [.int 1, .int 2, .int (-1)], [.int 5, .int 7, .int 6]] }

theorem doDump_sampleUndump :
    ∃ c, sampleUndump.doUndump = .ok c ∧
      (∀ first last : ℤ, first ≤ 0 → (c.size : ℤ) - 1 ≤ last →
        c.doDump first last = ([⟨5, 7, 6, -1⟩, ⟨1, 2, -1, -1⟩, ⟨5, 7, 6, -1⟩] : List Match).map Match.row) ∧
      c.lines.Pairwise (fun a b => CWB.rsCompareRanges a b ≤ 0) ∧
      c.lines.Perm [⟨5, 7, 6, -1⟩, ⟨1, 2, -1, -1⟩, ⟨5, 7, 6, -1⟩] ∧
      (c.targets = if 1 ≤ sampleUndump.extensionFields.val then some (c.lines.map Match.target) else none) ∧
      (c.keywords = if 2 ≤ sampleUndump.extensionFields.val then some (c.lines.map Match.keyword) else none) ∧
      ∃ idx, c.sortidx = some idx ∧ idx.Perm (List.range c.size) ∧
        idx.map c.line = [⟨5, 7, 6, -1⟩, ⟨1, 2, -1, -1⟩, ⟨5, 7, 6, -1⟩] := by
  refine doDump_doUndump sampleUndump rfl _ (fun m hm => ?_) (.inl rfl)
  simp only [mem_cons, not_mem_nil, or_false] at hm
  obtain rfl | rfl | rfl := hm
  all_goals exact ⟨by decide, by decide, by decide, by decide, by decide, by decide, by decide, by decide, by decide⟩

end CWB
