import CWB.Sanity.Matchlist
import CWB.Spec.InitialMatchlist

/-! The operations on initial match lists as operations on sets of positions: restriction to
the query corpus, complement and union. The complement needs a strictly ascending list,
the others an ascending one. -/

namespace CWB

open List

/-- Some range covers the position. -/
def coveredBy (range : List Match) (cpos : ℤ) : Bool := range.any fun r => r.start ≤ cpos ∧ cpos ≤ r.stop

theorem coveredBy_cons (r : Match) (range : List Match) (cpos : ℤ) :
    coveredBy (r :: range) cpos = (decide (r.start ≤ cpos ∧ cpos ≤ r.stop) || coveredBy range cpos) := rfl

theorem QueryCorpus.contains_iff {size : ℕ} (qc : QueryCorpus size) (cpos : ℤ) :
    qc.Contains cpos ↔ coveredBy qc.range cpos = true := by
  simp [QueryCorpus.Contains, coveredBy]

theorem QueryCorpus.contains_isCpos {size : ℕ} {qc : QueryCorpus size} {cpos : ℤ} (h : qc.Contains cpos) :
    0 ≤ cpos ∧ cpos < size := by
  obtain ⟨r, hr, hstart, hstop⟩ := h
  obtain ⟨h0, h1⟩ := qc.inside r hr
  omega

/-- No range covers a position before the first start. -/
theorem coveredBy_before {r : Match} {range : List Match}
    (hs : (r :: range).Pairwise fun r r' => r.start ≤ r'.start) {cpos : ℤ} (h : cpos < r.start) :
    coveredBy (r :: range) cpos = false := by
  simp only [coveredBy, any_eq_false, decide_eq_true_eq, mem_cons]
  intro x hx
  rcases hx with rfl | hx
  · omega
  · have := (pairwise_cons.mp hs).1 x hx
    omega

/-- The cells that stay unmarked are the covered ones, in order. A range that ends before one
cell is passed for good, since the cells ascend. -/
theorem offrangeLoop_spec (start : List ℤ) (range : List Match) (hs : start.Pairwise (· ≤ ·))
    (hn : ∀ c ∈ start, 0 ≤ c) (hr : range.Pairwise fun r r' => r.start ≤ r'.start) :
    (offrangeLoop start range).1.filter (· ≠ -1) = start.filter (coveredBy range) ∧
      ((offrangeLoop start range).2 = 0 → (offrangeLoop start range).1 = start) ∧
      ∀ c ∈ (offrangeLoop start range).1, c = -1 ∨ 0 ≤ c := by
  fun_induction offrangeLoop start range with
  | case1 range => simp
  | case2 cpos start cells del heq ih =>
    obtain ⟨hf, -, hc⟩ := ih (pairwise_cons.mp hs).2 (fun c h => hn c (by simp [h])) hr
    rw [heq] at hf hc
    refine ⟨?_, by simp, ?_⟩
    · rw [filter_cons_of_neg (by simp), filter_cons_of_neg (by simp [coveredBy])]
      exact hf
    · simpa using hc
  | case3 cpos start r range hlt cells del heq ih =>
    obtain ⟨hf, -, hc⟩ := ih (pairwise_cons.mp hs).2 (fun c h => hn c (by simp [h])) hr
    rw [heq] at hf hc
    refine ⟨?_, by simp, ?_⟩
    · rw [filter_cons_of_neg (by simp), filter_cons_of_neg (by simp [coveredBy_before hr hlt])]
      exact hf
    · simpa using hc
  | case4 cpos start r range hge hgt ih =>
    obtain ⟨hf, hd, hc⟩ := ih hs hn (pairwise_cons.mp hr).2
    refine ⟨?_, hd, hc⟩
    rw [hf]
    refine filter_congr fun c hmem => ?_
    have hle : cpos ≤ c := by
      rcases mem_cons.mp hmem with rfl | h
      · exact le_rfl
      · exact (pairwise_cons.mp hs).1 c h
    rw [coveredBy_cons, decide_eq_false (by omega), Bool.false_or]
  | case5 cpos start r range hge hle cells del heq ih =>
    obtain ⟨hf, hd, hc⟩ := ih (pairwise_cons.mp hs).2 (fun c h => hn c (by simp [h])) hr
    rw [heq] at hf hd hc
    have h0 : 0 ≤ cpos := hn cpos (by simp)
    have hcov : coveredBy (r :: range) cpos = true := by
      rw [coveredBy_cons, decide_eq_true (by omega), Bool.true_or]
    refine ⟨?_, ?_, ?_⟩
    · rw [filter_cons_of_pos (by simp; omega), filter_cons_of_pos hcov, hf]
    · intro hdel
      exact congrArg (cpos :: ·) (hd hdel)
    · simpa [h0] using hc

section Restrict

variable {size : ℕ} (qc : QueryCorpus size) {start : List ℤ} (hs : start.Pairwise (· ≤ ·))
  (hr : ∀ c ∈ start, 0 ≤ c ∧ c < size)

include hs hr

theorem markOffrangeCells_spec :
    (qc.markOffrangeCells start).1.filter (· ≠ -1) = start.filter (coveredBy qc.range) ∧
      ((qc.markOffrangeCells start).2 = 0 → (qc.markOffrangeCells start).1 = start) ∧
      ∀ c ∈ (qc.markOffrangeCells start).1, c = -1 ∨ 0 ≤ c := by
  have hn : ∀ c ∈ start, 0 ≤ c := fun c hc => (hr c hc).1
  unfold QueryCorpus.markOffrangeCells
  split
  · next r hrange =>
    have hsorted : [r].Pairwise fun r r' : Match => r.start ≤ r'.start := pairwise_singleton _ _
    split_ifs with hwhole
    · refine ⟨?_, fun _ => rfl, fun c hc => .inr (hn c hc)⟩
      refine filter_congr fun c hc => ?_
      obtain ⟨h0, h1⟩ := hr c hc
      rw [hrange, decide_eq_true (by omega), coveredBy_cons, decide_eq_true (by omega), Bool.true_or]
    · rw [hrange]
      exact offrangeLoop_spec start [r] hs hn hsorted
  · exact offrangeLoop_spec start qc.range hs hn qc.sorted

/-- Restriction keeps the covered positions. -/
theorem restrict_start (inverted : Bool) :
    (qc.restrict ⟨start, inverted⟩).start = start.filter (coveredBy qc.range) := by
  obtain ⟨hf, hd, -⟩ := markOffrangeCells_spec qc hs hr
  unfold QueryCorpus.restrict
  simp only
  split_ifs with hdel
  · exact hf
  · have hsame := hd (by omega)
    rw [hsame] at hf
    simp only [hsame]
    rw [← hf]
    refine (filter_eq_self.mpr fun c hc => ?_).symm
    have := (hr c hc).1
    simp only [decide_eq_true_eq]
    omega

end Restrict

theorem restrict_isInverted {size : ℕ} (qc : QueryCorpus size) (start : List ℤ) :
    (qc.restrict ⟨start, false⟩).isInverted = false := by
  unfold QueryCorpus.restrict InitialMatchlist.reduce
  simp only
  split_ifs <;> rfl

theorem restrict_eq {size : ℕ} (qc : QueryCorpus size) {start : List ℤ} (hs : start.Pairwise (· ≤ ·))
    (hr : ∀ c ∈ start, 0 ≤ c ∧ c < size) :
    qc.restrict { start := start } = { start := start.filter (coveredBy qc.range) } := by
  have hstart := restrict_start qc hs hr false
  have hinverted := restrict_isInverted qc start
  rcases h : qc.restrict { start := start } with ⟨l, b⟩
  rw [h] at hstart hinverted
  simp only at hstart hinverted
  rw [hstart, hinverted]

theorem mem_filter_coveredBy {size : ℕ} {qc : QueryCorpus size} {start : List ℤ} {x : ℤ} (hx : qc.Contains x) :
    x ∈ start.filter (coveredBy qc.range) ↔ x ∈ start := by
  rw [mem_filter, (qc.contains_iff x).mp hx]
  simp

/-- The complement loop visits `n` positions from `k` on; a strictly ascending list never falls behind. -/
theorem complementLoop_spec (n : ℕ) (k : ℤ) (start : List ℤ) (hs : start.Pairwise (· < ·))
    (hr : ∀ x ∈ start, k ≤ x ∧ x < k + n) :
    ∃ out, complementLoop n k start = some out ∧ out.Pairwise (· < ·) ∧
      (∀ x, x ∈ out ↔ k ≤ x ∧ x < k + n ∧ x ∉ start) ∧ out.length + start.length = n := by
  -- one position copied in front of the rest
  have hcopy : ∀ {m : ℕ} {j : ℤ} {l out : List ℤ}, j ∉ l → out.Pairwise (· < ·) →
      (∀ x, x ∈ out ↔ j + 1 ≤ x ∧ x < j + 1 + m ∧ x ∉ l) →
      (j :: out).Pairwise (· < ·) ∧ ∀ x, x ∈ j :: out ↔ j ≤ x ∧ x < j + (m + 1 : ℕ) ∧ x ∉ l := by
    intro m j l out hj hsorted hmem
    refine ⟨pairwise_cons.mpr ⟨fun x hx => ?_, hsorted⟩, fun x => ?_⟩
    · have := ((hmem x).mp hx).1
      omega
    · rw [mem_cons, hmem]
      constructor
      · intro h
        rcases h with rfl | h
        · exact ⟨le_rfl, by omega, hj⟩
        · exact ⟨by omega, by omega, h.2.2⟩
      · intro h
        by_cases hx : x = j
        · exact .inl hx
        · exact .inr ⟨by omega, by omega, h.2.2⟩
  induction n generalizing k start with
  | zero =>
    obtain rfl : start = [] := eq_nil_iff_forall_not_mem.mpr fun x hx => by
      have := hr x hx
      omega
    refine ⟨[], rfl, List.Pairwise.nil, fun x => ?_, rfl⟩
    simp only [not_mem_nil, not_false_eq_true, and_true, false_iff]
    omega
  | succ n ih =>
    cases start with
    | nil =>
      obtain ⟨out, hout, hsorted, hmem, hlen⟩ := ih (k + 1) [] List.Pairwise.nil (by simp)
      obtain ⟨hsorted', hmem'⟩ := hcopy (not_mem_nil) hsorted hmem
      exact ⟨k :: out, by simp [complementLoop, hout], hsorted', hmem', by simpa using hlen⟩
    | cons s start =>
      obtain ⟨hbefore, hs'⟩ := pairwise_cons.mp hs
      have hsr := hr s (by simp)
      by_cases hlt : k < s
      · have hk : k ∉ s :: start := by
          intro hmem
          rcases mem_cons.mp hmem with rfl | hmem
          · omega
          · have := hbefore k hmem
            omega
        obtain ⟨out, hout, hsorted, hmem, hlen⟩ := ih (k + 1) (s :: start) hs fun x hx => by
          have := hr x hx
          rcases mem_cons.mp hx with rfl | h
          · omega
          · have := hbefore x h
            omega
        obtain ⟨hsorted', hmem'⟩ := hcopy hk hsorted hmem
        refine ⟨k :: out, by simp [complementLoop, hlt, hout], hsorted', hmem', ?_⟩
        simp only [length_cons] at hlen ⊢
        omega
      · obtain rfl : k = s := by omega
        obtain ⟨out, hout, hsorted, hmem, hlen⟩ := ih (k + 1) start hs' fun x hx => by
          have := hr x (mem_cons_of_mem _ hx)
          have := hbefore x hx
          omega
        refine ⟨out, by simp [complementLoop, hout], hsorted, fun x => ?_, ?_⟩
        · rw [hmem, mem_cons, not_or]
          constructor
          · intro h
            exact ⟨by omega, by omega, by omega, h.2.2⟩
          · intro h
            exact ⟨by omega, by omega, h.2.2.2⟩
        · simp only [length_cons]
          omega

theorem mem_allPositions {size : ℕ} {x : ℤ} : x ∈ allPositions size ↔ 0 ≤ x ∧ x < size := by
  simp only [allPositions, mem_map, mem_range]
  constructor
  · intro h
    obtain ⟨n, hn, rfl⟩ := h
    simp only [Int.ofNat_eq_natCast]
    omega
  · intro h
    exact ⟨x.toNat, by omega, by simp only [Int.ofNat_eq_natCast]; omega⟩

theorem sorted_allPositions (size : ℕ) : (allPositions size).Pairwise (· < ·) := by
  unfold allPositions
  rw [pairwise_map]
  exact pairwise_lt_range.imp fun h => Int.ofNat_lt.mpr h

/-- `Setop(Complement)` of a strictly ascending list. -/
theorem complement_spec {size : ℕ} {start : List ℤ} (hs : start.Pairwise (· < ·))
    (hr : ∀ x ∈ start, 0 ≤ x ∧ x < size) :
    ∃ out, InitialMatchlist.complement size ⟨start, false⟩ = some ⟨out, false⟩ ∧ out.Pairwise (· < ·) ∧
      ∀ x, x ∈ out ↔ (0 ≤ x ∧ x < size) ∧ x ∉ start := by
  obtain ⟨out, hout, hsorted, hmem, hlen⟩ := complementLoop_spec size 0 start hs (by simpa using hr)
  have hmem' : ∀ x, x ∈ out ↔ (0 ≤ x ∧ x < size) ∧ x ∉ start := by
    intro x
    rw [hmem, zero_add, and_assoc]
  unfold InitialMatchlist.complement
  simp only [Bool.false_eq_true, if_false]
  split_ifs with hzero hfull
  · obtain rfl : out = [] := length_eq_zero_iff.mp (by omega)
    exact ⟨[], rfl, List.Pairwise.nil, hmem'⟩
  · obtain rfl : start = [] := length_eq_zero_iff.mp (by omega)
    exact ⟨_, rfl, sorted_allPositions size, by simp [mem_allPositions]⟩
  · refine ⟨out, ?_, hsorted, hmem'⟩
    rw [hout, Option.bind_eq_bind, Option.bind_some, if_pos (by omega)]

/-- `Setop(Union)` of two lists that are not inverted. -/
theorem union_spec (size : ℕ) {R : ℤ → ℤ → Prop} (hlt : ∀ x y, x < y → R x y) (hle : ∀ x y, R x y → x ≤ y)
    {l l' : List ℤ} (hn : ∀ x ∈ l, 0 ≤ x) (hn' : ∀ x ∈ l', 0 ≤ x) (hs : l.Pairwise R) (hs' : l'.Pairwise R) :
    ∃ out, InitialMatchlist.union size ⟨l, false⟩ ⟨l', false⟩ = some ⟨out, false⟩ ∧ out.Pairwise R ∧
      ∀ x, x ∈ out ↔ x ∈ l ∨ x ∈ l' := by
  unfold InitialMatchlist.union
  simp only [Bool.false_eq_true, if_false, Bool.false_and, InitialMatchlist.materialise]
  split_ifs with h1 h2
  · exact ⟨l, rfl, hs, by simp [h1]⟩
  · exact ⟨l', rfl, hs', by simp [h2]⟩
  · obtain ⟨hmem, hsorted⟩ := setopUnion_starts hlt hle hn hn' hs hs'
    exact ⟨_, rfl, hsorted, hmem⟩

end CWB
