import CWB.Proofs.CqiFdist
import CWB.Spec.ExternalGroups

/-! The two implementations of the group command compared. The external one keeps the pairs of IDs that are more frequent
than the cutoff, the internal one those that reach it. -/

namespace CWB.ExternalGroups

open List Decimal Scanf Separated CWB.Group

/-! ## The vector of cells -/

/-- As many cells as fit, in whole blocks. -/
def maxCells : ℕ := 2 ^ 31 - GROUP_REALLOC

namespace CellVector

variable {v : CellVector}

/-- The cells fill all blocks but the last one. -/
def Blocks (v : CellVector) : Prop :=
  v.block = if v.countCells = [] then none else some ((v.countCells.length + (GROUP_REALLOC - 1)) / GROUP_REALLOC * GROUP_REALLOC)

theorem blocks_empty : emptyVector.Blocks := rfl

theorem Blocks.append (h : v.Blocks) (hroom : v.countCells.length < maxCells) (cell : IDCountMapping) :
    ∃ v', v.append cell = some v' ∧ v'.Blocks ∧ v'.countCells = v.countCells ++ [cell] := by
  rw [maxCells, GROUP_REALLOC] at hroom
  have hne : v.countCells ++ [cell] ≠ [] := append_ne_nil_of_right_ne_nil _ (cons_ne_nil _ _)
  have hblock : ∀ block, v.countCells.length < block →
      block = (v.countCells.length + 1 + (GROUP_REALLOC - 1)) / GROUP_REALLOC * GROUP_REALLOC →
      Blocks ⟨v.countCells ++ [cell], some block⟩ := by
    intro block _ heq
    rw [Blocks, if_neg hne, length_append, length_singleton, heq]
  simp only [GROUP_REALLOC] at hblock
  rw [CellVector.append, GROUP_REALLOC]
  rw [Blocks, GROUP_REALLOC] at h
  by_cases hnil : v.countCells = []
  · rw [if_pos hnil] at h
    have hlen : v.countCells.length = 0 := by rw [hnil]; rfl
    refine ⟨⟨v.countCells ++ [cell], some 1024⟩, ?_, hblock 1024 (by omega) (by omega), rfl⟩
    simp [h, hlen]
  · rw [if_neg hnil] at h
    have hpos := length_pos_iff.mpr hnil
    by_cases hfull : v.countCells.length % 1024 = 0
    · refine ⟨⟨v.countCells ++ [cell], some (v.countCells.length + 1024)⟩, ?_, hblock _ (by omega) (by omega), rfl⟩
      simp [h, hfull]
      omega
    · have hlt : v.countCells.length < (v.countCells.length + (1024 - 1)) / 1024 * 1024 := by omega
      refine ⟨⟨v.countCells ++ [cell], some ((v.countCells.length + (1024 - 1)) / 1024 * 1024)⟩, ?_, hblock _ hlt (by omega), rfl⟩
      rw [if_neg hfull, h, Option.bind_eq_bind, Option.bind_some]
      exact if_pos hlt

/-- The block behind the last one has no size as an `int`. -/
theorem Blocks.append_full (h : v.Blocks) (hfull : v.countCells.length = maxCells) (cell : IDCountMapping) : v.append cell = none := by
  have hnil : v.countCells ≠ [] := by
    intro hnil
    rw [hnil] at hfull
    exact absurd hfull (by decide)
  rw [Blocks, if_neg hnil] at h
  rw [CellVector.append, h]
  simp only [hfull]
  rfl

theorem Blocks.foldlM_append (h : v.Blocks) (cells : List IDCountMapping) :
    (v.countCells.length + cells.length ≤ maxCells → ∃ v', cells.foldlM CellVector.append v = some v' ∧
      v'.countCells = v.countCells ++ cells) ∧
    (v.countCells.length ≤ maxCells → maxCells < v.countCells.length + cells.length →
      cells.foldlM CellVector.append v = none) := by
  induction cells generalizing v with
  | nil =>
    refine ⟨fun _ => ⟨v, rfl, (append_nil _).symm⟩, fun hle hlt => ?_⟩
    rw [length_nil] at hlt
    exact absurd hle (not_le.mpr hlt)
  | cons cell cells ih =>
    rw [length_cons, foldlM_cons]
    obtain hroom | hfull := lt_or_ge v.countCells.length maxCells
    · obtain ⟨v', happend, hblocks, hcells⟩ := h.append hroom cell
      obtain ⟨hsome, hnone⟩ := ih hblocks
      rw [hcells, length_append, length_singleton] at hsome hnone
      rw [happend, Option.bind_eq_bind, Option.bind_some]
      refine ⟨fun hle => ?_, fun hle hlt => hnone (by omega) (by omega)⟩
      obtain ⟨v'', hrest, hcells'⟩ := hsome (by omega)
      exact ⟨v'', hrest, by rw [hcells', append_assoc]; rfl⟩
    · refine ⟨fun hle => absurd hle (by omega), fun hle _ => ?_⟩
      rw [h.append_full (le_antisymm hle hfull)]
      rfl

end CellVector

/-! ## The text -/

section Text

variable {k : ℤ × ℤ}

theorem matchLine_injective : Function.Injective matchLine := by
  intro k k' h
  have hsplit : ∀ k : ℤ × ℤ, Split.splitAtFirst 32 (matchLine k) = some (intText k.1, intText k.2) := by
    intro k
    refine Split.splitAtFirst_append fun hmem => ?_
    exact absurd (isspace_of_mem_intText hmem) (by decide)
  have heq := Option.some.inj ((hsplit k).symm.trans (h ▸ hsplit k'))
  obtain ⟨hs, ht⟩ := Prod.mk.inj heq
  exact Prod.ext (intText_injective hs) (intText_injective ht)

theorem lineBreak_notMem (k : ℤ × ℤ) : 10 ∉ matchLine k := by
  intro hmem
  obtain hmem | hmem := mem_append.mp hmem
  · exact absurd (isspace_of_mem_intText hmem) (by decide)
  · obtain hmem | hmem := mem_cons.mp hmem
    · exact absurd hmem (by decide)
    · exact absurd (isspace_of_mem_intText hmem) (by decide)

theorem groupFile_eq (group : Group) : groupFile group = closed 10 (group.idPairs.map matchLine) := by
  rw [groupFile, groupLines_eq, closed, flatMap_map]

theorem text_eq_intText (n : ℕ) : text n = intText n := by
  rw [intText, if_neg (by omega), Int.natAbs_natCast]

/-- One row of the output is read, behind the end of the row before it. -/
theorem scanInts_row {n : ℕ} {start : List UInt8} (hstart : ∀ b ∈ start, isspace b = true) (hn : n < 2 ^ 31)
    (hk : (-2 ^ 31 ≤ k.1 ∧ k.1 < 2 ^ 31) ∧ -2 ^ 31 ≤ k.2 ∧ k.2 < 2 ^ 31) (behind : List UInt8) :
    Scanf.scanInts 3 (start ++ (text n ++ 32 :: matchLine k) ++ 10 :: behind) = ([(n : ℤ), k.1, k.2], 10 :: behind) := by
  have hrow : start ++ (text n ++ 32 :: matchLine k) ++ 10 :: behind =
      start ++ (intText n ++ 32 :: (intText k.1 ++ 32 :: (intText k.2 ++ 10 :: behind))) := by
    rw [text_eq_intText, matchLine]
    simp
  rw [hrow, scanInts_cons hstart (by omega) rfl, scanInts_space hk.1 rfl, scanInts_space hk.2 rfl]
  rfl

end Text

/-! ## The loop -/

section Loop

variable {cutoffFreq freq p1 p2 : ℤ} {rounds : ℕ} {pipe pipe' : List UInt8} {v : CellVector}

theorem readCells_row (h : Scanf.scanInts 3 pipe = ([freq, p1, p2], pipe')) : readCells cutoffFreq (rounds + 1) pipe v =
    (if freq > cutoffFreq then v.append ⟨p1, p2, freq, 0⟩ else some v).bind (readCells cutoffFreq rounds pipe') := by
  rw [readCells, h]
  by_cases hkeep : freq > cutoffFreq
  · simp only [if_pos hkeep]
    rfl
  · simp only [if_neg hkeep]
    rfl

theorem readCells_end (h : Scanf.scanInts 3 pipe = ([], pipe')) : readCells cutoffFreq (rounds + 1) pipe v = some v := by
  rw [readCells, h]

/-- The cell that is read for a pair of IDs with this frequency. -/
def readCell (count : ℤ × ℤ → ℕ) (k : ℤ × ℤ) : IDCountMapping := ⟨k.1, k.2, count k, 0⟩

theorem readCells_rows (cutoffFreq : ℤ) (v : CellVector) (count : ℤ × ℤ → ℕ) (blanks : ℤ × ℤ → List UInt8) {ks : List (ℤ × ℤ)}
    (hblanks : ∀ k ∈ ks, ∀ c ∈ blanks k, c = 32) (hcount : ∀ k ∈ ks, count k < 2 ^ 31)
    (hrange : ∀ k ∈ ks, (-2 ^ 31 ≤ k.1 ∧ k.1 < 2 ^ 31) ∧ -2 ^ 31 ≤ k.2 ∧ k.2 < 2 ^ 31)
    {start : List UInt8} (hstart : start = [] ∨ start = [10]) (hrounds : ks.length < rounds) :
    readCells cutoffFreq rounds (start ++ closed 10 (ks.map fun k => blanks k ++ (text (count k) ++ 32 :: matchLine k))) v =
      ((ks.filter fun k => cutoffFreq < count k).map (readCell count)).foldlM CellVector.append v := by
  induction ks generalizing rounds start v with
  | nil =>
    obtain ⟨rounds, rfl⟩ := Nat.exists_eq_add_one_of_ne_zero (Nat.ne_of_gt hrounds)
    have hblank : ∀ b ∈ start ++ closed 10 ([] : List (List UInt8)), isspace b = true := by
      obtain rfl | rfl := hstart
      · exact forall_mem_nil _
      · exact forall_mem_singleton.mpr rfl
    exact readCells_end (scanInts_blanks hblank)
  | cons k ks ih =>
    obtain ⟨rounds, rfl⟩ := Nat.exists_eq_add_one_of_ne_zero (Nat.ne_zero_of_lt hrounds)
    obtain ⟨hblank, hblanks⟩ := forall_mem_cons.mp hblanks
    obtain ⟨hc, hcount⟩ := forall_mem_cons.mp hcount
    obtain ⟨hk, hrange⟩ := forall_mem_cons.mp hrange
    have hspace : ∀ b ∈ start ++ blanks k, isspace b = true := by
      intro b hb
      obtain hb | hb := mem_append.mp hb
      · obtain rfl | rfl := hstart
        · exact absurd hb not_mem_nil
        · rw [mem_singleton.mp hb]
          rfl
      · rw [hblank b hb]
        rfl
    have hscan := scanInts_row hspace hc hk (closed 10 (ks.map fun k => blanks k ++ (text (count k) ++ 32 :: matchLine k)))
    rw [map_cons, closed_cons, ← append_assoc, ← append_assoc, readCells_row hscan]
    have hrest := fun v => ih v hblanks hcount hrange (.inr rfl) (Nat.lt_of_succ_lt_succ hrounds)
    by_cases hkeep : (count k : ℤ) > cutoffFreq
    · rw [if_pos hkeep, filter_cons_of_pos (by simpa using hkeep), map_cons, foldlM_cons]
      exact congrArg (Option.bind _) (funext hrest)
    · rw [if_neg hkeep, filter_cons_of_neg (by simpa using hkeep), Option.bind_some]
      exact hrest v

end Loop

/-! ## The cells -/

section Cells

variable {group : Group} {fill : FillRate} {command : List UInt8 → Option (List UInt8)}

/-- The pairs that the external implementation keeps. -/
def keptPairs (group : Group) : List (ℤ × ℤ) := group.idPairs.dedup.filter fun k => group.cutoffFrequency < group.idPairs.count k

theorem idPairs_range {k : ℤ × ℤ} (hk : k ∈ group.idPairs) :
    (-2 ^ 31 ≤ k.1 ∧ k.1 < 2 ^ 31) ∧ -2 ^ 31 ≤ k.2 ∧ k.2 < 2 ^ 31 := by
  obtain ⟨m, -, rfl⟩ := mem_map.mp hk
  exact group.ids_range m

/-- The text of the output is that of some order of the pairs. -/
theorem output_eq (hcommand : CountsLines command) (group : Group) : ∃ (ks : List (ℤ × ℤ)) (blanks : ℤ × ℤ → List UInt8),
    ks.Perm group.idPairs.dedup ∧ (∀ k, ∀ c ∈ blanks k, c = 32) ∧ command (groupFile group) =
      some (closed 10 (ks.map fun k => blanks k ++ (text (group.idPairs.count k) ++ 32 :: matchLine k))) := by
  obtain ⟨rows, blanks, hperm, hblanks, hout⟩ := hcommand (group.idPairs.map matchLine)
    (forall_mem_map.mpr fun k _ => lineBreak_notMem k)
  rw [dedup_map_of_injective matchLine_injective] at hperm
  obtain ⟨ks, rfl⟩ : ∃ ks : List (ℤ × ℤ), ks.map matchLine = rows := by
    have hrange : rows ∈ Set.range (List.map matchLine) := by
      rw [Set.range_list_map]
      intro row hrow
      obtain ⟨k, -, hk⟩ := mem_map.mp (hperm.subset hrow)
      exact ⟨k, hk⟩
    exact hrange
  refine ⟨ks, fun k => blanks (matchLine k), (map_perm_map_iff matchLine_injective).mp hperm, fun k => hblanks _, ?_⟩
  rw [groupFile_eq, hout, List.map_map]
  congr 2
  apply map_congr_left
  intro k _
  rw [Function.comp_apply, countLine, count_map_of_injective _ _ matchLine_injective]

/-- What is read are the cells of the pairs that are more frequent than the cutoff, if their number is an `int`. The text
stands for the lines of `Group.computeGroupExternally`. -/
theorem computeGroupExternally_spec (hcommand : CountsLines command) (group : Group) :
    ∃ output : List (ℤ × ℤ × ℤ), output.Perm (group.idPairs.dedup.map fun k => ((group.idPairs.count k : ℤ), k.1, k.2)) ∧
      computeGroupExternally group command =
        if (keptPairs group).length ≤ maxCells then some (group.computeGroupExternally fun _ => some output) else none := by
  obtain ⟨ks, blanks, hperm, hblanks, hout⟩ := output_eq hcommand group
  refine ⟨ks.map fun k => ((group.idPairs.count k : ℤ), k.1, k.2), hperm.map _, ?_⟩
  have hks : ∀ k ∈ ks, k ∈ group.idPairs := fun k hk => mem_dedup.mp (hperm.subset hk)
  have hlength : ks.length < (closed 10 (ks.map fun k => blanks k ++ (text (group.idPairs.count k) ++ 32 :: matchLine k))).length + 1 := by
    refine Nat.lt_succ_of_le (le_trans (le_of_eq ?_) (length_le_closed _))
    rw [length_map]
  have hread := readCells_rows group.cutoffFrequency emptyVector group.idPairs.count blanks
    (fun k _ => hblanks k) (fun k _ => group.freq_range k) (fun k hk => idPairs_range (hks k hk)) (.inl rfl) hlength
  rw [nil_append] at hread
  have hkept : (keptPairs group).length =
      ((ks.filter fun k => group.cutoffFrequency < group.idPairs.count k).map (readCell group.idPairs.count)).length := by
    rw [length_map]
    exact (hperm.symm.filter _).length_eq
  obtain ⟨hsome, hnone⟩ := CellVector.blocks_empty.foldlM_append
    ((ks.filter fun k => group.cutoffFrequency < group.idPairs.count k).map (readCell group.idPairs.count))
  rw [computeGroupExternally, hout]
  simp only
  rw [hread, hkept]
  split_ifs with hfits
  · obtain ⟨v, hv, hcells⟩ := hsome (by rw [show emptyVector.countCells.length = 0 from rfl, Nat.zero_add]; exact hfits)
    rw [hv, Option.map_some, hcells, Group.computeGroupExternally, Option.getD_some, filter_map, map_map]
    rfl
  · rw [hnone (Nat.zero_le _) (by rw [show emptyVector.countCells.length = 0 from rfl, Nat.zero_add]; exact not_le.mp hfits)]
    rfl

theorem mem_internal {cells : List IDCountMapping} (h : group.computeGroupInternally fill = some cells) (cell : ℤ × ℤ × ℤ) :
    cell ∈ cells.map triple ↔ ∃ k ∈ group.idPairs, group.cutoffFrequency % 2 ^ 32 ≤ (group.idPairs.count k : ℤ) ∧
      (k.1, k.2, (group.idPairs.count k : ℤ)) = cell := by
  obtain ⟨cells', hcells, hperm, -⟩ := group.computeGroupInternally_spec fill
  obtain rfl := Option.some.inj (hcells.symm.trans h)
  rw [(hperm.map _).mem_iff]
  constructor
  · intro hmem
    obtain ⟨c, hc, rfl⟩ := mem_map.mp hmem
    obtain ⟨hc, hcut⟩ := mem_filter.mp hc
    obtain ⟨k, hk, rfl⟩ := mem_map.mp hc
    exact ⟨k, mem_dedup.mp hk, decide_eq_true_iff.mp hcut, rfl⟩
  · rintro ⟨k, hk, hcut, rfl⟩
    have hcell : group.cellAt k ∈ group.idPairs.dedup.map group.cellAt := mem_map_of_mem (mem_dedup.mpr hk)
    exact mem_map.mpr ⟨group.cellAt k, mem_filter.mpr ⟨hcell, decide_eq_true hcut⟩, rfl⟩

theorem mem_external (hcommand : CountsLines command) {cells : List IDCountMapping}
    (h : computeGroupExternally group command = some cells) :
    (keptPairs group).length ≤ maxCells ∧ ∀ cell, cell ∈ cells.map triple ↔
      ∃ k ∈ group.idPairs, group.cutoffFrequency < (group.idPairs.count k : ℤ) ∧ (k.1, k.2, (group.idPairs.count k : ℤ)) = cell := by
  obtain ⟨output, hperm, hrun⟩ := computeGroupExternally_spec hcommand group
  rw [hrun] at h
  split_ifs at h with hfits
  obtain rfl := Option.some.inj h
  refine ⟨hfits, fun cell => ?_⟩
  rw [Group.computeGroupExternally, Option.getD_some, map_map, mem_map]
  constructor
  · rintro ⟨line, hline, rfl⟩
    obtain ⟨hline, hcut⟩ := mem_filter.mp hline
    obtain ⟨k, hk, rfl⟩ := mem_map.mp (hperm.subset hline)
    exact ⟨k, mem_dedup.mp hk, by simpa using hcut, rfl⟩
  · rintro ⟨k, hk, hcut, rfl⟩
    have hline := hperm.symm.subset (mem_map_of_mem (mem_dedup.mpr hk))
    exact ⟨_, mem_filter.mpr ⟨hline, by simpa using hcut⟩, rfl⟩

/-- Both implementations have the same cells exactly if the cutoff is not negative, no pair of IDs occurs exactly as often
as the cutoff, and the number of cells fits into an `int` by whole blocks. -/
theorem sameCells_iff (group : Group) (fill : FillRate) (hcommand : CountsLines command) :
    SameCells group fill command ↔ 0 ≤ group.cutoffFrequency ∧
      (∀ k ∈ group.idPairs, (group.idPairs.count k : ℤ) ≠ group.cutoffFrequency) ∧ (keptPairs group).length ≤ maxCells := by
  constructor
  · rintro ⟨internal, external, hinternal, hexternal, hsame⟩
    obtain ⟨hfits, hmem⟩ := mem_external hcommand hexternal
    have hiff : ∀ k ∈ group.idPairs, (group.cutoffFrequency < (group.idPairs.count k : ℤ) ↔
        group.cutoffFrequency % 2 ^ 32 ≤ (group.idPairs.count k : ℤ)) := by
      intro k hk
      have hcell := hsame (k.1, k.2, (group.idPairs.count k : ℤ))
      rw [mem_internal hinternal, hmem] at hcell
      constructor
      · intro hlt
        obtain ⟨k', -, hcut, heq⟩ := hcell.mpr ⟨k, hk, hlt, rfl⟩
        obtain rfl : k' = k := Prod.ext (Prod.mk.inj heq).1 (Prod.mk.inj (Prod.mk.inj heq).2).1
        exact hcut
      · intro hle
        obtain ⟨k', -, hcut, heq⟩ := hcell.mp ⟨k, hk, hle, rfl⟩
        obtain rfl : k' = k := Prod.ext (Prod.mk.inj heq).1 (Prod.mk.inj (Prod.mk.inj heq).2).1
        exact hcut
    obtain ⟨hlow, hhigh⟩ := group.cutoff_range
    have hcutoff : 0 ≤ group.cutoffFrequency := by
      -- a negative cutoff is a large unsigned number
      obtain ⟨m, hm⟩ := exists_mem_of_ne_nil _ group.nonempty
      have hk : group.ids m ∈ group.idPairs := mem_map_of_mem hm
      have hlt := group.freq_range (group.ids m)
      have hsame := hiff _ hk
      by_contra hneg
      omega
    refine ⟨hcutoff, fun k hk heq => ?_, hfits⟩
    have hsame := hiff k hk
    omega
  · rintro ⟨hcutoff, hne, hfits⟩
    obtain ⟨internal, hinternal, -⟩ := group.computeGroupInternally_spec fill
    obtain ⟨output, -, hrun⟩ := computeGroupExternally_spec hcommand group
    rw [if_pos hfits] at hrun
    refine ⟨internal, _, hinternal, hrun, fun cell => ?_⟩
    rw [mem_internal hinternal, (mem_external hcommand hrun).2]
    obtain ⟨hlow, hhigh⟩ := group.cutoff_range
    have hcut : ∀ k ∈ group.idPairs, (group.cutoffFrequency % 2 ^ 32 ≤ (group.idPairs.count k : ℤ) ↔
        group.cutoffFrequency < (group.idPairs.count k : ℤ)) := by
      intro k hk
      have hk' := hne k hk
      omega
    constructor
    · rintro ⟨k, hk, hle, hcell⟩
      exact ⟨k, hk, (hcut k hk).mp hle, hcell⟩
    · rintro ⟨k, hk, hlt, hcell⟩
      exact ⟨k, hk, (hcut k hk).mpr hlt, hcell⟩

end Cells

/-! ## A command that counts lines -/

/-- The frequencies of `uniq -c` are printed with `%7d`. -/
def padding (lines : List (List UInt8)) (line : List UInt8) : List UInt8 :=
  replicate (7 - (text (lines.count line)).length) 32

/-- What `uniq -c` makes of sorted lines, with the lines in another order. -/
def countDistinct (file : List UInt8) : Option (List UInt8) :=
  let lines := (file.splitOn 10).dropLast
  some (closed 10 (lines.dedup.map fun line => countLine lines (padding lines line) line))

theorem countDistinct_countsLines : CountsLines countDistinct := by
  intro lines hlines
  refine ⟨lines.dedup, padding lines, List.Perm.refl _, fun _ _ => eq_of_mem_replicate, ?_⟩
  rw [countDistinct, splitOn_closed, flatMap_splitOn hlines, dropLast_concat]

theorem sameCells_ab : SameCells (Cqi.abGroup 0) abFill countDistinct ↔ 0 ≤ (Cqi.abGroup 0).cutoffFrequency ∧
    (∀ k ∈ (Cqi.abGroup 0).idPairs, ((Cqi.abGroup 0).idPairs.count k : ℤ) ≠ (Cqi.abGroup 0).cutoffFrequency) ∧
      (keptPairs (Cqi.abGroup 0)).length ≤ maxCells :=
  sameCells_iff (Cqi.abGroup 0) abFill countDistinct_countsLines

/-- A single match with cutoff 1 is a cell only for the internal implementation. -/
theorem not_sameCells_ab : ¬∀ (group : Group) (fill : FillRate) (command : List UInt8 → Option (List UInt8)),
    CountsLines command → SameCells group fill command := by
  intro h
  obtain ⟨internal, external, hinternal, hexternal, hsame⟩ := h (Cqi.abGroup 1) abFill countDistinct countDistinct_countsLines
  have hcell : ((-1, 0, 1) : ℤ × ℤ × ℤ) ∈ internal.map triple := (mem_internal hinternal _).mpr ⟨(-1, 0), by decide, by decide, rfl⟩
  obtain ⟨k, hk, hcut, -⟩ := ((mem_external countDistinct_countsLines hexternal).2 _).mp ((hsame _).mp hcell)
  have hpairs : (Cqi.abGroup 1).idPairs = [(-1, 0)] := by decide
  rw [hpairs, mem_singleton] at hk
  rw [hk, hpairs] at hcut
  exact absurd hcut (by decide)

end CWB.ExternalGroups
