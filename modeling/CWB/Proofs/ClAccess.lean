import CWB.Spec.ClAccess
import Mathlib.Algebra.Order.BigOperators.Group.List

/-! The positions of the items of a list. `cl_idlist2cpos` adds up their frequencies in an `int`
before it fills a table with the positions. -/

namespace CWB.Cqi

open List

/-- The errors that `send_cl_error` can send. -/
def Cda.mapped (e : Cda) : Bool :=
  e ∈ [.eatttype, .eidorng, .eidxorng, .eposorng, .epattern, .ebadregex, .enodata, .enomem, .eother, .enyi]

namespace PosAttribute

def Loads (a : PosAttribute) (components : List PosComponent) : Prop := ∀ c ∈ components, a.ensureComponent c = true

def HasId (a : PosAttribute) (id : ℤ) : Prop := 0 ≤ id ∧ id < a.lexicon.length

def HasCpos (a : PosAttribute) (cpos : ℤ) : Prop := 0 ≤ cpos ∧ cpos < a.ids.length

/-- The number of positions with one of the items. -/
def total (a : PosAttribute) (ids : List ℤ) : ℤ := (ids.map fun id => (a.ids.count id.toNat : ℤ)).sum

/-- The number of positions as `cl_idlist2freq` returns it. -/
def sum32 (a : PosAttribute) (ids : List ℤ) : ℤ := (BitVec.ofInt 32 (a.total ids)).toInt

variable {a : PosAttribute} {id : ℤ} {ids : List ℤ}

theorem loads_nil : a.Loads [] ↔ True := by
  simp [Loads]

theorem loads_cons {c : PosComponent} {cs : List PosComponent} :
    a.Loads (c :: cs) ↔ a.ensureComponent c = true ∧ a.Loads cs := by
  simp [Loads]

theorem count_pos (h : a.HasId id) : 0 < a.ids.count id.toNat := by
  have hnonneg := h.1
  have hlt := h.2
  rw [count_pos_iff]
  apply a.occurs
  omega

theorem ids_ne_nil (h : a.HasId id) : a.ids ≠ [] := by
  intro hnil
  have hpos := count_pos h
  rw [hnil] at hpos
  exact absurd hpos (by simp)

theorem total_nonneg : 0 ≤ a.total ids := by
  apply sum_nonneg
  intro n hn
  obtain ⟨id, -, rfl⟩ := mem_map.mp hn
  exact Int.natCast_nonneg _

theorem total_cons : a.total (id :: ids) = a.ids.count id.toNat + a.total ids := by
  simp [total]

theorem total_pos (hne : ids ≠ []) (h : ∀ id ∈ ids, a.HasId id) : 0 < a.total ids := by
  obtain ⟨id, rest, rfl⟩ := exists_cons_of_ne_nil hne
  have hcount := count_pos (h id (by simp))
  have hrest := @total_nonneg a rest
  rw [total_cons]
  omega

theorem sum32_of_lt (h : a.total ids < 2 ^ 31) : a.sum32 ids = a.total ids := by
  have hnonneg := @total_nonneg a ids
  unfold sum32
  rw [BitVec.toInt_ofInt, Int.bmod_eq_of_le (by omega) (by omega)]

theorem sum32_lt : a.sum32 ids < 2 ^ 31 := BitVec.toInt_lt

theorem positions_length (n : ℕ) : (a.positions n).length = a.ids.count n := by
  have hids : (range a.ids.length).map (fun cpos => a.ids[cpos]?) = a.ids.map some := by
    apply ext_getElem
    · simp
    · intro i hi hi'
      simp
  calc (a.positions n).length = (range a.ids.length).countP fun cpos => decide (a.ids[cpos]? = some n) := by
        rw [countP_eq_length_filter]
        rfl
    _ = (a.ids.map some).count (some n) := by
        rw [← hids, List.count, countP_map]
        congr 1
        funext cpos
        exact (Bool.beq_eq_decide_eq _ _).symm
    _ = a.ids.count n := count_map_of_injective _ _ (Option.some_injective ℕ) n

theorem positions_length_lt (n : ℕ) : (a.positions n).length < 2 ^ 31 := by
  rw [positions_length]
  exact lt_of_le_of_lt count_le_length a.length_lt

/-- Every item of the lexicon occurs. -/
theorem lexicon_length_le : a.lexicon.length ≤ a.ids.length := by
  have hsub : range a.lexicon.length ⊆ a.ids := fun id hid => a.occurs id (mem_range.mp hid)
  calc a.lexicon.length = (range a.lexicon.length).length := length_range.symm
    _ ≤ a.ids.length := (nodup_range.subperm hsub).length_le

end PosAttribute

open PosAttribute

variable {a : PosAttribute} {id : ℤ} {ids : List ℤ}

theorem clId2freq_of_hasId (hload : a.ensureComponent .freqs = true) (h : a.HasId id) :
    clId2freq (.pos a) id = ((a.ids.count id.toNat : ℤ), Cda.ok) := by
  simp only [clId2freq, hload, not_true_eq_false, if_false, if_pos (show 0 ≤ id ∧ id < a.lexicon.length from h)]

theorem clId2freq_fail (h : ¬(a.ensureComponent .freqs = true ∧ a.HasId id)) :
    ∃ e : Cda, e.mapped = true ∧ e ≠ .ok ∧ clId2freq (.pos a) id = e.fail := by
  by_cases hload : a.ensureComponent .freqs = true
  · have hid : ¬(0 ≤ id ∧ id < a.lexicon.length) := fun hid => h ⟨hload, hid⟩
    exact ⟨.eidxorng, rfl, by decide, by simp only [clId2freq, hload, not_true_eq_false, if_false, if_neg hid]⟩
  · exact ⟨.enodata, rfl, by decide, by simp only [clId2freq, if_pos hload]⟩

theorem idlist2freqLoop_ok (hload : a.ensureComponent .freqs = true) (h : ∀ id ∈ ids, a.HasId id) (sum : CInt) :
    idlist2freqLoop (.pos a) sum ids = ((sum + BitVec.ofInt 32 (a.total ids)).toInt, .ok) := by
  induction ids generalizing sum with
  | nil => simp [idlist2freqLoop, total]
  | cons id ids ih =>
    simp only [idlist2freqLoop, clId2freq_of_hasId hload (h id (by simp)), ne_eq, not_true_eq_false, if_false]
    rw [ih (fun id hid => h id (by simp [hid])), total_cons, BitVec.ofInt_add, BitVec.add_assoc]

theorem idlist2freqLoop_fail (h : ∃ id ∈ ids, ¬(a.ensureComponent .freqs = true ∧ a.HasId id)) (sum : CInt) :
    ∃ e : Cda, e.mapped = true ∧ e ≠ .ok ∧ idlist2freqLoop (.pos a) sum ids = e.fail := by
  induction ids generalizing sum with
  | nil => simp at h
  | cons id ids ih =>
    by_cases hid : a.ensureComponent .freqs = true ∧ a.HasId id
    · obtain ⟨id', hmem, hfail⟩ := h
      have hrest : id' ∈ ids := by
        rcases mem_cons.mp hmem with rfl | hmem
        · exact absurd hid hfail
        · exact hmem
      simp only [idlist2freqLoop, clId2freq_of_hasId hid.1 hid.2, ne_eq, not_true_eq_false, if_false]
      exact ih ⟨id', hrest, hfail⟩ _
    · obtain ⟨e, hmapped, hne, heq⟩ := clId2freq_fail hid
      exact ⟨e, hmapped, hne, by simp only [idlist2freqLoop, heq, Cda.fail, ne_eq, hne, not_false_eq_true, if_true]⟩

theorem clMaxCpos_of_loaded (hload : a.ensureComponent .sequence = true) : clMaxCpos (.pos a) = ((a.ids.length : ℤ), Cda.ok) :=
  if_pos hload

theorem clMaxId_of_loaded (hload : a.ensureComponent .lexiconIdx = true) :
    clMaxId (.pos a) = ((a.lexicon.length : ℤ), Cda.ok) :=
  if_pos hload

/-- The positions of an item, as far as the other components can be loaded. -/
theorem clId2cpos_of_hasId (hseq : a.ensureComponent .sequence = true) (hidx : a.ensureComponent .lexiconIdx = true)
    (hfreqs : a.ensureComponent .freqs = true) (h : a.HasId id) :
    clId2cpos (.pos a) id =
      if a.ensureComponent .reversed then (some (a.positions id.toNat), .ok) else (none, .enodata) := by
  have hlen := length_pos_of_ne_nil (ids_ne_nil h)
  have h' := h
  unfold HasId at h'
  simp only [clId2cpos, clMaxCpos_of_loaded hseq, clMaxId_of_loaded hidx, clId2freq_of_hasId hfreqs h, ne_eq,
    not_true_eq_false, or_false]
  rw [if_neg (by omega), if_neg (by omega), if_neg (by omega), if_neg (by omega)]

theorem clId2cpos_of_not_loaded (hseq : ¬a.ensureComponent .sequence = true) :
    clId2cpos (.pos a) id = (none, .enodata) := by
  have hmax : clMaxCpos (.pos a) = Cda.enodata.fail := if_neg hseq
  simp only [clId2cpos, hmax]
  rfl

theorem clId2cpos_fail (hne : a.ids ≠ [])
    (h : ¬(a.Loads [.sequence, .lexiconIdx, .freqs, .reversed] ∧ a.HasId id)) :
    ∃ e : Cda, e.mapped = true ∧ clId2cpos (.pos a) id = (none, e) := by
  by_cases hseq : a.ensureComponent .sequence = true
  · have hlen := length_pos_of_ne_nil hne
    have hsize : ¬((a.ids.length : ℤ) ≤ 0 ∨ Cda.ok ≠ .ok) := by
      simp only [ne_eq, not_true_eq_false, or_false]
      omega
    by_cases hidx : a.ensureComponent .lexiconIdx = true
    · by_cases hid : a.HasId id
      · by_cases hfreqs : a.ensureComponent .freqs = true
        · have hrev : ¬a.ensureComponent .reversed = true := by
            intro hrev
            apply h
            simp only [loads_cons, loads_nil, and_true]
            exact ⟨⟨hseq, hidx, hfreqs, hrev⟩, hid⟩
          exact ⟨.enodata, rfl, (clId2cpos_of_hasId hseq hidx hfreqs hid).trans (if_neg hrev)⟩
        · have hfreq : clId2freq (.pos a) id = Cda.enodata.fail := by simp only [clId2freq, if_pos hfreqs]
          have hrange := hid
          unfold HasId at hrange
          refine ⟨.enodata, rfl, ?_⟩
          simp only [clId2cpos, clMaxCpos_of_loaded hseq, clMaxId_of_loaded hidx, hfreq, if_neg hsize]
          rw [if_neg (by simp only [ne_eq, not_true_eq_false, or_false]; omega), if_neg (by omega)]
          rfl
      · have hpos : 0 < a.lexicon.length := by
          obtain ⟨x, hx⟩ := exists_mem_of_ne_nil _ hne
          exact lt_of_le_of_lt (Nat.zero_le x) (a.ids_lt x hx)
        have hrange : id < 0 ∨ id ≥ a.lexicon.length := by
          unfold HasId at hid
          omega
        refine ⟨.eidorng, rfl, ?_⟩
        simp only [clId2cpos, clMaxCpos_of_loaded hseq, clMaxId_of_loaded hidx, if_neg hsize]
        rw [if_neg (by simp only [ne_eq, not_true_eq_false, or_false]; omega), if_pos hrange]
    · have hmax : clMaxId (.pos a) = Cda.enodata.fail := if_neg hidx
      refine ⟨.enodata, rfl, ?_⟩
      simp only [clId2cpos, clMaxCpos_of_loaded hseq, hmax, if_neg hsize]
      rfl
  · exact ⟨.enodata, rfl, clId2cpos_of_not_loaded hseq⟩

/-- The table is filled if its size is what the items need. Otherwise it overruns or stays short. -/
theorem idlist2cposLoop_eq (hload : a.Loads [.sequence, .lexiconIdx, .freqs, .reversed]) (h : ∀ id ∈ ids, a.HasId id)
    (size : ℤ) (table : List ℕ) :
    (table.length + a.total ids = size →
      ∃ table' : List ℕ, table'.length = size ∧ idlist2cposLoop a size table ids = some (some table', .ok)) ∧
    (table.length + a.total ids ≠ size → idlist2cposLoop a size table ids = none) := by
  induction ids generalizing table with
  | nil =>
    simp only [total, map_nil, sum_nil, add_zero, idlist2cposLoop]
    refine ⟨fun hsize => ⟨table, hsize, if_pos hsize⟩, fun hsize => if_neg hsize⟩
  | cons id ids ih =>
    simp only [loads_cons, loads_nil, and_true] at hload
    obtain ⟨hseq, hidx, hfreqs, hrev⟩ := hload
    have hid := h id (by simp)
    have hfound : clId2cpos (.pos a) id = (some (a.positions id.toNat), .ok) := by
      rw [clId2cpos_of_hasId hseq hidx hfreqs hid, if_pos hrev]
    have hrange : ¬(id < 0 ∨ id ≥ a.lexicon.length) := by
      have := hid.1
      have := hid.2
      omega
    have hlen : ((table ++ a.positions id.toNat).length : ℤ) = table.length + a.ids.count id.toNat := by
      rw [length_append, positions_length]
      omega
    have hrest := ih (fun id hid => h id (by simp [hid])) (table ++ a.positions id.toNat)
    have hnonneg := @total_nonneg a ids
    simp only [idlist2cposLoop, if_neg hrange, hfound, total_cons]
    rw [hlen] at hrest ⊢
    refine ⟨fun hsize => ?_, fun hsize => ?_⟩
    · rw [if_pos (by omega)]
      exact hrest.1 (by omega)
    · split_ifs with hle
      · exact hrest.2 (by omega)
      · rfl

/-! The results of `cl_idlist2cpos`. -/

section Idlist

variable (sort : Bool)

theorem clIdlist2cpos_fail (h : ¬(a.Loads [.lexiconIdx, .freqs] ∧ ids ≠ [] ∧ ∀ id ∈ ids, a.HasId id)) :
    ∃ e : Cda, e.mapped = true ∧ clIdlist2cpos sort (.pos a) ids = some (none, e) := by
  by_cases hargs : ¬a.ensureComponent .lexiconIdx = true ∨ ids = []
  · exact ⟨.enodata, rfl, by simp only [clIdlist2cpos, if_pos hargs]⟩
  · have hne : ids ≠ [] := fun hnil => hargs (.inr hnil)
    have hidx : a.ensureComponent .lexiconIdx = true := by
      by_contra hidx
      exact hargs (.inl hidx)
    have hfail : ∃ id ∈ ids, ¬(a.ensureComponent .freqs = true ∧ a.HasId id) := by
      by_contra hall
      push Not at hall
      apply h
      simp only [loads_cons, loads_nil, and_true]
      obtain ⟨id, rest, rfl⟩ := exists_cons_of_ne_nil hne
      exact ⟨⟨hidx, (hall id (by simp)).1⟩, hne, fun id hid => (hall id hid).2⟩
    obtain ⟨e, hmapped, hne', heq⟩ := idlist2freqLoop_fail hfail 0
    refine ⟨e, hmapped, ?_⟩
    simp only [clIdlist2cpos, if_neg hargs, clIdlist2freq, if_neg hne, heq, Cda.fail, ne_eq, hne', not_false_eq_true,
      or_true, if_true]

variable (hload : a.Loads [.lexiconIdx, .freqs]) (hne : ids ≠ []) (h : ∀ id ∈ ids, a.HasId id)
include hload hne h

theorem clIdlist2cpos_eq :
    clIdlist2cpos sort (.pos a) ids =
      if a.sum32 ids ≤ 0 then some (none, .ok)
      else (idlist2cposLoop a (a.sum32 ids) [] ids).map fun (table, errno) =>
        (table.map fun table => if sort then table.insertionSort (· ≤ ·) else table, errno) := by
  simp only [loads_cons, loads_nil, and_true] at hload
  have hargs : ¬(¬a.ensureComponent .lexiconIdx = true ∨ ids = []) := by simp [hload.1, hne]
  have hfreq : clIdlist2freq (.pos a) ids = (a.sum32 ids, .ok) := by
    simp only [clIdlist2freq, if_neg hne, idlist2freqLoop_ok hload.2 h, zero_add, sum32]
  simp only [clIdlist2cpos, if_neg hargs, hfreq, ne_eq, not_true_eq_false, or_false]
  split_ifs <;> first | rfl | omega

/-- The sum is positive, but the data are missing. -/
theorem clIdlist2cpos_of_not_loaded (hsum : 0 < a.sum32 ids) (hdata : ¬a.Loads [.sequence, .reversed]) :
    clIdlist2cpos sort (.pos a) ids = some (none, .enodata) := by
  obtain ⟨id, rest, rfl⟩ := exists_cons_of_ne_nil hne
  have hid := h id (by simp)
  have hrange : ¬(id < 0 ∨ id ≥ a.lexicon.length) := by
    have := hid.1
    have := hid.2
    omega
  have hcpos : clId2cpos (.pos a) id = (none, .enodata) := by
    simp only [loads_cons, loads_nil, and_true] at hdata hload
    by_cases hseq : a.ensureComponent .sequence = true
    · rw [clId2cpos_of_hasId hseq hload.1 hload.2 hid, if_neg fun hrev => hdata ⟨hseq, hrev⟩]
    · exact clId2cpos_of_not_loaded hseq
  rw [clIdlist2cpos_eq sort hload hne h, if_neg (not_le.mpr hsum)]
  simp only [idlist2cposLoop, if_neg hrange, hcpos]
  rfl

theorem clIdlist2cpos_of_lt (hdata : a.Loads [.sequence, .reversed]) (htotal : a.total ids < 2 ^ 31) :
    ∃ table : List ℕ, table.length = a.total ids ∧ clIdlist2cpos sort (.pos a) ids = some (some table, .ok) := by
  have hpos := total_pos hne h
  have hall : a.Loads [.sequence, .lexiconIdx, .freqs, .reversed] := by
    simp only [loads_cons, loads_nil, and_true] at hdata hload ⊢
    exact ⟨hdata.1, hload.1, hload.2, hdata.2⟩
  obtain ⟨table, hlen, hloop⟩ := (idlist2cposLoop_eq hall h (a.total ids) []).1 (by simp)
  refine ⟨if sort then table.insertionSort (· ≤ ·) else table, ?_, ?_⟩
  · split_ifs
    · rwa [length_insertionSort]
    · exact hlen
  · rw [clIdlist2cpos_eq sort hload hne h, sum32_of_lt htotal, if_neg (not_le.mpr hpos), hloop]
    rfl

theorem clIdlist2cpos_of_ge (hdata : a.Loads [.sequence, .reversed]) (htotal : 2 ^ 31 ≤ a.total ids)
    (hsum : 0 < a.sum32 ids) : clIdlist2cpos sort (.pos a) ids = none := by
  have hall : a.Loads [.sequence, .lexiconIdx, .freqs, .reversed] := by
    simp only [loads_cons, loads_nil, and_true] at hdata hload ⊢
    exact ⟨hdata.1, hload.1, hload.2, hdata.2⟩
  have hlt := @sum32_lt a ids
  have hover : (([] : List ℕ).length : ℤ) + a.total ids ≠ a.sum32 ids := by
    simp only [length_nil]
    omega
  rw [clIdlist2cpos_eq sort hload hne h, if_neg (not_le.mpr hsum), (idlist2cposLoop_eq hall h _ []).2 hover]
  rfl

end Idlist

end CWB.Cqi
