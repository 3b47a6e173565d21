import CWB.Library.BinarySearch
import CWB.Library.Comparators
import CWB.Proofs.ClAccess

/-! The binary search of `cl_str2id` in the sorted lexicon of `creat_sort_lexicon`. -/

namespace CWB.CString

theorem bytes_injective : Function.Injective bytes := by
  rintro ⟨s, hs⟩ ⟨t, ht⟩ heq
  cases heq
  rfl

/-- The characters of a string as they are compared, with the terminator. -/
def signed (s : CString) : List ℤ := s.bytes.map BitVec.toInt ++ [0]

theorem zero_notMem (s : CString) : 0 ∉ s.bytes.map BitVec.toInt := by
  intro h
  obtain ⟨b, hb, h0⟩ := List.mem_map.mp h
  have : b = 0 := BitVec.toInt_inj.mp (by simpa using h0)
  exact s.noNull (this ▸ hb)

theorem signed_inj {s t : CString} : s.signed = t.signed ↔ s = t := by
  refine ⟨fun h => ?_, fun h => by rw [h]⟩
  have hbytes : s.bytes = t.bytes :=
    List.map_injective_iff.mpr (fun _ _ => BitVec.toInt_inj.mp) (List.append_cancel_right h)
  cases s
  cases t
  simpa using hbytes

end CWB.CString

namespace CWB.Cqi

section Lexicon

open Comparators

theorem clStrcmp_eq_strcmp {s t : List CqiByte} (hs : 0 ∉ s.map BitVec.toInt) :
    clStrcmp s t = strcmp (s.map BitVec.toInt ++ [0]) (t.map BitVec.toInt ++ [0]) := by
  induction s generalizing t with
  | nil =>
    cases t with
    | nil => rfl
    | cons b t =>
      by_cases hb : 0 = b.toInt
      · simp [clStrcmp, strcmp, ← hb]
      · simp [clStrcmp, strcmp, hb]
  | cons a s ih =>
    have ha : a.toInt ≠ 0 := fun h => hs (by simp [h])
    cases t with
    | nil => simp [clStrcmp, strcmp, ha]
    | cons b t =>
      simp only [clStrcmp, List.map_cons, List.cons_append, strcmp, BitVec.toInt_inj]
      by_cases heq : a = b
      · rw [if_pos heq, if_pos heq, if_neg ha]
        exact ih fun h => hs (by simp [h])
      · rw [if_neg heq, if_neg heq]

/-- `cl_strcmp` compares the signed characters lexicographically. -/
theorem compare_clStrcmp (s t : CString) : compare (clStrcmp s.bytes t.bytes) 0 = compare s.signed t.signed := by
  rw [clStrcmp_eq_strcmp s.zero_notMem]
  exact compare_strcmp s.zero_notMem t.zero_notMem

theorem clStrcmp_lt_iff {s t : CString} : clStrcmp s.bytes t.bytes < 0 ↔ compare s.signed t.signed = .lt := by
  rw [← compare_clStrcmp, compare_lt_iff_lt]

theorem clStrcmp_eq_zero_iff {s t : CString} : clStrcmp s.bytes t.bytes = 0 ↔ s = t := by
  rw [← compare_eq_iff_eq, compare_clStrcmp, Std.compare_eq_iff_eq, CString.signed_inj]

theorem clStrcmp_swap {s t : CString} : clStrcmp s.bytes t.bytes < 0 ↔ 0 < clStrcmp t.bytes s.bytes := by
  rw [clStrcmp_lt_iff, ← compare_gt_iff_gt, compare_clStrcmp, Std.OrientedCmp.gt_iff_lt]

theorem clStrcmp_trans {s t u : CString} (hst : clStrcmp s.bytes t.bytes < 0) (htu : clStrcmp t.bytes u.bytes < 0) :
    clStrcmp s.bytes u.bytes < 0 :=
  clStrcmp_lt_iff.mpr (Std.TransCmp.lt_trans (clStrcmp_lt_iff.mp hst) (clStrcmp_lt_iff.mp htu))

theorem clStrcmp_strictTotalOrder : IsStrictTotalOrder CString fun s t => clStrcmp s.bytes t.bytes < 0 where
  trichotomous s t hst hts := by
    rw [clStrcmp_swap] at hts
    exact clStrcmp_eq_zero_iff.mp (by omega)
  irrefl s h := by
    rw [clStrcmp_eq_zero_iff.mpr rfl] at h
    omega
  trans _ _ _ := clStrcmp_trans

theorem clStrcmp_consistent : Consistent fun s t : CString => clStrcmp s.bytes t.bytes := by
  refine ⟨fun s t => compare s.signed t.signed, ?_, compare_clStrcmp⟩
  have horiented : Std.OrientedCmp fun s t : CString => compare s.signed t.signed := ⟨Std.OrientedCmp.eq_swap⟩
  exact ⟨Std.TransCmp.isLE_trans⟩

/-- The string of an ID; outside of the lexicon the empty one. -/
def lexiconEntry (lexicon : List CString) (id : ℕ) : CString := lexicon[id]?.getD ⟨[], CString.noNull_nil⟩

theorem bytes_lexiconEntry (lexicon : List CString) (id : ℕ) :
    (lexicon[id]?.map CString.bytes).getD [] = (lexiconEntry lexicon id).bytes := by
  unfold lexiconEntry
  cases lexicon[id]? with
  | none => rfl
  | some s => rfl

theorem scompare_eq (lexicon : List CString) (idx1 idx2 : ℕ) :
    scompare lexicon idx1 idx2 = clStrcmp (lexiconEntry lexicon idx1).bytes (lexiconEntry lexicon idx2).bytes := by
  rw [scompare, bytes_lexiconEntry, bytes_lexiconEntry]

variable {lexicon : List CString}

theorem creatSortLexicon_perm : (creatSortLexicon lexicon).Perm (List.range lexicon.length) := List.mergeSort_perm _ _

theorem length_creatSortLexicon : (creatSortLexicon lexicon).length = lexicon.length := by
  rw [creatSortLexicon_perm.length_eq, List.length_range]

theorem getD_creatSortLexicon_lt {k : ℕ} (hk : k < lexicon.length) : (creatSortLexicon lexicon).getD k 0 < lexicon.length := by
  rw [← length_creatSortLexicon] at hk
  have hmem := creatSortLexicon_perm.mem_iff.mp (List.getElem_mem hk)
  rw [List.getD_eq_getElem _ _ hk]
  exact List.mem_range.mp hmem

theorem lexiconEntry_inj (hnodup : lexicon.Nodup) {i j : ℕ} (hi : i < lexicon.length) (hj : j < lexicon.length)
    (h : lexiconEntry lexicon i = lexiconEntry lexicon j) : i = j := by
  simp only [lexiconEntry, List.getElem?_eq_getElem hi, List.getElem?_eq_getElem hj, Option.getD_some] at h
  exact hnodup.getElem_inj_iff.mp h

/-- The sorted index is strictly ascending. -/
theorem creatSortLexicon_ascending (hnodup : lexicon.Nodup) {i j : ℕ} (hij : i < j) (hj : j < lexicon.length) :
    clStrcmp (lexiconEntry lexicon ((creatSortLexicon lexicon).getD i 0)).bytes
      (lexiconEntry lexicon ((creatSortLexicon lexicon).getD j 0)).bytes < 0 := by
  have hsorted := (clStrcmp_consistent.comap (lexiconEntry lexicon)).pairwise_mergeSort (List.range lexicon.length)
  simp only [← scompare_eq] at hsorted
  change (creatSortLexicon lexicon).Pairwise _ at hsorted
  have hi' : i < (creatSortLexicon lexicon).length := by rw [length_creatSortLexicon]; omega
  have hj' : j < (creatSortLexicon lexicon).length := by rw [length_creatSortLexicon]; exact hj
  have hle := List.pairwise_iff_getElem.mp hsorted i j hi' hj' hij
  rw [scompare_eq] at hle
  have hne : (creatSortLexicon lexicon).getD i 0 ≠ (creatSortLexicon lexicon).getD j 0 := by
    rw [List.getD_eq_getElem _ _ hi', List.getD_eq_getElem _ _ hj']
    intro heq
    have hnd := creatSortLexicon_perm.nodup_iff.mpr (List.nodup_range (n := lexicon.length))
    exact absurd (hnd.getElem_inj_iff.mp heq) hij.ne
  have hne' : clStrcmp (lexiconEntry lexicon ((creatSortLexicon lexicon).getD i 0)).bytes
      (lexiconEntry lexicon ((creatSortLexicon lexicon).getD j 0)).bytes ≠ 0 := by
    intro h0
    exact hne (lexiconEntry_inj hnodup (getD_creatSortLexicon_lt (hij.trans hj)) (getD_creatSortLexicon_lt hj)
      (clStrcmp_eq_zero_iff.mp h0))
  rw [List.getD_eq_getElem _ _ hi', List.getD_eq_getElem _ _ hj'] at hne' ⊢
  exact lt_of_le_of_ne hle hne'

/-- The comparison of `cl_str2id` with the entry of a rank. -/
def rankComp (a : PosAttribute) (str : CString) (mid : ℕ) : ℤ :=
  clStrcmp str.bytes (lexiconEntry a.lexicon (a.lexsrt.getD mid 0)).bytes

/-- `cl_str2id` bisects the sorted index. -/
theorem str2idLoop_eq (a : PosAttribute) (str : CString) (nr low high : ℕ) :
    str2idLoop a str nr low high = match BinarySearch.bisect (rankComp a str) nr low high with
      | none => Cda.eother.fail
      | some none => Cda.enostring.fail
      | some (some mid) => ((a.lexsrt.getD mid 0 : ℤ), Cda.ok) := by
  induction nr generalizing low high with
  | zero => rfl
  | succ nr ih =>
    have hcomp : clStrcmp str.bytes ((a.lexicon[a.lexsrt.getD (low + (high - low) / 2) 0]?.map CString.bytes).getD []) =
        rankComp a str (low + (high - low) / 2) := by rw [bytes_lexiconEntry, rankComp]
    rw [str2idLoop, BinarySearch.bisect]
    simp only [hcomp]
    split_ifs with h0 h1 h2
    · rfl
    · rfl
    · exact ih _ _
    · exact ih _ _

theorem rankComp_ascending {a : PosAttribute} (hnodup : a.lexicon.Nodup) (hsrt : a.lexsrt = creatSortLexicon a.lexicon)
    (str : CString) {i j : ℕ} (hij : i < j) (hj : j < a.lexicon.length) (hi : rankComp a str i ≤ 0) : rankComp a str j < 0 := by
  have hasc := creatSortLexicon_ascending hnodup hij hj
  rw [← hsrt] at hasc
  rcases hi.lt_or_eq with hlt | heq
  · exact clStrcmp_trans hlt hasc
  · rw [rankComp, clStrcmp_eq_zero_iff.mp heq]
    exact hasc

/-- Every entry of the lexicon has a rank. -/
theorem exists_rank {a : PosAttribute} (hsrt : a.lexsrt = creatSortLexicon a.lexicon) {id : ℕ} (hid : id < a.lexicon.length) :
    ∃ k < a.lexicon.length, a.lexsrt.getD k 0 = id := by
  have hmem : id ∈ creatSortLexicon a.lexicon := creatSortLexicon_perm.mem_iff.mpr (List.mem_range.mpr hid)
  obtain ⟨k, hk, hget⟩ := List.mem_iff_getElem.mp hmem
  refine ⟨k, length_creatSortLexicon ▸ hk, ?_⟩
  rw [hsrt, List.getD_eq_getElem _ _ hk, hget]

theorem str2id_eq {a : PosAttribute} (hload : ∀ c ∈ [PosComponent.lexiconIdx, .lexiconSrt, .lexicon], a.ensureComponent c = true)
    (hne : a.lexicon ≠ []) (hnodup : a.lexicon.Nodup) (hsrt : a.lexsrt = creatSortLexicon a.lexicon) (str : CString) :
    clStr2id (.pos a) str =
      some (if str ∈ a.lexicon then ((a.lexicon.idxOf str : ℤ), Cda.ok) else Cda.enostring.fail) := by
  have hlen : a.lexicon.length < 2 ^ 31 := a.lexicon_length_le.trans_lt a.length_lt
  have hpos : 0 < a.lexicon.length := List.length_pos_iff.mpr hne
  obtain ⟨r, hr, hfound, hnone⟩ := BinarySearch.bisect_spec (n := a.lexicon.length)
    (fun i j hij hj => rankComp_ascending hnodup hsrt str hij hj) (show 31 < 1000000 by omega) hpos le_rfl
    (show a.lexicon.length - 0 ≤ 2 ^ 31 by omega)
  have hloaded : a.ensureComponent .lexiconIdx = true ∧ a.ensureComponent .lexiconSrt = true ∧
      a.ensureComponent .lexicon = true := ⟨hload _ (by simp), hload _ (by simp), hload _ (by simp)⟩
  rw [clStr2id, if_neg (not_not.mpr hloaded), if_neg hne, str2idLoop_eq, hr]
  congr 1
  cases r with
  | none =>
    rw [if_neg]
    intro hmem
    obtain ⟨id, hid, hget⟩ := List.mem_iff_getElem.mp hmem
    obtain ⟨k, hk, hrank⟩ := exists_rank hsrt hid
    refine hnone rfl k (Nat.zero_le k) hk ?_
    rw [rankComp, hrank, lexiconEntry, List.getElem?_eq_getElem hid, hget]
    exact clStrcmp_eq_zero_iff.mpr rfl
  | some k =>
    obtain ⟨-, hk, h0⟩ := hfound k rfl
    have hid := getD_creatSortLexicon_lt hk
    rw [← hsrt] at hid
    have hstr := clStrcmp_eq_zero_iff.mp h0
    rw [lexiconEntry, List.getElem?_eq_getElem hid, Option.getD_some] at hstr
    have hmem : str ∈ a.lexicon := hstr ▸ List.getElem_mem hid
    rw [if_pos hmem]
    have hidx : a.lexicon.idxOf str = a.lexsrt.getD k 0 := by
      rw [hstr]
      exact hnodup.idxOf_getElem _ hid
    rw [hidx]

/-- `cl_str2id` finds exactly the strings of the lexicon, and `scompare` orders it as `cl_strcmp` does. -/
theorem clStr2id_eq {a : PosAttribute}
    (hload : ∀ c ∈ [PosComponent.lexiconIdx, .lexiconSrt, .lexicon], a.ensureComponent c = true)
    (hne : a.lexicon ≠ []) (hnodup : a.lexicon.Nodup) (hsrt : a.lexsrt = creatSortLexicon a.lexicon) :
    (∀ str : CString, clStr2id (.pos a) str =
      some (if str ∈ a.lexicon then ((a.lexicon.idxOf str : ℤ), Cda.ok) else Cda.enostring.fail)) ∧
    (IsStrictTotalOrder CString fun s t => clStrcmp s.bytes t.bytes < 0) ∧
    ∀ i j s t, a.lexicon[i]? = some s → a.lexicon[j]? = some t → scompare a.lexicon i j = clStrcmp s.bytes t.bytes := by
  refine ⟨str2id_eq hload hne hnodup hsrt, clStrcmp_strictTotalOrder, ?_⟩
  intro i j s t hs ht
  rw [scompare, hs, ht]
  rfl

/-- An attribute with this lexicon, each string once in the corpus, indexed by `creat_sort_lexicon`. -/
def PosAttribute.ofLexicon (lexicon : List CString) (hlen : lexicon.length < 2 ^ 31) : PosAttribute where
  ids := List.range lexicon.length
  lexicon := lexicon
  lexsrt := creatSortLexicon lexicon
  ids_lt _ := List.mem_range.mp
  occurs _ := List.mem_range.mpr
  length_lt := by simpa using hlen
  ensureComponent _ := true

/-- `a`, `é` in two bytes, and the empty string -/
def shortLexicon : List CString := [⟨[0x61], by decide⟩, ⟨[0xc3, 0xa9], by decide⟩, ⟨[], CString.noNull_nil⟩]

theorem clStr2id_shortLexicon :
    clStr2id (.pos (.ofLexicon shortLexicon (by decide))) ⟨[0xc3, 0xa9], by decide⟩ = some ((1 : ℤ), Cda.ok) ∧
    clStr2id (.pos (.ofLexicon shortLexicon (by decide))) ⟨[0xc3], by decide⟩ = some Cda.enostring.fail := by
  have h := (clStr2id_eq (a := .ofLexicon shortLexicon (by decide)) (fun _ _ => rfl) (by decide) (by decide) rfl).1
  exact ⟨h _, h _⟩

end Lexicon

end CWB.Cqi
