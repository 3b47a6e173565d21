import CWB.Proofs.InvertedIndex
import CWB.Proofs.LexiconLookup
import CWB.Proofs.TokenColumns

/-! A corpus is searched that `cwb-encode` has written and `cwb-makeall` has indexed: a string is looked up in the sorted
lexicon, and its positions in the index, which may have been compressed. -/

namespace CWB

open List StringTable Cqi

/-- The bytes of a value as the access functions read them. -/
def charBytes (value : List UInt8) : List CqiByte := value.map UInt8.toBitVec

theorem charBytes_injective : Function.Injective charBytes := map_injective_iff.mpr fun _ _ => UInt8.toBitVec_inj.mp

/-- The lexicon of the attribute is read from the files of a column, and its sort index was made for it. -/
structure LoadedFrom (w : WAttr) (a : Cqi.PosAttribute) : Prop where
  components : ∀ c ∈ [PosComponent.lexiconIdx, .lexiconSrt, .lexicon], a.ensureComponent c = true
  lexicon : ∀ id : ℕ, (a.lexicon[id]?).map CString.bytes = ((w.lexidx[id]?).bind w.lex.readString).map charBytes
  lexsrt : a.lexsrt = creatSortLexicon a.lexicon

/-- The numbers of the lines with a string, by the values of a column. -/
def linesWith (vals : List (List UInt8)) (str : CString) : List ℕ :=
  (range vals.length).filter fun i => (vals[i]?).map charBytes = some str.bytes

section Column

variable {vals : List (List UInt8)} {w : WAttr} {a : Cqi.PosAttribute} {str : CString}

theorem firstOccurrences_pos (hne : vals ≠ []) : 0 < (firstOccurrences vals).length := by
  obtain ⟨v, hv⟩ := exists_mem_of_ne_nil vals hne
  exact length_pos_of_mem (mem_firstOccurrences.mpr hv)

theorem mem_ids {id : ℕ} : id ∈ vals.map (firstOccurrences vals).idxOf ↔ id < (firstOccurrences vals).length := by
  rw [mem_map]
  constructor
  · rintro ⟨v, hv, rfl⟩
    exact idxOf_lt_length_of_mem (mem_firstOccurrences.mpr hv)
  · intro hid
    exact ⟨_, mem_firstOccurrences.mp (getElem_mem hid), (nodup_firstOccurrences vals).idxOf_getElem id hid⟩

/-- The token stream of a column. -/
def columnStream (vals : List (List UInt8)) (hne : vals ≠ []) : TokenStream where
  ids := vals.map (firstOccurrences vals).idxOf
  lexsize := (firstOccurrences vals).length
  lexsize_pos := firstOccurrences_pos hne
  id_lt _ := mem_ids.mp
  occurs _ := mem_ids.mpr

theorem WAttr.Holds.lexicon_eq (h : w.Holds vals) (h0 : ∀ v ∈ vals, 0 ∉ v) (ha : LoadedFrom w a) :
    a.lexicon.map CString.bytes = (firstOccurrences vals).map charBytes := by
  apply ext_getElem?
  intro id
  rw [getElem?_map, getElem?_map, ha.lexicon id, h.lexidx_eq, h.lex_eq]
  congr 1
  by_cases hid : id < (firstOccurrences vals).length
  · obtain ⟨off, hoff, hread⟩ := readString_offsets (fun s hs => h0 s (mem_firstOccurrences.mp hs)) hid
    rw [hoff, Option.bind_some, hread, getElem?_eq_getElem hid]
  · rw [getElem?_eq_none (by simpa [offsets] using hid), getElem?_eq_none (by omega), Option.bind_none]

/-- The string is looked up with the ID of the value that has its bytes. -/
theorem WAttr.Holds.str2id (h : w.Holds vals) (h0 : ∀ v ∈ vals, 0 ∉ v) (ha : LoadedFrom w a) (hne : vals ≠ []) (str : CString) :
    (∀ v ∈ vals, charBytes v = str.bytes → clStr2id (.pos a) str = some (((firstOccurrences vals).idxOf v : ℤ), Cda.ok)) ∧
      ((∀ v ∈ vals, charBytes v ≠ str.bytes) → clStr2id (.pos a) str = some Cda.enostring.fail) := by
  have hlex := h.lexicon_eq h0 ha
  have hmap : ((firstOccurrences vals).map charBytes).Nodup := (nodup_firstOccurrences vals).map charBytes_injective
  have hnodup : a.lexicon.Nodup := Nodup.of_map _ (hlex ▸ hmap)
  have hnonempty : a.lexicon ≠ [] := by
    intro hnil
    have hlength := congrArg length hlex
    rw [hnil, length_map, length_map] at hlength
    exact (firstOccurrences_pos hne).ne hlength
  have hmem : str ∈ a.lexicon ↔ ∃ v ∈ vals, charBytes v = str.bytes := by
    rw [← mem_map_of_injective CString.bytes_injective, hlex, mem_map]
    simp only [mem_firstOccurrences]
  have hid := str2id_eq ha.components hnonempty hnodup ha.lexsrt str
  refine ⟨fun v hv heq => ?_, fun hno => ?_⟩
  · rw [hid, if_pos (hmem.mpr ⟨v, hv, heq⟩)]
    have hget := congrArg (fun l => l[(firstOccurrences vals).idxOf v]?) hlex
    simp only [getElem?_map, getElem?_idxOf (mem_firstOccurrences.mpr hv)] at hget
    obtain ⟨t, ht, hbytes⟩ := Option.map_eq_some_iff.mp hget
    obtain rfl := CString.bytes_injective (hbytes.trans heq)
    obtain ⟨hlt, hentry⟩ := List.getElem?_eq_some_iff.mp ht
    have hidx := hnodup.idxOf_getElem _ hlt
    rw [hentry] at hidx
    rw [hidx]
  · rw [hid, if_neg]
    intro hin
    obtain ⟨v, hv, heq⟩ := hmem.mp hin
    exact hno v hv heq

theorem linesWith_eq_nil : linesWith vals str = [] ↔ ∀ v ∈ vals, charBytes v ≠ str.bytes := by
  rw [linesWith, filter_eq_nil_iff]
  constructor
  · intro h v hv heq
    obtain ⟨i, hi, rfl⟩ := mem_iff_getElem.mp hv
    exact h i (mem_range.mpr hi) (decide_eq_true (by rw [List.getElem?_eq_getElem hi, Option.map_some, heq]))
  · intro h i hi
    rw [List.getElem?_eq_getElem (mem_range.mp hi), Option.map_some, decide_eq_true_eq, Option.some_inj]
    exact h _ (getElem_mem _)

/-- The index has the lines of an ID that was looked up. -/
theorem positions_columnStream (hne : vals ≠ []) {v : List UInt8} (heq : charBytes v = str.bytes) :
    positions (columnStream vals hne).ids ((firstOccurrences vals).idxOf v) = linesWith vals str := by
  rw [positions, columnStream, length_map]
  refine filter_congr fun i hi => ?_
  have hmem := mem_firstOccurrences.mpr (getElem_mem (mem_range.mp hi))
  rw [getElem?_map, List.getElem?_eq_getElem (mem_range.mp hi), Option.map_some, Option.map_some, decide_eq_decide, Option.some_inj,
    Option.some_inj, ← heq, charBytes_injective.eq_iff, idxOf_inj hmem]

end Column

end CWB
