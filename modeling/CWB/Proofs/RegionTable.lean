import Mathlib.Tactic
import CWB.Library.Intervals
import CWB.Spec.RegionTable

/-! Region tables are read back as they are printed, but for regions without an annotation that end at one of
the first ten tokens: the number of their end is too short for `sencode_parse_line`. -/

namespace CWB

open Nat Option List

/-- A line of a region table, without its line break. -/
def tableLine (start stop : ℕ) (annot : Option (List UInt8)) : List UInt8 :=
  Decimal.text start ++ 9 :: (Decimal.text stop ++ annot.elim [] (9 :: ·))

/-- A string that is valid in the encoding, and in normal form C in UTF-8. -/
def ValidAnnotation (glib : GLib) (charset : CorpusCharset) (s : List UInt8) : Prop :=
  clStringValidateEncoding glib s charset = true ∧ (charset = .utf8 → glib.utf8Normalize s = some s)

theorem strchrTab_append {s : List UInt8} (hs : 9 ∉ s) (rest : List UInt8) : strchrTab (s ++ 9 :: rest) = some (s, rest) := by
  have hall : ∀ c ∈ s, decide (c ≠ 9) = true := fun c hc => decide_eq_true fun h => hs (h ▸ hc)
  have htake : (s ++ 9 :: rest).takeWhile (· ≠ 9) = s := by
    rw [takeWhile_append_of_pos hall, takeWhile_cons_of_neg (by simp), append_nil]
  have hdrop : (s ++ 9 :: rest).dropWhile (· ≠ 9) = 9 :: rest := by
    rw [dropWhile_append_of_pos hall, dropWhile_cons_of_neg (by simp)]
  rw [strchrTab, if_pos (by simp), htake, hdrop, tail_cons]

theorem strchrTab_none {s : List UInt8} (hs : 9 ∉ s) : strchrTab s = none := if_neg hs

theorem tab_notMem_text (n : ℕ) : 9 ∉ Decimal.text n := fun h =>
  absurd (Decimal.isdigit_of_mem_text h) (by decide)

theorem atoi_text {n : ℕ} (hn : n < 2 ^ 31) : Decimal.atoi (Decimal.text n) = some (n : ℤ) := by
  have h := @Decimal.atoi_text n hn [] (by simp)
  rwa [append_nil] at h

theorem sencodeAnnot_eq {glib : GLib} {charset : CorpusCharset} {a : List UInt8} (htab : 9 ∉ a)
    (ha : ValidAnnotation glib charset a) (start stop : ℤ) :
    sencodeAnnot glib charset start stop a = .accepted start stop (some a) := by
  obtain ⟨hvalid, hnfc⟩ := ha
  rw [sencodeAnnot, strchrTab_none htab, if_neg (by simp), if_neg (by simp [hvalid])]
  split_ifs with hutf8
  · subst hutf8
    have hvalidate : glib.utf8Validate a = true := hvalid
    rw [clStringCanonicalNfc, if_pos hvalidate, hnfc rfl]
    rfl
  · rfl

/-- The first two fields of a line. -/
theorem sencodeParseLine_eq (glib : GLib) (charset : CorpusCharset) {start stop : ℕ} (hstart : start < 2 ^ 31)
    (hstop : stop < 2 ^ 31) (annot : Option (List UInt8)) :
    sencodeParseLine glib charset (tableLine start stop annot) =
      match annot with
      | none => if stop < 10 then .rejected else .accepted start stop none
      | some a => sencodeAnnot glib charset start stop a := by
  have hpos : ∀ n : ℕ, ¬(n : ℤ) < 0 := fun n => by omega
  rw [sencodeParseLine, tableLine, strchrTab_append (tab_notMem_text start)]
  simp only [atoi_text hstart]
  rw [if_neg (hpos start)]
  cases annot with
  | none =>
    simp only [elim_none, append_nil, strchrTab_none (tab_notMem_text stop), atoi_text hstop]
    have hshort : ((Decimal.text stop).length : ℤ) - 1 ≤ 0 ↔ stop < 10 := by
      rw [← Decimal.length_text_le_one_iff]
      omega
    simp only [hshort]
    rw [if_neg (hpos stop)]
  | some a =>
    simp only [elim_some, strchrTab_append (tab_notMem_text stop), atoi_text hstop]
    rw [if_neg (hpos stop)]

/-- A line is read back exactly if it has an annotation or an end with two digits. -/
theorem sencodeParseLine_tableLine_iff (glib : GLib) (charset : CorpusCharset) {start stop : ℕ} (hle : start ≤ stop)
    (hstop : stop < 2 ^ 31) {annot : Option (List UInt8)}
    (hannot : ∀ a ∈ annot, 9 ∉ a ∧ 10 ∉ a ∧ 13 ∉ a ∧ ValidAnnotation glib charset a) :
    sencodeParseLine glib charset (tableLine start stop annot) = .accepted start stop annot ↔
      annot.isSome ∨ 10 ≤ stop := by
  rw [sencodeParseLine_eq glib charset (hle.trans_lt hstop) hstop]
  cases annot with
  | none =>
    dsimp only
    split_ifs with hshort
    · simp only [isSome_none, Bool.false_eq_true, false_or, false_iff]
      omega
    · simp only [isSome_none, Bool.false_eq_true, false_or, true_iff]
      omega
  | some a =>
    obtain ⟨htab, -, -, hvalid⟩ := hannot a rfl
    dsimp only
    rw [sencodeAnnot_eq htab hvalid]
    simp

/-- GLib for strings of ASCII characters, which are in normal form. -/
def asciiGLib : GLib where
  utf8Validate s := s.all (· ≤ 0x7f)
  utf8Normalize s := if s.all (· ≤ 0x7f) then some s else none

/-- `0 5 NP` -/
theorem sencodeParseLine_tableLine_annotated :
    sencodeParseLine asciiGLib .utf8 [48, 9, 53, 9, 78, 80] = .accepted 0 5 (some [78, 80]) :=
  (@sencodeParseLine_tableLine_iff asciiGLib .utf8 0 5 (by decide) (by decide) (some [78, 80])
    (by rintro a ⟨⟩; exact ⟨by decide, by decide, by decide, by decide, fun _ => rfl⟩)).mpr (.inl rfl)

/-- `0 5` is no region. -/
theorem sencodeParseLine_short_end :
    ¬∀ (glib : GLib) (charset : CorpusCharset) (start stop : ℕ) (annot : Option (List UInt8)), start ≤ stop → stop < 2 ^ 31 →
      (∀ a ∈ annot, 9 ∉ a ∧ 10 ∉ a ∧ 13 ∉ a ∧ ValidAnnotation glib charset a) →
      sencodeParseLine glib charset (tableLine start stop annot) = .accepted start stop annot := by
  intro hall
  have h := hall asciiGLib .latin1 0 5 none (by decide) (by decide) (by simp)
  rw [sencodeParseLine_eq asciiGLib .latin1 (by decide) (by decide)] at h
  revert h
  decide

/-! The region list of `cwb-s-encode` stays sorted and disjoint, whatever is inserted in which order. Every
function on the cells does what it should do to the list of regions that they hold. -/

open LinkedList

/-! ## What an insertion means -/

variable {region : SLRegion}

namespace SLRegion

def Overlaps (r r' : SLRegion) : Prop := r.start ≤ r'.stop ∧ r'.start ≤ r.stop

/-- Of two regions that overlap, the one that begins earlier wins, or the longer one. -/
def Beats (r r' : SLRegion) : Prop := r.start < r'.start ∨ (r.start = r'.start ∧ r'.stop < r.stop)

instance (r r' : SLRegion) : Decidable (r.Overlaps r') := inferInstanceAs (Decidable (_ ∧ _))

instance (r r' : SLRegion) : Decidable (r.Beats r') := inferInstanceAs (Decidable (_ ∨ _))

/-- A region is inserted among others, unless one of them wins; the others that it overlaps are left out. -/
def insertInto (l : List SLRegion) (region : SLRegion) : List SLRegion :=
  if ∃ r ∈ l, r.Overlaps region ∧ r.Beats region then l
  else l.filter (·.stop < region.start) ++ region :: l.filter (region.stop < ·.start)

abbrev Ascending (l : List SLRegion) : Prop := Intervals.Ascending start stop l

theorem Ascending.insertInto {l : List SLRegion} (h : Ascending l) (hregion : region.start ≤ region.stop) :
    Ascending (SLRegion.insertInto l region) := by
  unfold SLRegion.insertInto
  split_ifs
  · exact h
  · refine ⟨pairwise_append.mpr ⟨h.apart.filter _, pairwise_cons.mpr ⟨?_, h.apart.filter _⟩, ?_⟩, ?_⟩
    · intro r hr
      exact of_decide_eq_true (mem_filter.mp hr).2
    · intro r hr r' hr'
      have hstop : r.stop < region.start := of_decide_eq_true (mem_filter.mp hr).2
      rcases mem_cons.mp hr' with rfl | hr'
      · exact hstop
      · have hstart : region.stop < r'.start := of_decide_eq_true (mem_filter.mp hr').2
        omega
    · intro r hr
      rcases mem_append.mp hr with hr | hr
      · exact h.nonempty r (mem_filter.mp hr).1
      · rcases mem_cons.mp hr with rfl | hr
        · exact hregion
        · exact h.nonempty r (mem_filter.mp hr).1

/-- Where the new region has its place: behind those that end in front of it, instead of those that it overlaps. -/
theorem insertInto_eq {before overlapped behind : List SLRegion}
    (hs : Ascending (before ++ (overlapped ++ behind))) (hregion : region.start ≤ region.stop)
    (hbefore : ∀ r ∈ before, r.stop < region.start)
    (hoverlapped : ∀ r ∈ overlapped, r.Overlaps region ∧ ¬r.Beats region) (hbehind : ∀ r ∈ behind, region.stop < r.start) :
    insertInto (before ++ (overlapped ++ behind)) region = before ++ region :: behind := by
  have hne := hs.nonempty
  simp only [forall_mem_append] at hne
  obtain ⟨hne₁, -, hne₃⟩ := hne
  have hnone : ¬∃ r ∈ before ++ (overlapped ++ behind), r.Overlaps region ∧ r.Beats region := by
    rintro ⟨r, hr, ⟨hstart, hstop⟩, hbeats⟩
    rcases mem_append.mp hr with hr | hr
    · exact absurd (hbefore r hr) (not_lt.mpr hstop)
    · rcases mem_append.mp hr with hr | hr
      · exact (hoverlapped r hr).2 hbeats
      · exact absurd (hbehind r hr) (not_lt.mpr hstart)
  rw [insertInto, if_neg hnone]
  simp only [filter_append]
  have h1 : before.filter (·.stop < region.start) = before :=
    filter_eq_self.mpr fun r hr => decide_eq_true (hbefore r hr)
  have h2 : overlapped.filter (·.stop < region.start) = [] :=
    filter_eq_nil_iff.mpr fun r hr => by simpa using (hoverlapped r hr).1.2
  have h3 : behind.filter (·.stop < region.start) = [] := filter_eq_nil_iff.mpr fun r hr => by
    have := hbehind r hr
    have := hne₃ r hr
    simp only [decide_eq_true_eq, not_lt]
    omega
  have h4 : before.filter (region.stop < ·.start) = [] := filter_eq_nil_iff.mpr fun r hr => by
    have := hbefore r hr
    have := hne₁ r hr
    simp only [decide_eq_true_eq, not_lt]
    omega
  have h5 : overlapped.filter (region.stop < ·.start) = [] :=
    filter_eq_nil_iff.mpr fun r hr => by simpa using (hoverlapped r hr).1.1
  have h6 : behind.filter (region.stop < ·.start) = behind :=
    filter_eq_self.mpr fun r hr => decide_eq_true (hbehind r hr)
  rw [h1, h2, h3, h4, h5, h6]
  simp

end SLRegion

/-! ## Cells -/

/-- The cells hold the regions of `l`, the first one at `StructureList`, and `SL_Point` is one of them. -/
structure SLState.Holds (st : SLState) (l : List (ℕ × SLRegion)) : Prop where
  part : Part st.memory none l none
  first : st.structureList = firstOr l none
  nodup : (l.map Prod.fst).Nodup
  below : ∀ x ∈ l, x.1 < st.fresh
  point : ∀ p, st.slPoint = some p → p ∈ l.map Prod.fst

namespace SLState

variable {st : SLState} {l l' : List (ℕ × SLRegion)} {x : ℕ × SLRegion}

theorem holds_empty : Holds {} [] where
  part := trivial
  first := rfl
  nodup := nodup_nil
  below x hx := absurd hx not_mem_nil
  point p hp := by cases hp

theorem Holds.moved (h : st.Holds l) (point : Option ℕ) (hpoint : ∀ p, point = some p → p ∈ l.map Prod.fst) :
    Holds { st with slPoint := point } l :=
  ⟨h.part, h.first, h.nodup, h.below, hpoint⟩

theorem Holds.length_le (h : st.Holds l) : l.length ≤ st.fresh := by
  have hsub : l.map Prod.fst ⊆ range st.fresh := fun p hp => by
    obtain ⟨x, hx, rfl⟩ := mem_map.mp hp
    exact mem_range.mpr (h.below x hx)
  have hlen := (subperm_of_subset h.nodup hsub).length_le
  rwa [length_map, length_range] at hlen

theorem Holds.fresh_notMem (h : st.Holds l) : st.fresh ∉ l.map Prod.fst := fun hmem => by
  obtain ⟨x, hx, heq⟩ := mem_map.mp hmem
  have := h.below x hx
  omega

/-! ## Links -/

/-- The first cell of a part gets another cell in front of it. -/
theorem setPrevOf_part {m : Memory SLRegion} {before : Option ℕ} (h : Part m before l none) (hnodup : (l.map Prod.fst).Nodup)
    (prev : Option ℕ) :
    ∃ m', setPrevOf m (firstOr l none) prev = some m' ∧ Part m' prev l none ∧ ∀ q, q ∉ l.map Prod.fst → m' q = m q := by
  cases l with
  | nil => exact ⟨m, rfl, trivial, fun _ _ => rfl⟩
  | cons x l =>
    rw [map_cons, nodup_cons] at hnodup
    obtain ⟨m', hset, hpart, hframe⟩ := h.setPrev hnodup.1 prev
    refine ⟨m', hset, hpart, fun q hq => hframe q ?_⟩
    rintro rfl
    exact hq mem_cons_self

theorem nodup_concat_keys (h : ((l ++ [x]).map Prod.fst).Nodup) : x.1 ∉ l.map Prod.fst := by
  rw [map_append, map_singleton, ← concat_eq_append] at h
  exact ((nodup_concat _ _).mp h).1

theorem mem_of_lastOr {p : ℕ} (h : lastOr (firstOr l' none) l = some p) : p ∈ (l ++ l').map Prod.fst := by
  rcases eq_nil_or_concat' l with rfl | ⟨front, y, rfl⟩
  · cases l' with
    | nil => cases h
    | cons z l' =>
      obtain rfl := some.inj h
      simp
  · rw [lastOr_concat] at h
    obtain rfl := some.inj h
    simp

/-- The new cell is linked in behind `SL_Point`. -/
theorem Holds.slInsertAfterPoint (l l' : List (ℕ × SLRegion)) (h : st.Holds (l ++ l')) (hpoint : st.slPoint = lastOr none l) (region : SLRegion) :
    ∃ st', st.slInsertAfterPoint region = some (st.fresh, st') ∧ st'.Holds (l ++ (st.fresh, region) :: l') ∧
      st'.slPoint = some st.fresh ∧ st'.fresh = st.fresh + 1 := by
  have hnew := h.fresh_notMem
  obtain ⟨hnewl, hnewl'⟩ : st.fresh ∉ l.map Prod.fst ∧ st.fresh ∉ l'.map Prod.fst := by
    simpa only [map_append, mem_append, not_or] using hnew
  obtain ⟨hnodup, hnodup', hdisjoint⟩ := nodup_append.mp (map_append ▸ h.nodup)
  have hkeep := h.part.update (c := some { item := region }) hnew
  obtain ⟨hleft, hright⟩ := part_append.mp hkeep
  -- all that is left to show is that the cells are linked
  have hdone : ∀ memory structureList, Part memory none (l ++ (st.fresh, region) :: l') none →
      structureList = firstOr (l ++ (st.fresh, region) :: l') none →
      Holds { memory, fresh := st.fresh + 1, structureList, slPoint := some st.fresh } (l ++ (st.fresh, region) :: l') := by
    intro memory structureList hpart hfirst
    refine ⟨hpart, hfirst, ?_, ?_, ?_⟩
    · rw [map_append, map_cons, nodup_middle, nodup_cons, ← map_append]
      exact ⟨hnew, h.nodup⟩
    · intro x hx
      rcases mem_append.mp hx with hx | hx
      · exact (h.below x (mem_append_left _ hx)).trans (lt_succ_self _)
      · rcases mem_cons.mp hx with rfl | hx
        · exact lt_succ_self _
        · exact (h.below x (mem_append_right _ hx)).trans (lt_succ_self _)
    · rintro p ⟨⟩
      simp
  have hcell : Part (Function.update st.memory st.fresh (some { item := region })) none ([] ++ [(st.fresh, region)]) none :=
    ⟨Function.update_self .., trivial⟩
  have hne : ∀ x ∈ l ++ l', x.1 ≠ st.fresh := fun x hx => (h.below x hx).ne
  unfold SLState.slInsertAfterPoint
  rcases eq_nil_or_concat' l with rfl | ⟨front, y, rfl⟩
  · rw [hpoint, h.first]
    cases l' with
    | nil => exact ⟨_, rfl, hdone _ _ hcell rfl, rfl, rfl⟩
    | cons z back =>
      have hz : z.1 ≠ st.fresh := hne z (by simp)
      obtain ⟨m₁, hnext, hpart₁, hframe₁⟩ := hcell.setNext (by simp) (some z.1)
      have hright₁ := hright.congr fun x hx => hframe₁ x.1 (hne x (by simpa using hx))
      obtain ⟨m₂, hprev, hpart₂, hframe₂⟩ := hright₁.setPrev (nodup_cons.mp hnodup').1 (some st.fresh)
      have hlinked : Part m₂ none ((st.fresh, region) :: z :: back) none :=
        ⟨(hframe₂ _ hz.symm).trans hpart₁.1, hpart₂⟩
      refine ⟨_, ?_, hdone m₂ (some st.fresh) hlinked rfl, rfl, rfl⟩
      simp only [nil_append, firstOr_cons, lastOr_nil, hnext, hprev, bind_eq_bind, bind_some]
  · have hy : y.1 ≠ st.fresh := hne y (by simp)
    have hyfront := nodup_concat_keys hnodup
    have hlast := hleft.get
    rw [hpoint, lastOr_concat]
    cases l' with
    | nil =>
      obtain ⟨m₁, hprev, hpart₁, hframe₁⟩ := Part.setPrev hcell (by simp) (some y.1)
      have hleft₁ := hleft.congr fun x hx => hframe₁ x.1 (hne x (by simpa using hx))
      obtain ⟨m₂, hnext, hpart₂, hframe₂⟩ := hleft₁.setNext hyfront (some st.fresh)
      have hlinked : Part m₂ none (front ++ [y] ++ [(st.fresh, region)]) none := by
        refine part_append.mpr ⟨hpart₂, ?_, trivial⟩
        rw [hframe₂ _ hy.symm, lastOr_concat]
        exact hpart₁.1
      refine ⟨_, ?_, hdone m₂ st.structureList hlinked (by rw [h.first]; cases front <;> rfl), rfl, rfl⟩
      simp only [hlast, firstOr_nil, hprev, hnext, bind_eq_bind, bind_some]
    | cons z back =>
      have hz : z.1 ≠ st.fresh := hne z (by simp)
      have hyz : y.1 ≠ z.1 := hdisjoint y.1 (by simp) z.1 (by simp)
      obtain ⟨m₁, hnext₁, hpart₁, hframe₁⟩ := hcell.setNext (by simp) (some z.1)
      have hright₁ := hright.congr fun x hx => hframe₁ x.1 (hne x (by simp [mem_cons.mp hx]))
      obtain ⟨m₂, hprev₂, hpart₂, hframe₂⟩ := hright₁.setPrev (nodup_cons.mp hnodup').1 (some st.fresh)
      have hleft₂ := (hleft.congr fun x hx => hframe₁ x.1 (hne x (mem_append_left _ hx))).congr
        fun x hx => hframe₂ x.1 (hdisjoint x.1 (mem_map_of_mem hx) z.1 (by simp))
      obtain ⟨m₃, hnext₃, hpart₃, hframe₃⟩ := hleft₂.setNext hyfront (some st.fresh)
      have hcell₃ : Part m₃ none [(st.fresh, region)] (some z.1) :=
        hpart₁.congr fun x hx => by
          obtain rfl := mem_singleton.mp hx
          exact (hframe₃ _ hy.symm).trans (hframe₂ _ hz.symm)
      have hright₃ := hpart₂.congr fun x hx =>
        hframe₃ x.1 (hdisjoint y.1 (by simp) x.1 (mem_map_of_mem hx)).symm
      obtain ⟨m₄, hprev₄, hpart₄, hframe₄⟩ := hcell₃.setPrev (by simp) (some y.1)
      have hlinked : Part m₄ none (front ++ [y] ++ (st.fresh, region) :: z :: back) none := by
        refine part_append.mpr ⟨hpart₃.congr fun x hx => hframe₄ x.1 (hne x (mem_append_left _ hx)), ?_, ?_⟩
        · rw [lastOr_concat]
          exact hpart₄.1
        · exact hright₃.congr fun x hx => hframe₄ x.1 (hne x (mem_append_right _ hx))
      refine ⟨_, ?_, hdone m₄ st.structureList hlinked (by rw [h.first]; cases front <;> rfl), rfl, rfl⟩
      simp only [hlast, firstOr_nil, firstOr_cons, hnext₁, hprev₂, hnext₃, hprev₄, bind_eq_bind, bind_some]

/-- A cell is taken out of the list. -/
theorem Holds.slDelete (h : st.Holds (l ++ x :: l')) :
    ∃ st', st.slDelete x.1 = some st' ∧ st'.Holds (l ++ l') ∧ st'.fresh = st.fresh ∧
      st'.slPoint = if st.slPoint = some x.1 then lastOr (firstOr l' none) l else st.slPoint := by
  have hnodup := h.nodup
  rw [map_append, map_cons, nodup_middle, nodup_cons, ← map_append] at hnodup
  obtain ⟨hx, hnodup⟩ := hnodup
  obtain ⟨hleft, hcell, hright⟩ := part_append.mp h.part
  obtain ⟨hnodupl, hnodupl', hdisjoint⟩ := nodup_append.mp (map_append ▸ hnodup)
  -- all that is left to show is that the other cells are linked
  have hdone : ∀ (memory : Memory SLRegion) (structureList : Option ℕ), Part memory none l (firstOr l' none) →
      Part memory (lastOr none l) l' none → structureList = firstOr (l ++ l') none →
      Holds { st with
        memory := Function.update memory x.1 none
        structureList
        slPoint := if st.slPoint = some x.1 then lastOr (firstOr l' none) l else st.slPoint } (l ++ l') := by
    intro memory structureList hl hl' hfirst
    refine ⟨Part.update (part_append.mpr ⟨hl, hl'⟩) hx, hfirst, hnodup, fun y hy => h.below y ?_, fun p hp => ?_⟩
    · rcases mem_append.mp hy with hy | hy
      · exact mem_append_left _ hy
      · exact mem_append_right _ (mem_cons_of_mem _ hy)
    · dsimp only at hp
      split_ifs at hp with heq
      · exact mem_of_lastOr hp
      · have hmem := h.point p hp
        rw [map_append, map_cons, mem_append, mem_cons] at hmem
        rw [map_append, mem_append]
        rcases hmem with hmem | rfl | hmem
        · exact .inl hmem
        · exact absurd hp heq
        · exact .inr hmem
  unfold SLState.slDelete
  rw [hcell]
  rcases eq_nil_or_concat' l with rfl | ⟨front, y, rfl⟩
  · obtain ⟨m', hset, hpart, -⟩ := setPrevOf_part hright hnodupl' none
    refine ⟨_, ?_, hdone m' (firstOr l' none) trivial hpart rfl, rfl, rfl⟩
    simp only [lastOr_nil, hset, bind_eq_bind, bind_some]
  · obtain ⟨m₁, hnext, hpart₁, hframe₁⟩ := hleft.setNext (nodup_concat_keys hnodupl) (firstOr l' none)
    have hright₁ := hright.congr fun z hz =>
      hframe₁ z.1 (hdisjoint y.1 (by simp) z.1 (mem_map_of_mem hz)).symm
    obtain ⟨m₂, hprev, hpart₂, hframe₂⟩ := setPrevOf_part hright₁ hnodupl' (some y.1)
    have hleft₂ := hpart₁.congr fun z hz => hframe₂ z.1 fun hmem => hdisjoint z.1 (mem_map_of_mem hz) z.1 hmem rfl
    refine ⟨_, ?_, hdone m₂ st.structureList hleft₂ (by rwa [lastOr_concat]) (by rw [h.first]; cases front <;> rfl), rfl, rfl⟩
    simp only [lastOr_concat, hnext, hprev, bind_eq_bind, bind_some]

/-! ## Seeking -/

/-- The regions that begin at `cpos` or in front of it. -/
def upTo (cpos : ℤ) (l : List (ℕ × SLRegion)) : List (ℕ × SLRegion) := l.takeWhile fun y => y.2.start ≤ cpos

abbrev Sorted (l : List (ℕ × SLRegion)) : Prop := SLRegion.Ascending (l.map Prod.snd)

variable {front back : List (ℕ × SLRegion)} {cpos : ℤ}

theorem Sorted.starts_lt (hs : Sorted (front ++ x :: back)) : ∀ y ∈ front, y.2.start < x.2.start := fun y hy => by
  have hapart := hs.apart
  rw [map_append, map_cons, pairwise_append] at hapart
  exact (hs.nonempty y.2 (mem_map_of_mem (mem_append_left _ hy))).trans_lt
    (hapart.2.2 y.2 (mem_map_of_mem hy) x.2 mem_cons_self)

theorem Sorted.stop_lt (hs : Sorted (front ++ x :: back)) : ∀ y ∈ back, x.2.stop < y.2.start := fun y hy => by
  have hapart := hs.apart
  rw [map_append, map_cons, pairwise_append] at hapart
  exact rel_of_pairwise_cons hapart.2.1 (mem_map_of_mem hy)

theorem upTo_append (hfront : ∀ y ∈ front, y.2.start ≤ cpos) (hback : ∀ y ∈ back.head?, cpos < y.2.start) :
    upTo cpos (front ++ back) = front := by
  rw [upTo, takeWhile_append_of_pos fun y hy => decide_eq_true (hfront y hy)]
  cases back with
  | nil => simp
  | cons y back =>
    have hy := hback y rfl
    rw [takeWhile_cons_of_neg (by simpa using hy), append_nil]

/-- Where the region at the point is the last one that begins up to `cpos`, the loop ends. -/
theorem seekLoop_here (h : st.Holds (front ++ x :: back)) (hs : Sorted (front ++ x :: back))
    (hpoint : st.slPoint = some x.1) (hx : x.2.start ≤ cpos) (hback : ∀ y ∈ back.head?, cpos < y.2.start) (fuel : ℕ) :
    seekLoop cpos (fuel + 1) st = some (some x.1, st) ∧ upTo cpos (front ++ x :: back) = front ++ [x] := by
  refine ⟨?_, ?_⟩
  · rw [seekLoop, hpoint]
    simp only [h.part.get, bind_eq_bind, bind_some]
    by_cases hin : cpos ≤ x.2.stop
    · rw [if_pos ⟨hx, hin⟩]
    · rw [if_neg fun hc => hin hc.2, if_neg (not_lt.mpr hx)]
      cases back with
      | nil => rfl
      | cons y back =>
        have hget := LinkedList.Part.get (append_cons front x (y :: back) ▸ h.part)
        simp only [firstOr_cons, hget, bind_some]
        rw [if_neg fun hc => not_lt.mpr hc.2 (hback y rfl)]
  · have hfront : ∀ y ∈ front ++ [x], y.2.start ≤ cpos := fun y hy => by
      rcases mem_append.mp hy with hy | hy
      · exact (hs.starts_lt y hy).le.trans hx
      · obtain rfl := mem_singleton.mp hy
        exact hx
    rw [append_cons]
    exact upTo_append hfront hback

/-- From a region that begins up to `cpos` the loop walks to the right. -/
theorem seekLoop_right (h : st.Holds (front ++ x :: back)) (hs : Sorted (front ++ x :: back)) (hx : x.2.start ≤ cpos)
    {fuel : ℕ} (hfuel : back.length < fuel) :
    ∃ p, lastOr none (upTo cpos (front ++ x :: back)) = some p ∧
      seekLoop cpos fuel { st with slPoint := some x.1 } = some (some p, { st with slPoint := some p }) := by
  induction back generalizing front x fuel with
  | nil =>
    obtain ⟨fuel, rfl⟩ := exists_eq_add_one_of_ne_zero (Nat.ne_zero_of_lt hfuel)
    have hmoved := h.moved (some x.1) (by rintro p ⟨⟩; simp)
    obtain ⟨hloop, hupTo⟩ := seekLoop_here hmoved hs rfl hx (by simp) fuel
    exact ⟨x.1, by rw [hupTo, lastOr_concat], hloop⟩
  | cons y back ih =>
    obtain ⟨fuel, rfl⟩ := exists_eq_add_one_of_ne_zero (Nat.ne_zero_of_lt hfuel)
    by_cases hy : y.2.start ≤ cpos
    · have hstop := hs.stop_lt y mem_cons_self
      have hgetx := h.part.get
      rw [append_cons] at h hs ⊢
      have hgety := h.part.get
      obtain ⟨p, hp, hloop⟩ := ih h hs hy (lt_of_succ_lt_succ hfuel)
      refine ⟨p, hp, ?_⟩
      rw [seekLoop]
      simp only [hgetx, bind_eq_bind, bind_some]
      rw [if_neg fun hc => by omega, if_neg (not_lt.mpr hx)]
      simp only [firstOr_cons, hgety, bind_some]
      rw [if_pos ⟨by omega, hy⟩]
      exact hloop
    · have hmoved := h.moved (some x.1) (by rintro p ⟨⟩; simp)
      obtain ⟨hloop, hupTo⟩ := seekLoop_here hmoved hs rfl hx (fun z hz => by simpa [← some.inj hz] using hy) fuel
      exact ⟨x.1, by rw [hupTo, lastOr_concat], hloop⟩

/-- From a region behind `cpos` it walks to the left. -/
theorem seekLoop_left (h : st.Holds (front ++ x :: back)) (hs : Sorted (front ++ x :: back)) (hx : cpos < x.2.start)
    {fuel : ℕ} (hfuel : front.length + 1 < fuel) :
    seekLoop cpos fuel { st with slPoint := some x.1 } =
      some (lastOr none (upTo cpos (front ++ x :: back)),
        { st with slPoint := lastOr none (upTo cpos (front ++ x :: back)) }) := by
  induction front using reverseRecOn generalizing x back fuel with
  | nil =>
    obtain ⟨fuel, rfl⟩ : ∃ k, fuel = k + 2 := ⟨fuel - 2, by simp only [length_nil] at hfuel; omega⟩
    have hupTo : upTo cpos ([] ++ x :: back) = [] := upTo_append (by simp) (by rintro y ⟨⟩; exact hx)
    have hget := h.part.get
    rw [hupTo, seekLoop]
    simp only [hget, bind_eq_bind, bind_some]
    rw [if_neg fun hc => not_lt.mpr hc.1 hx, if_pos hx]
    simp [seekLoop]
  | append_singleton front y ih =>
    obtain ⟨fuel, rfl⟩ := exists_eq_add_one_of_ne_zero (Nat.ne_zero_of_lt hfuel)
    have hget := h.part.get
    rw [seekLoop]
    simp only [hget, bind_eq_bind, bind_some]
    rw [if_neg fun hc => not_lt.mpr hc.1 hx, if_pos hx, lastOr_concat]
    rw [length_append, length_singleton] at hfuel
    rw [← append_cons] at h hs ⊢
    by_cases hy : y.2.start ≤ cpos
    · obtain ⟨fuel, rfl⟩ := exists_eq_add_one_of_ne_zero (show fuel ≠ 0 by omega)
      have hmoved := h.moved (some y.1) (by rintro p ⟨⟩; simp)
      obtain ⟨hloop, hupTo⟩ := seekLoop_here hmoved hs rfl hy (by rintro z ⟨⟩; exact hx) fuel
      rw [hupTo, lastOr_concat]
      exact hloop
    · exact ih h hs (not_le.mp hy) (by omega)

/-- `SL_seek` finds the last region that begins up to `cpos`, wherever the point is. -/
theorem slSeek_eq (h : st.Holds l) (hs : Sorted l) (cpos : ℤ) :
    st.slSeek cpos = some (lastOr none (upTo cpos l), { st with slPoint := lastOr none (upTo cpos l) }) := by
  have hlen := h.length_le
  have hfrom : ∀ p, p ∈ l.map Prod.fst → seekLoop cpos (st.fresh + 2) { st with slPoint := some p } =
      some (lastOr none (upTo cpos l), { st with slPoint := lastOr none (upTo cpos l) }) := by
    intro p hp
    obtain ⟨x, hx, rfl⟩ := mem_map.mp hp
    obtain ⟨front, back, rfl⟩ := append_of_mem hx
    rw [length_append, length_cons] at hlen
    by_cases hstart : x.2.start ≤ cpos
    · obtain ⟨p, hp, hloop⟩ := seekLoop_right h hs hstart (show back.length < st.fresh + 2 by omega)
      rw [hp, hloop]
    · exact seekLoop_left h hs (not_le.mp hstart) (by omega)
  unfold slSeek
  cases hpoint : st.slPoint with
  | some p =>
    rw [if_neg (by simp)]
    have := hfrom p (h.point p hpoint)
    rwa [← hpoint] at this
  | none =>
    rw [if_pos rfl]
    have hfirst := h.first
    cases l with
    | nil =>
      dsimp only
      rw [hfirst]
      rfl
    | cons x l =>
      have hloop := hfrom x.1 (by simp)
      rw [firstOr_cons] at hfirst
      rwa [← hfirst] at hloop

/-! ## Inserting -/

theorem upTo_split (cpos : ℤ) (l : List (ℕ × SLRegion)) :
    l = upTo cpos l ++ l.dropWhile fun y => y.2.start ≤ cpos :=
  (takeWhile_append_dropWhile ..).symm

/-- The regions behind the new one that it overlaps are deleted. -/
theorem deleteOverlapped_spec (h : st.Holds (front ++ x :: back)) (hpoint : st.slPoint = some x.1) {fuel : ℕ}
    (hfuel : back.length < fuel) :
    ∃ st', deleteOverlapped x.1 fuel st = some st' ∧ st'.Holds (front ++ x :: back.dropWhile fun y => y.2.start ≤ x.2.stop) := by
  induction back generalizing st fuel with
  | nil =>
    obtain ⟨fuel, rfl⟩ := exists_eq_add_one_of_ne_zero (Nat.ne_zero_of_lt hfuel)
    refine ⟨st, ?_, h⟩
    rw [deleteOverlapped, h.part.get]
    rfl
  | cons y back ih =>
    obtain ⟨fuel, rfl⟩ := exists_eq_add_one_of_ne_zero (Nat.ne_zero_of_lt hfuel)
    have hgetx := h.part.get
    rw [append_cons] at h
    have hgety := h.part.get
    rw [deleteOverlapped]
    simp only [hgetx, firstOr_cons, hgety, bind_eq_bind, bind_some]
    by_cases hy : y.2.start ≤ x.2.stop
    · obtain ⟨st', hdelete, hholds, -, hpoint'⟩ := h.slDelete
      have hne : st.slPoint ≠ some y.1 := by
        intro heq
        have hxy := hpoint.symm.trans heq
        have hnodup := h.nodup
        simp only [map_append, map_cons, append_assoc] at hnodup
        have := (nodup_append.mp hnodup).2.1
        simp [some.inj hxy] at this
      rw [if_neg hne, hpoint] at hpoint'
      rw [← append_cons] at hholds
      rw [if_pos hy, hdelete, bind_some, dropWhile_cons_of_pos (by simpa using hy)]
      exact ih hholds hpoint' (lt_of_succ_lt_succ hfuel)
    · rw [if_neg hy, dropWhile_cons_of_neg (by simpa using hy)]
      rw [← append_cons] at h
      exact ⟨st, rfl, h⟩

theorem Sorted.dropWhile_gt (hs : Sorted l) (c : ℤ) : ∀ y ∈ l.dropWhile (fun y => y.2.start ≤ c), c < y.2.start := by
  intro y hy
  have hhead := head?_dropWhile_not (fun y : ℕ × SLRegion => decide (y.2.start ≤ c)) l
  have hs' : Sorted (l.dropWhile fun y => y.2.start ≤ c) :=
    ⟨hs.apart.sublist ((dropWhile_suffix _).sublist.map _),
      fun r hr => hs.nonempty r (((dropWhile_suffix _).sublist.map _).subset hr)⟩
  cases hdrop : l.dropWhile fun y => y.2.start ≤ c with
  | nil =>
    rw [hdrop] at hy
    cases hy
  | cons z rest =>
    rw [hdrop] at hy hhead hs'
    have hz : c < z.2.start := by simpa using hhead
    rcases mem_cons.mp hy with rfl | hy
    · exact hz
    · have hlt := Sorted.stop_lt (show Sorted ([] ++ z :: rest) from hs') y hy
      have hle := hs'.nonempty z.2 (by simp)
      omega

/-- The regions behind the place of the new one: first those that it overlaps. -/
theorem overlapped_behind (hs : Sorted l) (region : SLRegion) :
    (∀ r ∈ ((l.dropWhile fun y => y.2.start ≤ region.start).takeWhile fun y => y.2.start ≤ region.stop).map Prod.snd,
      r.Overlaps region ∧ ¬r.Beats region) ∧
    ∀ r ∈ ((l.dropWhile fun y => y.2.start ≤ region.start).dropWhile fun y => y.2.start ≤ region.stop).map Prod.snd,
      region.stop < r.start := by
  have hsub : (l.dropWhile fun y => y.2.start ≤ region.start).Sublist l := (dropWhile_suffix _).sublist
  have hs' : Sorted (l.dropWhile fun y => y.2.start ≤ region.start) :=
    ⟨hs.apart.sublist (hsub.map _), fun r hr => hs.nonempty r ((hsub.map _).subset hr)⟩
  refine ⟨fun r hr => ?_, fun r hr => ?_⟩
  · obtain ⟨y, hy, rfl⟩ := mem_map.mp hr
    have hstop : y.2.start ≤ region.stop := by simpa using mem_takeWhile_imp hy
    have hmem := (List.takeWhile_prefix _).subset hy
    have hstart := hs.dropWhile_gt region.start y hmem
    have hne := hs'.nonempty y.2 (mem_map_of_mem hmem)
    refine ⟨⟨hstop, by omega⟩, ?_⟩
    rintro (hlt | ⟨heq, -⟩) <;> omega
  · obtain ⟨y, hy, rfl⟩ := mem_map.mp hr
    exact hs'.dropWhile_gt region.stop y hy

/-- Whatever of `overlapped` the insertion itself deletes, the loop deletes the rest. -/
theorem finish (hs : Sorted l) (hregion : region.start ≤ region.stop) (front overlapped : List (ℕ × SLRegion))
    (hl : l = front ++ overlapped ++ l.dropWhile fun y => y.2.start ≤ region.start)
    (hfront : ∀ y ∈ front, y.2.stop < region.start)
    (hoverlapped : ∀ y ∈ overlapped, y.2.Overlaps region ∧ ¬y.2.Beats region) {p : ℕ} (hpoint : st.slPoint = some p)
    (h : st.Holds (front ++ (p, region) :: l.dropWhile fun y => y.2.start ≤ region.start)) :
    ∃ st' l', deleteOverlapped p (st.fresh + 1) st = some st' ∧ st'.Holds l' ∧
      l'.map Prod.snd = SLRegion.insertInto (l.map Prod.snd) region := by
  have hlen := h.length_le
  rw [length_append, length_cons] at hlen
  obtain ⟨st', hdelete, hholds⟩ := deleteOverlapped_spec h hpoint (show _ < st.fresh + 1 by omega)
  refine ⟨st', _, hdelete, hholds, ?_⟩
  obtain ⟨hbetween, hbehind⟩ := overlapped_behind hs region
  have hback := takeWhile_append_dropWhile (p := fun y : ℕ × SLRegion => y.2.start ≤ region.stop)
    (l := l.dropWhile fun y => y.2.start ≤ region.start)
  rw [← hback] at hl
  have hregions := congrArg (List.map Prod.snd) hl
  simp only [map_append, append_assoc] at hregions
  rw [← append_assoc (overlapped.map Prod.snd)] at hregions
  have hsorted : SLRegion.Ascending (l.map Prod.snd) := hs
  rw [hregions] at hsorted ⊢
  rw [SLRegion.insertInto_eq hsorted hregion _ _ hbehind]
  · simp
  · intro r hr
    obtain ⟨y, hy, rfl⟩ := mem_map.mp hr
    exact hfront y hy
  · intro r hr
    rcases mem_append.mp hr with hr | hr
    · obtain ⟨y, hy, rfl⟩ := mem_map.mp hr
      exact hoverlapped y hy
    · exact hbetween r hr

/-- `SL_insert` inserts the region as `insertInto` does. -/
theorem Holds.slInsert (h : st.Holds l) (hs : Sorted l) (hregion : region.start ≤ region.stop) :
    ∃ st' l', st.slInsert region = some st' ∧ st'.Holds l' ∧ l'.map Prod.snd = SLRegion.insertInto (l.map Prod.snd) region := by
  have hsplit := upTo_split region.start l
  unfold SLState.slInsert
  rw [slSeek_eq h hs, bind_eq_bind, bind_some]
  rcases eq_nil_or_concat' (upTo region.start l) with hupTo | ⟨front, x, hupTo⟩
  · rw [hupTo, nil_append] at hsplit
    have hmoved := h.moved none (by simp)
    obtain ⟨st₁, hinsert, hholds, hpoint, -⟩ :=
      Holds.slInsertAfterPoint [] (l.dropWhile fun y => y.2.start ≤ region.start)
        (by rw [nil_append, ← hsplit]; exact hmoved) rfl region
    obtain ⟨st', l', hdelete, hholds', hregions⟩ :=
      finish hs hregion [] [] (by simpa using hsplit) (by simp) (by simp) hpoint hholds
    refine ⟨st', l', ?_, hholds', hregions⟩
    simp only [hupTo, lastOr_nil, hinsert, bind_eq_bind, bind_some, map_some]
    exact hdelete
  · have hx : x.2.start ≤ region.start := by
      have hmem : x ∈ upTo region.start l := by simp [hupTo]
      simpa using mem_takeWhile_imp hmem
    rw [hupTo] at hsplit
    have hmoved := h.moved (some x.1) (by rintro p ⟨⟩; rw [hsplit]; simp)
    obtain ⟨sl, hget, hitem⟩ : ∃ sl, st.memory x.1 = some sl ∧ sl.item = x.2 := by
      have hpart := h.part
      rw [hsplit, ← append_cons] at hpart
      exact ⟨_, hpart.get, rfl⟩
    have hfront : ∀ y ∈ front, y.2.stop < x.2.start := fun y hy => by
      have hapart := hs.apart
      rw [hsplit] at hapart
      simp only [map_append, map_cons, map_nil, append_assoc] at hapart
      exact (pairwise_append.mp hapart).2.2 y.2 (mem_map_of_mem hy) x.2 (by simp)
    obtain ⟨st₁, hinsert, hholds, hpoint, -⟩ :=
      Holds.slInsertAfterPoint (front ++ [x]) (l.dropWhile fun y => y.2.start ≤ region.start)
        (by rw [← hsplit]; exact hmoved) (lastOr_concat ..).symm region
    simp only [hupTo, lastOr_concat, hget, hitem, bind_eq_bind, bind_some]
    by_cases hin : x.2.start ≤ region.start ∧ region.start ≤ x.2.stop
    · rw [if_pos hin]
      by_cases hbeats : x.2.start < region.start ∨ x.2.stop > region.stop
      · -- the region that is there wins
        have hmem : x.2 ∈ l.map Prod.snd := mem_map_of_mem (by rw [hsplit]; simp)
        have hwins : ∃ r ∈ l.map Prod.snd, r.Overlaps region ∧ r.Beats region :=
          ⟨x.2, hmem, ⟨hin.1.trans hregion, hin.2⟩, by unfold SLRegion.Beats; omega⟩
        rw [if_pos hbeats]
        exact ⟨_, l, rfl, hmoved, (if_pos hwins).symm⟩
      · rw [not_or] at hbeats
        rw [← append_cons] at hholds
        obtain ⟨st₂, hdelete₂, hholds₂, -, hpoint₂⟩ := hholds.slDelete
        have hne : x.1 ≠ st.fresh := (h.below x (by rw [hsplit]; simp)).ne
        rw [hpoint, if_neg fun heq => hne (some.inj heq).symm] at hpoint₂
        have hoverlapped : ∀ y ∈ [x], y.2.Overlaps region ∧ ¬y.2.Beats region := fun y hy => by
          obtain rfl := mem_singleton.mp hy
          refine ⟨⟨hin.1.trans hregion, hin.2⟩, ?_⟩
          unfold SLRegion.Beats
          omega
        obtain ⟨st', l', hdelete, hholds', hregions⟩ :=
          finish hs hregion front [x] hsplit (fun y hy => (hfront y hy).trans_le hx) hoverlapped hpoint₂ hholds₂
        refine ⟨st', l', ?_, hholds', hregions⟩
        rw [if_neg (not_or.mpr hbeats)]
        simp only [hinsert, hdelete₂, bind_some]
        exact hdelete
    · have hbefore : ∀ y ∈ front ++ [x], y.2.stop < region.start := fun y hy => by
        rcases mem_append.mp hy with hy | hy
        · exact (hfront y hy).trans_le hx
        · obtain rfl := mem_singleton.mp hy
          omega
      obtain ⟨st', l', hdelete, hholds', hregions⟩ :=
        finish hs hregion (front ++ [x]) [] (by simpa using hsplit) hbefore (by simp) hpoint hholds
      refine ⟨st', l', ?_, hholds', hregions⟩
      rw [if_neg hin]
      simp only [hinsert, bind_some, map_some]
      exact hdelete

/-! ## Runs -/

theorem Holds.slRewind (h : st.Holds l) : st.slRewind.Holds l :=
  h.moved _ fun p hp => by
    rw [h.first] at hp
    exact mem_of_lastOr (l := []) hp

theorem Holds.slNext (h : st.Holds l) :
    ∃ st', st.slNext = some (st.slPoint, st') ∧ st'.Holds l := by
  unfold SLState.slNext
  cases hpoint : st.slPoint with
  | none => exact ⟨st, rfl, h⟩
  | some item =>
    obtain ⟨x, hx, rfl⟩ := mem_map.mp (h.point item hpoint)
    obtain ⟨front, back, rfl⟩ := append_of_mem hx
    refine ⟨{ st with slPoint := firstOr back none }, ?_, h.moved _ fun p hp => ?_⟩
    · simp only [h.part.get, bind_eq_bind, bind_some]
    · have hmem := mem_of_lastOr (l := []) hp
      rw [map_append, map_cons]
      exact mem_append_right _ (mem_cons_of_mem _ hmem)

/-- What the calls insert, one region after the other. -/
def inserted : List SLCall → List SLRegion
  | [] => []
  | .insert region :: calls => region :: inserted calls
  | .rewind :: calls | .next :: calls => inserted calls

theorem Holds.perform (h : st.Holds l) (hs : Sorted l) (call : SLCall)
    (hcall : ∀ region, call = .insert region → region.start ≤ region.stop) :
    ∃ st' l', st.perform call = some st' ∧ st'.Holds l' ∧ Sorted l' ∧
      l'.map Prod.snd = (inserted [call]).foldl SLRegion.insertInto (l.map Prod.snd) := by
  cases call with
  | insert region =>
    have hregion := hcall region rfl
    obtain ⟨st', l', hinsert, hholds, hregions⟩ := h.slInsert hs hregion
    refine ⟨st', l', hinsert, hholds, ?_, hregions⟩
    rw [Sorted, hregions]
    exact SLRegion.Ascending.insertInto hs hregion
  | rewind => exact ⟨_, l, rfl, h.slRewind, hs, rfl⟩
  | next =>
    obtain ⟨st', hnext, hholds⟩ := h.slNext
    refine ⟨st', l, ?_, hholds, hs, rfl⟩
    rw [SLState.perform, hnext]
    rfl

theorem Holds.run (h : st.Holds l) (hs : Sorted l) {calls : List SLCall}
    (hcalls : ∀ region, .insert region ∈ calls → region.start ≤ region.stop) :
    ∃ st' l', calls.foldlM SLState.perform st = some st' ∧ st'.Holds l' ∧ Sorted l' ∧
      l'.map Prod.snd = (inserted calls).foldl SLRegion.insertInto (l.map Prod.snd) := by
  induction calls generalizing st l with
  | nil => exact ⟨st, l, rfl, h, hs, rfl⟩
  | cons call calls ih =>
    obtain ⟨st₁, l₁, hperform, hholds, hsorted, hregions⟩ :=
      h.perform hs call fun region hr => hcalls region (by simp [hr])
    obtain ⟨st', l', hrun, hholds', hsorted', hregions'⟩ :=
      ih hholds hsorted fun region hr => hcalls region (mem_cons_of_mem _ hr)
    refine ⟨st', l', ?_, hholds', hsorted', ?_⟩
    · rw [foldlM_cons, hperform, bind_eq_bind, bind_some, hrun]
    · rw [hregions', hregions, ← foldl_append]
      cases call <;> rfl

end SLState

/-- The list stays sorted in every run, and the point makes no difference for what is found. -/
theorem structureList_sorted (calls : List SLCall) (hcalls : ∀ region, .insert region ∈ calls → region.start ≤ region.stop) :
    ∃ st l, calls.foldlM SLState.perform {} = some st ∧ st.Holds l ∧ SLRegion.Ascending (l.map Prod.snd) ∧
      l.map Prod.snd = (SLState.inserted calls).foldl SLRegion.insertInto [] ∧
      ∀ cpos, ∃ point, st.slSeek cpos = some (point, { st with slPoint := point }) ∧
        SLState.slSeek { st with slPoint := none } cpos = some (point, { st with slPoint := point }) := by
  obtain ⟨st, l, hrun, hholds, hsorted, hregions⟩ :=
    SLState.holds_empty.run (l := []) ⟨List.Pairwise.nil, by simp⟩ hcalls
  refine ⟨st, l, hrun, hholds, hsorted, hregions, fun cpos => ?_⟩
  have hhead := hholds.moved none (by simp)
  exact ⟨_, SLState.slSeek_eq hholds hsorted cpos, SLState.slSeek_eq hhead hsorted cpos⟩

/-- A longer region with the same start takes the place of one, one with an earlier start of another. -/
theorem structureList_sorted_overlaps :
    ∃ st l, [.insert ⟨5, 7, none⟩, .insert ⟨20, 24, none⟩, .rewind, .next, .insert ⟨5, 9, none⟩, .insert ⟨6, 21, none⟩,
        .insert ⟨18, 20, none⟩].foldlM SLState.perform {} = some st ∧ st.Holds l ∧
      l.map Prod.snd = [⟨5, 9, none⟩, ⟨18, 20, none⟩] := by
  obtain ⟨st, l, hrun, hholds, -, hregions, -⟩ := structureList_sorted
    [.insert ⟨5, 7, none⟩, .insert ⟨20, 24, none⟩, .rewind, .next, .insert ⟨5, 9, none⟩, .insert ⟨6, 21, none⟩,
      .insert ⟨18, 20, none⟩] (by simp)
  exact ⟨st, l, hrun, hholds, hregions.trans (by decide)⟩

end CWB
