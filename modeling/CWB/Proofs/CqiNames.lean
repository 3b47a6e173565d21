import Mathlib
import CWB.Spec.CqiNames

/-! The checks of names of the CQi server. They are exact but for the empty name, which they only
accept or reject by what follows it in memory; a specifier with an empty part may therefore be taken
apart. -/

namespace CWB.Cqi

open Split Terminated

theorem nameOf_noNull (name : CString) : '\x00' ∉ nameOf name := by
  intro hmem
  obtain ⟨b, hb, hzero⟩ := List.mem_map.mp hmem
  have hvalid : b.toNat.isValidChar := .inl (b.isLt.trans (by decide))
  have hcode : b.toNat = 0 := by
    have h := congrArg Char.toNat hzero
    rw [Char.ofNat, dif_pos hvalid] at h
    exact h
  have hnull : b = 0 := BitVec.eq_of_toNat_eq hcode
  exact name.noNull (hnull ▸ hb)

section Checks

variable {first rest name behind : List Char}

theorem checkNameAt_cons {c : Char} (hname : '\x00' ∉ c :: name) (behind : List Char) :
    checkNameAt first rest (c :: name ++ '\x00' :: behind) =
      some (decide (c ∈ first) && decide (∀ d ∈ name, d ∈ rest)) := by
  have hc : c ≠ '\x00' := (List.ne_of_not_mem_cons hname).symm
  have hrest := List.not_mem_of_not_mem_cons hname
  rw [checkNameAt, List.cons_append, List.head?_cons, List.tail_cons, strlen_append hrest, strspn_append hrest]
  by_cases hfirst : c ∈ first
  · simp [strchrFinds, hfirst, ← length_takeWhile_eq, beq_eq_decide]
  · simp [strchrFinds, hfirst, hc]

/-- Behind an empty name the check goes on. -/
theorem checkNameAt_nil (first rest behind : List Char) :
    checkNameAt first rest ('\x00' :: behind) =
      (strspn '\x00' rest behind).bind fun n => (strlen '\x00' behind).map fun len => n == len := by
  simp [checkNameAt, strchrFinds, Option.map_eq_bind]

theorem checkNameAt_valid (hname : '\x00' ∉ name) (hvalid : ValidName first rest name) (behind : List Char) :
    checkNameAt first rest (name ++ '\x00' :: behind) = some true := by
  cases name with
  | nil => exact hvalid.elim
  | cons c name =>
    rw [checkNameAt_cons hname]
    simpa [ValidName] using hvalid

theorem checkNameAt_true (hname : '\x00' ∉ name) (h : checkNameAt first rest (name ++ '\x00' :: behind) = some true) :
    name = [] ∨ ValidName first rest name := by
  cases name with
  | nil => exact .inl rfl
  | cons c name =>
    rw [checkNameAt_cons hname] at h
    right
    simpa [ValidName] using h

/-- In front of another terminator the empty name is accepted. -/
theorem checkNameAt_empty (first rest : List Char) : checkNameAt first rest ([] ++ ['\x00', '\x00']) = some true := by
  rw [List.nil_append, checkNameAt_nil]
  rfl

theorem checkExact_iff (hname : '\x00' ∉ name) :
    CheckExact (checkNameAt first rest) (ValidName first rest) name ↔ name ≠ [] := by
  cases name with
  | nil =>
    refine ⟨?_, fun h => absurd rfl h⟩
    rintro ⟨ok, hcheck, -⟩
    rw [List.nil_append, checkNameAt_nil] at hcheck
    cases hcheck
  | cons c name => exact ⟨fun _ => List.cons_ne_nil _ _, fun _ => ⟨_, checkNameAt_cons hname [], by simp [ValidName]⟩⟩

end Checks

/-! ## Specifiers -/

theorem splitParts_noNull {sep : Char} {spec part part' : List Char} (h : splitAtFirst sep spec = some (part, part'))
    (hspec : '\x00' ∉ spec) : '\x00' ∉ part ∧ '\x00' ∉ part' := by
  obtain ⟨rfl, -⟩ := splitAtFirst_some h
  exact ⟨fun hmem => hspec (List.mem_append_left _ hmem), fun hmem => hspec (List.mem_append_right _ (List.mem_cons_of_mem _ hmem))⟩

section Parts

variable {first rest first' rest' part part' : List Char}

theorem checkParts_true {check check' : List Char → Option Bool} {heap : Heap} :
    checkParts check check' heap part part' = some true ↔
      check (part ++ '\x00' :: heap.behindFirst) = some true ∧ check' (part' ++ '\x00' :: heap.behindSecond) = some true := by
  rw [checkParts]
  cases check (part ++ '\x00' :: heap.behindFirst) with
  | none => simp
  | some ok =>
    cases ok with
    | false => simp
    | true => simp

/-- The checks accept valid names only, unless one of the names is empty. -/
theorem checkParts_sound_iff (hpart : '\x00' ∉ part) (hpart' : '\x00' ∉ part') :
    (∀ heap, checkParts (checkNameAt first rest) (checkNameAt first' rest') heap part part' = some true →
      ValidName first rest part ∧ ValidName first' rest' part') ↔
      ¬EmptyPart (ValidName first rest) (ValidName first' rest') part part' := by
  constructor
  · intro hsound hempty
    have haccepted : ∀ {first rest name : List Char}, '\x00' ∉ name → name = [] ∨ ValidName first rest name →
        checkNameAt first rest (name ++ '\x00' :: ['\x00']) = some true := by
      intro first rest name hname hcase
      obtain rfl | hvalid := hcase
      · exact checkNameAt_empty first rest
      · exact checkNameAt_valid hname hvalid _
    have hsound := hsound ⟨['\x00'], ['\x00']⟩
    rw [checkParts_true] at hsound
    obtain ⟨rfl, hcase⟩ | ⟨hvalid, rfl⟩ := hempty
    · exact (hsound ⟨haccepted hpart (.inl rfl), haccepted hpart' hcase⟩).1
    · exact (hsound ⟨haccepted hpart (.inr hvalid), haccepted hpart' (.inl rfl)⟩).2
  · intro hfull heap hparts
    obtain ⟨hcheck, hcheck'⟩ := checkParts_true.mp hparts
    obtain rfl | hvalid := checkNameAt_true hpart hcheck
    · exact absurd (.inl ⟨rfl, checkNameAt_true hpart' hcheck'⟩) hfull
    · obtain rfl | hvalid' := checkNameAt_true hpart' hcheck'
      · exact absurd (.inr ⟨hvalid, rfl⟩) hfull
      · exact ⟨hvalid, hvalid'⟩

end Parts

theorem bind_ite_some {α : Type} {x : Option Bool} {a b : α} :
    (x.bind fun ok => pure (if ok = true then some a else none)) = some (some b) ↔ x = some true ∧ a = b := by
  cases x with
  | none => simp
  | some ok =>
    cases ok with
    | false => simp
    | true => simp

variable {spec : List Char}

theorem attributeSplitSound_iff (hspec : '\x00' ∉ spec) :
    AttributeSplitSound spec ↔ ¬HasEmptyPart '.' ValidCorpusName ValidAttributeName spec := by
  cases hsplit : splitAtFirst '.' spec with
  | none =>
    have hno : ¬HasEmptyPart '.' ValidCorpusName ValidAttributeName spec := by
      rintro ⟨part, part', hsome, -⟩
      rw [hsplit] at hsome
      cases hsome
    refine ⟨fun _ => hno, fun _ heap corpus att hsome => ?_⟩
    rw [splitAttributeSpecAt, hsplit] at hsome
    cases hsome
  | some p =>
    obtain ⟨part, part'⟩ := p
    obtain ⟨hpart, hpart'⟩ := splitParts_noNull hsplit hspec
    have hempty : HasEmptyPart '.' ValidCorpusName ValidAttributeName spec ↔
        EmptyPart ValidCorpusName ValidAttributeName part part' := by
      rw [HasEmptyPart, hsplit]
      simp
    rw [hempty]
    refine Iff.trans ?_ (checkParts_sound_iff hpart hpart')
    simp only [AttributeSplitSound, splitAttributeSpecAt, hsplit, Option.bind_eq_bind, bind_ite_some]
    constructor
    · intro h heap htrue
      exact h heap part part' ⟨htrue, rfl⟩
    · rintro h heap corpus att ⟨htrue, ⟨⟩⟩
      exact h heap htrue

theorem subcorpusSplitSound_iff (hspec : '\x00' ∉ spec) :
    SubcorpusSplitSound spec ↔ spec ≠ [] ∧ ¬HasEmptyPart ':' ValidCorpusName ValidSubcorpusName spec := by
  cases hsplit : splitAtFirst ':' spec with
  | none =>
    have hno : ¬HasEmptyPart ':' ValidCorpusName ValidSubcorpusName spec := by
      rintro ⟨part, part', hsome, -⟩
      rw [hsplit] at hsome
      cases hsome
    rw [and_iff_left hno]
    simp only [SubcorpusSplitSound, splitSubcorpusSpecAt, hsplit, Option.bind_eq_bind, bind_ite_some]
    constructor
    · rintro h rfl
      exact (h ⟨['\x00'], []⟩ [] none ⟨checkNameAt_empty _ _, rfl⟩).1
    · rintro hne heap corpus subcorpus ⟨htrue, ⟨⟩⟩
      obtain rfl | hvalid := checkNameAt_true hspec htrue
      · exact absurd rfl hne
      · exact ⟨hvalid, fun _ hmem => by cases hmem⟩
  | some p =>
    obtain ⟨part, part'⟩ := p
    obtain ⟨hpart, hpart'⟩ := splitParts_noNull hsplit hspec
    have hempty : HasEmptyPart ':' ValidCorpusName ValidSubcorpusName spec ↔
        EmptyPart ValidCorpusName ValidSubcorpusName part part' := by
      rw [HasEmptyPart, hsplit]
      simp
    have hne : spec ≠ [] := by
      rintro rfl
      cases hsplit
    rw [hempty, and_iff_right hne]
    refine Iff.trans ?_ (checkParts_sound_iff hpart hpart')
    simp only [SubcorpusSplitSound, splitSubcorpusSpecAt, hsplit, Option.bind_eq_bind, bind_ite_some]
    constructor
    · intro h heap htrue
      obtain ⟨hcorpus, hsub⟩ := h heap part (some part') ⟨htrue, rfl⟩
      exact ⟨hcorpus, hsub part' rfl⟩
    · rintro h heap corpus subcorpus ⟨htrue, ⟨⟩⟩
      obtain ⟨hcorpus, hsub⟩ := h heap htrue
      refine ⟨hcorpus, fun name hname => ?_⟩
      cases hname
      exact hsub

/-! ## Combined specifiers -/

/-- A character that is in neither class is in no valid name. -/
theorem ValidName.not_mem {first rest name : List Char} (h : ValidName first rest name) {c : Char} (hfirst : c ∉ first)
    (hrest : c ∉ rest) : c ∉ name := by
  cases name with
  | nil => exact List.not_mem_nil
  | cons d name =>
    intro hmem
    obtain rfl | hmem := List.mem_cons.mp hmem
    · exact hfirst h.1
    · exact hrest (h.2 c hmem)

/-- The terminator and the separator of a subcorpus are in no class. -/
theorem ne_of_mem_classes : ∀ c ∈ idUcFirst ++ (idUc ++ idAll), '\x00' ≠ c ∧ ':' ≠ c := by
  have hall : (idUcFirst ++ (idUc ++ idAll)).all (fun c => 0 < c.toNat && c.toNat != 58) = true := by
    rw [idUcFirst_eq, idUc_eq, idAll_eq]
    rfl
  intro c hc
  have hcode := List.all_eq_true.mp hall c hc
  constructor
  · rintro rfl
    cases hcode
  · rintro rfl
    cases hcode

theorem ValidCorpusName.plain {name : List Char} (h : ValidCorpusName name) : '\x00' ∉ name ∧ ':' ∉ name := by
  have hfirst : ∀ c ∈ idUcFirst, '\x00' ≠ c ∧ ':' ≠ c := fun c hc =>
    ne_of_mem_classes c (List.mem_append_left _ hc)
  have hrest : ∀ c ∈ idUc, '\x00' ≠ c ∧ ':' ≠ c := fun c hc =>
    ne_of_mem_classes c (List.mem_append_right _ (List.mem_append_left _ hc))
  constructor
  · exact ValidName.not_mem h (fun hc => (hfirst _ hc).1 rfl) fun hc => (hrest _ hc).1 rfl
  · exact ValidName.not_mem h (fun hc => (hfirst _ hc).2 rfl) fun hc => (hrest _ hc).2 rfl

theorem ValidSubcorpusName.noNull {name : List Char} (h : ValidSubcorpusName name) : '\x00' ∉ name := by
  apply ValidName.not_mem h
  · intro hc
    exact (ne_of_mem_classes _ (List.mem_append_left _ hc)).1 rfl
  · intro hc
    exact (ne_of_mem_classes _ (List.mem_append_right _ (List.mem_append_right _ hc))).1 rfl

theorem splitSubcorpusSpecAt_combineSpec (heap : Heap) {corpus : List Char} {subcorpus : Option CorpusName}
    (hcorpus : ValidCorpusName corpus) (hsub : ∀ name ∈ subcorpus, ValidSubcorpusName name) :
    splitSubcorpusSpecAt heap (combineSpec corpus subcorpus) = some (some (corpus, subcorpus)) := by
  obtain ⟨hnull, hcolon⟩ := hcorpus.plain
  cases subcorpus with
  | none =>
    rw [combineSpec, splitSubcorpusSpecAt, splitAtFirst_eq_none.mpr hcolon]
    exact bind_ite_some.mpr ⟨checkNameAt_valid hnull hcorpus _, rfl⟩
  | some name =>
    have hname := hsub name rfl
    have hnull' := hname.noNull
    rw [combineSpec, combineSubcorpusSpec, splitSubcorpusSpecAt, splitAtFirst_append hcolon]
    exact bind_ite_some.mpr ⟨checkParts_true.mpr ⟨checkNameAt_valid hnull hcorpus _, checkNameAt_valid hnull' hname _⟩, rfl⟩

/-! ## The naming conventions -/

/-- The checks are exact for all names but the empty one, and the specifiers that are split into
invalid parts are those with an empty part; splitting undoes combining. -/
theorem cqiNames_exact_iff (name spec : CString) :
    ((CheckExact checkCorpusNameAt ValidCorpusName (nameOf name) ↔ nameOf name ≠ []) ∧
      (CheckExact checkAttributeNameAt ValidAttributeName (nameOf name) ↔ nameOf name ≠ []) ∧
      (CheckExact checkSubcorpusNameAt ValidSubcorpusName (nameOf name) ↔ nameOf name ≠ [])) ∧
    ((AttributeSplitSound (nameOf spec) ↔ ¬HasEmptyPart '.' ValidCorpusName ValidAttributeName (nameOf spec)) ∧
      (SubcorpusSplitSound (nameOf spec) ↔
        nameOf spec ≠ [] ∧ ¬HasEmptyPart ':' ValidCorpusName ValidSubcorpusName (nameOf spec))) ∧
    ∀ heap corpus subcorpus, ValidCorpusName corpus → (∀ name ∈ subcorpus, ValidSubcorpusName name) →
      splitSubcorpusSpecAt heap (combineSpec corpus subcorpus) = some (some (corpus, subcorpus)) := by
  have hname := nameOf_noNull name
  have hspec := nameOf_noNull spec
  exact ⟨⟨checkExact_iff hname, checkExact_iff hname, checkExact_iff hname⟩,
    ⟨attributeSplitSound_iff hspec, subcorpusSplitSound_iff hspec⟩,
    fun heap _ _ => splitSubcorpusSpecAt_combineSpec heap⟩

/-- The check of the empty name reads on behind the terminator, and the specifier `.` is split into two
empty names where that finds another terminator. -/
theorem emptyName_notExact :
    ¬CheckExact checkCorpusNameAt ValidCorpusName (nameOf ⟨[], List.not_mem_nil⟩) ∧
      checkCorpusNameAt ['\x00'] = none ∧ checkCorpusNameAt ['\x00', '\x00'] = some true ∧
      splitAttributeSpecAt ⟨['\x00'], ['\x00']⟩ ['.'] = some (some ([], [])) ∧ ¬AttributeSplitSound ['.'] := by
  have hsplit : splitAttributeSpecAt ⟨['\x00'], ['\x00']⟩ ['.'] = some (some ([], [])) := by
    have hdot : splitAtFirst '.' ['.'] = some ([], []) := rfl
    rw [splitAttributeSpecAt, hdot]
    exact bind_ite_some.mpr ⟨checkParts_true.mpr ⟨checkNameAt_empty _ _, checkNameAt_empty _ _⟩, rfl⟩
  refine ⟨fun h => (checkExact_iff List.not_mem_nil).mp h rfl, checkNameAt_nil _ _ [], checkNameAt_empty _ _, hsplit, ?_⟩
  exact fun h => (h _ _ _ hsplit).1

end CWB.Cqi
