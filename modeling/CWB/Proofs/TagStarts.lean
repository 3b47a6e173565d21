import CWB.Spec.XmlTag
import CWB.Sanity.Regions

/-! A tag is looked up in the list of regions where it is the first element of a query, and tested at one position
where it is not. The two agree but for a region without annotation under a negated constraint, and for a close tag
whose open tag sets its label. -/

namespace CWB

open List

variable {C A R : Type} {attr : A}

namespace EvalEnv

variable (env : EvalEnv C A R)

/-- The annotation of a region against the constraint, as the lookup sees it: a region without one never fits. -/
def annotationFits (attr : A) (constraint : Option String) (rx : Option R) (negated : Bool) (struc : ℕ) : Bool :=
  env.tagValueOk attr struc constraint rx negated && (constraint.isNone || (env.corpus.struc2str attr struc).isSome)

theorem tagStarts_eq (isClosing : Bool) (attr : A) (constraint : Option String) (rx : Option R) (negated : Bool) :
    env.tagStarts isClosing attr constraint rx negated =
      ((List.range (env.corpus.maxStruc attr)).filter (env.annotationFits attr constraint rx negated)).map fun struc =>
        if isClosing then (env.corpus.struc2cpos attr struc).2 + 1 else (env.corpus.struc2cpos attr struc).1 := by
  unfold tagStarts
  congr 1
  refine filter_congr fun struc _ => ?_
  unfold annotationFits tagValueOk
  cases constraint with
  | none => rfl
  | some text => cases hval : env.corpus.struc2str attr struc <;> cases rx <;> simp [hval]

theorem mem_tagStarts {isClosing negated : Bool} {constraint : Option String} {rx : Option R} {cpos : ℤ} :
    cpos ∈ env.tagStarts isClosing attr constraint rx negated ↔
      ∃ struc < env.corpus.maxStruc attr, env.annotationFits attr constraint rx negated struc ∧
        cpos = if isClosing then (env.corpus.struc2cpos attr struc).2 + 1 else (env.corpus.struc2cpos attr struc).1 := by
  rw [tagStarts_eq]
  simp only [mem_map, mem_filter, mem_range]
  refine ⟨?_, ?_⟩
  · rintro ⟨struc, ⟨hlt, hok⟩, rfl⟩
    exact ⟨struc, hlt, hok, rfl⟩
  · rintro ⟨struc, hlt, hok, rfl⟩
    exact ⟨struc, ⟨hlt, hok⟩, rfl⟩

theorem evalConstraint_open {rp : ℕ} (h : env.corpus.HasRegions attr) (constraint : Option String)
    (rx : Option R) (negated : Bool) (label : Option ℕ) (cpos : ℤ) (labelrefs : RefTab) :
    (env.evalConstraint rp (.tag false attr constraint rx negated label) cpos labelrefs).1.isSome ↔
      ∃ struc < env.corpus.maxStruc attr, env.tagValueOk attr struc constraint rx negated ∧
        cpos = (env.corpus.struc2cpos attr struc).1 := by
  simp only [evalConstraint]
  refine ⟨fun hsome => ?_, ?_⟩
  · cases hstruc : env.corpus.cpos2struc attr cpos with
    | none => simp [hstruc] at hsome
    | some struc =>
      simp only [hstruc] at hsome
      by_cases hok : cpos = (env.corpus.struc2cpos attr struc).1 ∧ env.tagValueOk attr struc constraint rx negated
      · exact ⟨struc, ((h.found _ _).mp hstruc).1, hok.2, hok.1⟩
      · rw [if_neg hok] at hsome
        cases hsome
  · rintro ⟨struc, hlt, hok, rfl⟩
    have hstruc := (h.found (env.corpus.struc2cpos attr struc).1 struc).mpr ⟨hlt, le_rfl, (h.nonempty struc hlt).2⟩
    simp [hstruc, hok]

/-- In strict mode a close tag ends the region that its open tag has found. -/
def endsRegion (label : Option ℕ) (labelrefs : RefTab) (cpos : ℤ) : Prop :=
  env.strictRegions = true → ∀ ref, label = some ref → cpos = labelrefs ref

theorem evalConstraint_close {rp : ℕ} (h : env.corpus.HasRegions attr) (constraint : Option String)
    (rx : Option R) (negated : Bool) (label : Option ℕ) (cpos : ℤ) (labelrefs : RefTab) :
    (env.evalConstraint rp (.tag true attr constraint rx negated label) cpos labelrefs).1.isSome ↔
      ∃ struc < env.corpus.maxStruc attr, env.endsRegion label labelrefs cpos ∧
        cpos = (env.corpus.struc2cpos attr struc).2 := by
  have htest : ∀ struc < env.corpus.maxStruc attr, env.corpus.cpos2struc attr cpos = some struc →
      ((env.evalConstraint rp (.tag true attr constraint rx negated label) cpos labelrefs).1.isSome ↔
        env.endsRegion label labelrefs cpos ∧ cpos = (env.corpus.struc2cpos attr struc).2) := by
    intro struc hlt hstruc
    by_cases hstop : cpos = (env.corpus.struc2cpos attr struc).2
    · have hpos : 0 ≤ (env.corpus.struc2cpos attr struc).2 := (h.nonempty struc hlt).1.trans (h.nonempty struc hlt).2
      rw [hstop] at hstruc ⊢
      unfold endsRegion
      cases hs : env.strictRegions with
      | false => simp [evalConstraint, hstruc, hs]
      | true =>
        cases label with
        | none => simp [evalConstraint, hstruc, hs]
        | some ref =>
          have hneg : (env.corpus.struc2cpos attr struc).2 = labelrefs ref → ¬ labelrefs ref < 0 := by omega
          by_cases heq : (env.corpus.struc2cpos attr struc).2 = labelrefs ref
          · rw [heq] at hstruc
            simp [evalConstraint, hstruc, hs, heq, hneg heq]
          · simp [evalConstraint, hstruc, hs, heq]
    · simp [evalConstraint, hstruc, hstop]
  cases hstruc : env.corpus.cpos2struc attr cpos with
  | none =>
    refine ⟨fun hsome => by simp [evalConstraint, hstruc] at hsome, ?_⟩
    rintro ⟨struc, hlt, -, rfl⟩
    rw [(h.found _ struc).mpr ⟨hlt, (h.nonempty struc hlt).2, le_rfl⟩] at hstruc
    cases hstruc
  | some struc =>
    have hlt := ((h.found _ _).mp hstruc).1
    rw [htest struc hlt hstruc]
    refine ⟨fun hok => ⟨struc, hlt, hok⟩, ?_⟩
    rintro ⟨struc', hlt', hends, rfl⟩
    rw [(h.found _ struc').mpr ⟨hlt', (h.nonempty struc' hlt').2, le_rfl⟩] at hstruc
    cases hstruc
    exact ⟨hends, rfl⟩

/-- The two agree on a start tag if no region without annotation is negated. -/
theorem annotationFits_iff (attr : A) (constraint : Option String) (rx : Option R) (negated : Bool) (struc : ℕ) :
    (env.annotationFits attr constraint rx negated struc ↔ env.tagValueOk attr struc constraint rx negated) ↔
      (constraint.isSome → negated = true → (env.corpus.struc2str attr struc).isSome) := by
  unfold annotationFits tagValueOk
  cases constraint with
  | none => simp
  | some text => cases hval : env.corpus.struc2str attr struc <;> cases negated <;> simp

theorem open_iff {rp : ℕ} (h : env.corpus.HasRegions attr) (constraint : Option String) (rx : Option R)
    (negated : Bool) (label : Option ℕ) (labelrefs : RefTab) :
    (∀ cpos, cpos ∈ env.tagStarts false attr constraint rx negated ↔
        (env.evalConstraint rp (.tag false attr constraint rx negated label) cpos labelrefs).1.isSome) ↔
      (constraint.isSome → negated = true → ∀ struc < env.corpus.maxStruc attr, (env.corpus.struc2str attr struc).isSome) := by
  simp only [mem_tagStarts, env.evalConstraint_open h, Bool.false_eq_true, if_false]
  refine ⟨fun hall hconstraint hneg struc hlt => ?_, fun hall cpos => ?_⟩
  · have hne := (h.nonempty struc hlt).2
    refine (env.annotationFits_iff attr constraint rx negated struc).mp ⟨fun hfits => ?_, fun hok => ?_⟩ hconstraint hneg
    · obtain ⟨n, hn, hok, heq⟩ := (hall _).mp ⟨struc, hlt, hfits, rfl⟩
      rwa [h.unique hlt hn ⟨le_rfl, hne⟩ ⟨heq.ge, heq.trans_le (h.nonempty n hn).2⟩]
    · obtain ⟨n, hn, hfits, heq⟩ := (hall _).mpr ⟨struc, hlt, hok, rfl⟩
      rwa [h.unique hlt hn ⟨le_rfl, hne⟩ ⟨heq.ge, heq.trans_le (h.nonempty n hn).2⟩]
  · refine exists_congr fun struc => and_congr_right fun hlt => and_congr_left fun _ => ?_
    exact (env.annotationFits_iff attr constraint rx negated struc).mpr fun hc hneg => hall hc hneg struc hlt

theorem close_iff {rp : ℕ} (h : env.corpus.HasRegions attr) (label : Option ℕ) (labelrefs : RefTab) :
    (∀ cpos, cpos ∈ env.tagStarts true attr none none false ↔
        (env.evalConstraint rp (.tag true attr none none false label) (cpos - 1) labelrefs).1.isSome) ↔
      ∀ struc < env.corpus.maxStruc attr, env.endsRegion label labelrefs (env.corpus.struc2cpos attr struc).2 := by
  have hfits : ∀ struc, env.annotationFits attr none none false struc = true := fun struc => rfl
  simp only [mem_tagStarts, env.evalConstraint_close h, if_true, hfits, true_and]
  refine ⟨fun hall struc hlt => ?_, fun hall cpos => ?_⟩
  · obtain ⟨n, -, hends, heq⟩ := (hall _).mp ⟨struc, hlt, rfl⟩
    rwa [add_sub_cancel_right] at hends
  · refine exists_congr fun struc => and_congr_right fun hlt => ?_
    refine ⟨?_, fun h => by omega⟩
    rintro rfl
    rw [add_sub_cancel_right]
    exact ⟨hall struc hlt, rfl⟩

/-- The element of a tag: a close tag has no constraint. -/
theorem doXmlTag_eq {parser : TagParser R} {values : A → Bool} {strict : Bool} {label : Option ℕ}
    {isClosing : Bool} {op : TagOp} {negated : Bool} {regex : Option String} {flags : RegexFlags} {avs : AVS C A R}
    (htag : parser.doXmlTag C values strict label attr isClosing op negated regex flags = some avs) :
    if isClosing then avs = .tag true attr none none false (if strict then label else none)
    else ∃ rx, avs = .tag false attr (regex.map parser.latex2iso) rx (regex.isSome && negated) (if strict then label else none) := by
  simp only [TagParser.doXmlTag] at htag
  generalize (if strict then label else none) = rightBoundary at htag ⊢
  split_ifs at htag
  cases isClosing with
  | true =>
    cases htag
    rfl
  | false =>
    cases regex with
    | none =>
      cases htag
      exact ⟨none, rfl⟩
    | some regex =>
      by_cases hlit : matchesLiterally flags op (parser.latex2iso regex) = true
      · simp only [hlit, if_true] at htag
        cases htag
        exact ⟨none, rfl⟩
      · simp only [hlit] at htag
        cases hrx : parser.newRegex (parser.pattern op (parser.latex2iso regex)) flags with
        | none => simp [hrx] at htag
        | some rx =>
          simp only [hrx] at htag
          cases htag
          exact ⟨some rx, rfl⟩

/-- The initial positions of a tag are the positions where it is found to hold, exactly when no region without
annotation is under a negated constraint, and no close tag in strict mode has a label that an open tag should have set. -/
theorem matchfirstpattern_tag_iff (parser : TagParser R) (values : A → Bool) (label : Option ℕ) {attr : A}
    (isClosing : Bool) (op : TagOp) (negated : Bool) (regex : Option String) (flags : RegexFlags) {avs : AVS C A R}
    (htag : parser.doXmlTag C values env.strictRegions label attr isClosing op negated regex flags = some avs)
    (h : env.corpus.HasRegions attr) (rp : ℕ) (labelrefs : RefTab) :
    (∀ cpos, (∃ starts, env.matchfirstpattern avs = some starts ∧ cpos ∈ starts) ↔
        (env.evalConstraint rp avs (avs.effectiveCpos cpos) labelrefs).1.isSome) ↔
      if isClosing then env.strictRegions = true → ∀ ref, label = some ref →
        ∀ struc < env.corpus.maxStruc attr, (env.corpus.struc2cpos attr struc).2 = labelrefs ref
      else regex.isSome → negated = true →
        ∀ struc < env.corpus.maxStruc attr, (env.corpus.struc2str attr struc).isSome := by
  have hstarts : ∀ closing constraint rx neg label cpos,
      (∃ starts, env.matchfirstpattern (.tag closing attr constraint rx neg label) = some starts ∧ cpos ∈ starts) ↔
        cpos ∈ env.tagStarts closing attr constraint rx neg := by
    intro closing constraint rx neg label cpos
    simp [matchfirstpattern]
  have heq := doXmlTag_eq htag
  cases isClosing with
  | true =>
    rw [if_pos rfl] at heq ⊢
    subst heq
    simp only [hstarts, AVS.effectiveCpos, AVS.isClosing, if_true]
    rw [env.close_iff h]
    unfold endsRegion
    cases env.strictRegions with
    | false => simp
    | true => simp only [if_true, forall_const]; tauto
  | false =>
    rw [if_neg Bool.false_ne_true] at heq ⊢
    obtain ⟨rx, rfl⟩ := heq
    simp only [hstarts, AVS.effectiveCpos, AVS.isClosing, Bool.false_eq_true, if_false]
    rw [env.open_iff h, Option.isSome_map]
    refine forall_congr' fun hregex => ?_
    rw [hregex, Bool.true_and]

end EvalEnv

/-- Two regions, of which the second has no annotation; regular expressions are compared as they are. -/
def annotatedQuery : EvalEnv Unit Unit String where
  corpus :=
    { size := 4
      evalBool := fun _ rt _ => (false, rt)
      cpos2struc := fun _ cpos => [(0, 1), (2, 3)].findIdx? fun r : ℤ × ℤ => r.1 ≤ cpos ∧ cpos ≤ r.2
      struc2cpos := fun _ n => [(0, 1), (2, 3)].getD n (-1, -1)
      struc2str := fun _ n => if n = 0 then some "chapter" else none
      maxStruc := fun _ => 2
      regexMatch := fun rx val => rx == val
      calculateInitialMatchlist := fun _ _ => none }
  queryCorpus := { type := .system, range := [⟨0, 3, -1, -1⟩] }
  patternlist _ := .matchAll none .isNotTarget false
  dfa := { maxStates := 1, maxInput := 0, transTable := fun _ _ => 1, eState := 1, final := fun _ => false,
           hasStart := Nat.one_pos, closed := by decide }
  searchContext := .word 10
  matchingStrategy := .standardMatch

theorem annotatedQuery_regions : annotatedQuery.corpus.HasRegions () := by
  refine ⟨fun cpos n => ?_, by decide⟩
  simp only [annotatedQuery, findIdx?_cons, findIdx?_nil]
  rcases n with _ | _ | n
  · simp
  · simp
    split_ifs <;> simp <;> omega
  · simp
    split_ifs <;> simp

def plainParser : TagParser String := ⟨id, id, fun pattern _ => some pattern⟩

theorem matchfirstpattern_tag_iff_annotated : annotatedQuery.corpus.HasRegions () ∧ ∀ cpos,
    (∃ starts, annotatedQuery.matchfirstpattern (.tag false () (some "chapter") none false none) = some starts ∧
        cpos ∈ starts) ↔
      (annotatedQuery.evalConstraint 0 (.tag false () (some "chapter") none false none) cpos RefTab.reset).1.isSome :=
  ⟨annotatedQuery_regions, (annotatedQuery.matchfirstpattern_tag_iff plainParser (fun _ => true) none false .equal false
    (some "chapter") {} rfl annotatedQuery_regions 0 RefTab.reset).mpr fun _ h => nomatch h⟩

/-- `<text != "chapter">` starts at the second region, which the lookup leaves out. -/
theorem matchfirstpattern_misses_region :
    plainParser.doXmlTag Unit (fun _ : Unit => true) false none () false .equal true (some "chapter") {} =
        some (.tag false () (some "chapter") none true none) ∧
      annotatedQuery.matchfirstpattern (.tag false () (some "chapter") none true none) = some [] ∧
      (annotatedQuery.evalConstraint 0 (.tag false () (some "chapter") none true none) 2 RefTab.reset).1.isSome = true := by
  refine ⟨rfl, by decide, by decide⟩

end CWB
