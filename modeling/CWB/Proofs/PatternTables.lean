import CWB.Spec.PatternTables

/-! Which sequences of parser actions stay inside the tables of the query compiler. -/

namespace CWB.PatternTables

open Bool Function List Option

variable {C A R : Type} {st st' : Tables C A R}

/-! ## Indices -/

/-- Every index of a used slot is inside its table. -/
structure Within (st : Tables C A R) : Prop where
  eep : 0 ≤ st.eep ∧ st.eep < maxEnvironment
  curEnv : ((st.curEnv : ℕ) : ℤ) = st.eep
  patterns : ∀ e : Fin maxEnvironment, ((e : ℕ) : ℤ) ≤ st.eep →
    -1 ≤ (st.environment e).maxPatIndex ∧ (st.environment e).maxPatIndex < maxPatterns

/-- The same slots are used. -/
structure SameIndices (st st' : Tables C A R) : Prop where
  eep : st'.eep = st.eep
  curEnv : st'.curEnv = st.curEnv
  index : ∀ e, (st'.environment e).maxPatIndex = (st.environment e).maxPatIndex

theorem Within.same (hw : Within st) (h : SameIndices st st') : Within st' := by
  refine ⟨h.eep ▸ hw.eep, by rw [h.curEnv, h.eep]; exact hw.curEnv, fun e he => ?_⟩
  rw [h.index]
  exact hw.patterns e (h.eep ▸ he)

theorem SameIndices.cur (h : SameIndices st st') : maxPatIndex st' = maxPatIndex st := by
  unfold PatternTables.maxPatIndex
  rw [h.curEnv, h.index]

theorem same_generateCode (st : Tables C A R) (b : Bool) : SameIndices st { st with generateCode := b } :=
  ⟨rfl, rfl, fun _ => rfl⟩

/-- A change of the current environment that leaves its index alone. -/
theorem same_update {env : EvalEnvironment C A R} (h : env.maxPatIndex = maxPatIndex st) :
    SameIndices st (setCurEnv st env) := by
  refine ⟨rfl, rfl, fun e => ?_⟩
  by_cases he : e = st.curEnv
  · subst he
    simp only [setCurEnv, update_self]
    exact h
  · simp only [setCurEnv, update_of_ne he]

theorem Within.cur (hw : Within st) : -1 ≤ maxPatIndex st ∧ maxPatIndex st < maxPatterns :=
  hw.patterns st.curEnv hw.curEnv.le

/-- The test for a free slot never fails: it compares the index of the last used slot, not of the next. -/
theorem checkRoom_eq (hw : Within st) : checkRoom st = st := by
  unfold checkRoom
  rw [if_neg fun h => hw.cur.2.ne h.2]

/-! ## The pattern list -/

theorem write_isSome_iff {n : ℕ} {α : Type} (table : Fin n → α) (i : ℤ) (v : α) :
    (write table i v).isSome ↔ 0 ≤ i ∧ i < n := by
  unfold write
  split_ifs with h
  · exact ⟨fun _ => h, fun _ => rfl⟩
  · exact ⟨fun hs => (by cases hs), fun hi => absurd hi h⟩

theorem setPattern_ok {i : ℤ} (hi : 0 ≤ i ∧ i < maxPatterns) (avs : AVS C A R) :
    ∃ st', setPattern st i avs = some st' ∧ SameIndices st st' ∧ st'.generateCode = st.generateCode := by
  obtain ⟨p, hp⟩ := isSome_iff_exists.1 ((write_isSome_iff (st.environment st.curEnv).patternlist i avs).2 hi)
  exact ⟨setCurEnv st { st.environment st.curEnv with patternlist := p },
    by simp only [setPattern, hp, map_some], same_update rfl, rfl⟩

/-- There is room for one more pattern. -/
def Room (st : Tables C A R) : Prop := maxPatIndex st + 1 < maxPatterns

theorem addPattern_none (h : ¬Room st) (avs : AVS C A R) : addPattern st avs = none := by
  have hwrite : write (st.environment st.curEnv).patternlist (maxPatIndex st + 1) avs = none := by
    rw [← not_isSome_iff_eq_none, write_isSome_iff]
    exact fun hi => h hi.2
  simp only [addPattern, setPattern, setCurEnv, update_self, hwrite, map_none]

/-- Counting up the index of the current environment. -/
theorem within_setCurEnv {env : EvalEnvironment C A R} (hw : Within st)
    (h : -1 ≤ env.maxPatIndex ∧ env.maxPatIndex < maxPatterns) : Within (setCurEnv st env) := by
  refine ⟨hw.eep, hw.curEnv, fun e he => ?_⟩
  by_cases hcur : e = st.curEnv
  · subst hcur
    simp only [setCurEnv, update_self]
    exact h
  · simp only [setCurEnv, update_of_ne hcur]
    exact hw.patterns e he

theorem addPattern_some (h : Room st) (avs : AVS C A R) (hw : Within st) :
    ∃ st', addPattern st avs = some st' ∧ Within st' ∧ maxPatIndex st' = maxPatIndex st + 1 ∧
      st'.generateCode = st.generateCode := by
  have hcur := hw.cur
  set env : EvalEnvironment C A R := { st.environment st.curEnv with maxPatIndex := maxPatIndex st + 1 } with henv
  have hindex : maxPatIndex (setCurEnv st env) = maxPatIndex st + 1 := by
    simp only [PatternTables.maxPatIndex, setCurEnv, update_self, henv]
  have hw' : Within (setCurEnv st env) := within_setCurEnv hw ⟨by simp only [henv]; omega, h⟩
  have hi : 0 ≤ maxPatIndex st + 1 ∧ maxPatIndex st + 1 < maxPatterns := ⟨by omega, h⟩
  obtain ⟨st', hset, hsame, hcode⟩ := (setPattern_ok hi avs :
    ∃ st', setPattern (setCurEnv st env) (maxPatIndex st + 1) avs = some st' ∧ _)
  exact ⟨st', hset, hw'.same hsame, hsame.cur.trans hindex, hcode⟩

theorem Within.reject (hw : Within st) : Within { st with generateCode := false } :=
  hw.same (same_generateCode st false)

theorem Within.reject_if (hw : Within st) (b : Bool) :
    Within (if b = true then { st with generateCode := false } else st) := by
  cases b with
  | true => exact hw.reject
  | false => exact hw

/-! ## Actions -/

/-- The action gets to the point where it takes the next slot of the pattern list. -/
def Passes (st : Tables C A R) : Action C A R → Prop
  | .wordformPattern _ | .namedWfPattern .. => st.generateCode = true
  | .xmlTag attr strucValues _ op _ regex literal _ _ _ =>
    st.generateCode = true ∧ attr.isSome ∧ (regex.isSome && !strucValues) = false ∧ ¬(op ≠ .opEqual ∧ literal = true)
  | .anchorPoint _ _ defined => st.generateCode = true ∧ defined = true
  | .alignmentConstraint _ | .reject => False

/-- There is a slot for what the action adds. -/
def Fits (st : Tables C A R) : Action C A R → Prop
  | .alignmentConstraint found => found = true → st.eep + 1 < maxEnvironment
  | act => Passes st act → Room st

theorem doWordformPattern_some (hw : Within st) (pattern : WordformPattern C)
    (h : st.generateCode = true → Room st) :
    ∃ st' i, doWordformPattern st pattern = some (st', i) ∧ Within st' ∧
      (st'.generateCode = true → 0 ≤ i ∧ i < maxPatterns) := by
  unfold doWordformPattern
  rw [checkRoom_eq hw]
  dsimp only
  cases hcode : st.generateCode with
  | true =>
    obtain ⟨st', hadd, hw', hindex, -⟩ := addPattern_some (h hcode) (pattern.avs none .isNotTarget) hw
    refine ⟨st', maxPatIndex st', by simp [hadd], hw', fun _ => ⟨?_, hw'.cur.2⟩⟩
    have := hw.cur.1
    omega
  | false => exact ⟨st, -1, rfl, hw, fun h => by rw [hcode] at h; cases h⟩

theorem doNamedWfPattern_some (hw : Within st) (nature : TargetNature) (label : Option ℕ) (special : Bool)
    (pattern : WordformPattern C) {i : ℤ} (hi : st.generateCode = true → 0 ≤ i ∧ i < maxPatterns) :
    ∃ st', doNamedWfPattern st nature label special pattern i = some st' ∧ Within st' := by
  unfold doNamedWfPattern
  cases hcode : st.generateCode with
  | false => exact ⟨st, rfl, hw⟩
  | true =>
    simp only [Bool.not_true, false_eq_true, if_false]
    split_ifs
    · exact ⟨_, rfl, hw.reject⟩
    · obtain ⟨st', hset, hsame, -⟩ := (setPattern_ok (hi hcode) (pattern.avs label nature) :
        ∃ st', setPattern st _ _ = some st' ∧ _)
      have hw' := hw.same hsame
      simp only [hset, map_some]
      refine ⟨_, rfl, ?_⟩
      cases nature with
      | isNotTarget => exact hw'
      | isTarget => exact hw'.same (same_update rfl)
      | isKeyword => exact hw'.same (same_update rfl)

theorem doXMLTag_some (hw : Within st) {attr : Option A} {strucValues : Bool} {op : RegexpOp}
    {regex : Option String} {literal : Bool} (isClosing negated needsRx : Bool) (rx : Option R)
    (rightBoundary : Option ℕ)
    (h : Passes st (.xmlTag attr strucValues isClosing op negated regex literal needsRx rx rightBoundary) → Room st) :
    ∃ st', doXMLTag st attr strucValues isClosing op negated regex literal needsRx rx rightBoundary = some st' ∧
      Within st' := by
  unfold doXMLTag
  rw [checkRoom_eq hw]
  dsimp only
  cases hcode : st.generateCode with
  | false => exact ⟨st, rfl, hw⟩
  | true =>
    simp only [Bool.not_true, false_eq_true, if_false]
    cases attr with
    | none => exact ⟨_, rfl, hw.reject⟩
    | some attr =>
      dsimp only
      by_cases hvalues : (regex.isSome && !strucValues) = true
      · rw [if_pos hvalues]
        exact ⟨_, rfl, hw.reject⟩
      · rw [if_neg hvalues]
        by_cases hliteral : op ≠ .opEqual ∧ literal = true
        · rw [if_pos hliteral]
          exact ⟨_, rfl, hw.reject⟩
        · rw [if_neg hliteral]
          rw [not_eq_true] at hvalues
          obtain ⟨st', hadd, hw', -, -⟩ := addPattern_some (h ⟨hcode, rfl, hvalues, hliteral⟩) _ hw
          rw [hadd]
          exact ⟨_, rfl, hw'.reject_if _⟩

theorem doAnchorPoint_some (hw : Within st) (field : AnchorField) (isClosing defined : Bool)
    (h : st.generateCode = true ∧ defined = true → Room st) :
    ∃ st', doAnchorPoint st field isClosing defined = some st' ∧ Within st' := by
  unfold doAnchorPoint
  rw [checkRoom_eq hw]
  dsimp only
  cases hcode : st.generateCode with
  | false => exact ⟨st, rfl, hw⟩
  | true =>
    cases defined with
    | false => exact ⟨_, rfl, hw.reject⟩
    | true =>
      obtain ⟨st', hadd, hw', -, -⟩ := addPattern_some (h ⟨hcode, rfl⟩) (.anchor field isClosing) hw
      exact ⟨st', hadd, hw'⟩

theorem nextEnvironment_some (hw : Within st) (h : st.eep + 1 < maxEnvironment) :
    ∃ st', nextEnvironment st = some (true, st') ∧ Within st' := by
  obtain ⟨⟨hlo, hhi⟩, hcur, hpat⟩ := hw
  unfold nextEnvironment
  rw [if_neg (by omega)]
  dsimp only
  rw [dif_pos ⟨by omega, h⟩]
  refine ⟨_, rfl, ⟨by dsimp only; omega, h⟩, by dsimp only; omega, fun e he => ?_⟩
  dsimp only at he ⊢
  by_cases hnew : e = ⟨(st.eep + 1).toNat, by omega⟩
  · rw [hnew, update_self]
    exact ⟨le_rfl, show (-1 : ℤ) < maxPatterns by decide⟩
  · rw [update_of_ne hnew]
    refine hpat e ?_
    have hne : (e : ℕ) ≠ (st.eep + 1).toNat := fun h => hnew (Fin.ext h)
    omega

theorem nextEnvironment_none (hw : Within st) (h : ¬st.eep + 1 < maxEnvironment) : nextEnvironment st = none := by
  have heep := hw.eep
  unfold nextEnvironment
  rw [if_neg (by omega)]
  dsimp only
  rw [dif_neg fun hin => h hin.2]

theorem step_some (hw : Within st) {act : Action C A R} (h : Fits st act) :
    ∃ st', step st act = some st' ∧ Within st' := by
  cases act with
  | wordformPattern pattern =>
    obtain ⟨st', i, hdo, hw', -⟩ := doWordformPattern_some hw pattern h
    exact ⟨st', by rw [step, hdo]; rfl, hw'⟩
  | namedWfPattern nature label special pattern =>
    obtain ⟨st₁, i, hdo, hw₁, hi⟩ := doWordformPattern_some hw pattern h
    obtain ⟨st', hnamed, hw'⟩ := doNamedWfPattern_some hw₁ nature label special pattern hi
    exact ⟨st', by rw [step, hdo]; exact hnamed, hw'⟩
  | xmlTag attr strucValues isClosing op negated regex literal needsRx rx rightBoundary =>
    exact doXMLTag_some hw _ _ _ _ _ h
  | anchorPoint field isClosing defined => exact doAnchorPoint_some hw _ _ _ h
  | alignmentConstraint found =>
    cases found with
    | false => exact ⟨_, rfl, hw.reject⟩
    | true =>
      obtain ⟨st', hnext, hw'⟩ := nextEnvironment_some hw (h rfl)
      exact ⟨st', by simp [step, prepareAlignmentConstraints, hnext], hw'⟩
  | reject => exact ⟨_, rfl, hw.reject⟩

theorem doWordformPattern_none (hw : Within st) (pattern : WordformPattern C) (hcode : st.generateCode = true)
    (h : ¬Room st) : doWordformPattern st pattern = none := by
  unfold doWordformPattern
  rw [checkRoom_eq hw]
  dsimp only
  rw [if_pos hcode, addPattern_none h, map_none]

theorem step_none (hw : Within st) {act : Action C A R} (h : ¬Fits st act) : step st act = none := by
  cases act with
  | wordformPattern pattern =>
    obtain ⟨hcode, hroom⟩ := Classical.not_imp.1 h
    rw [step, doWordformPattern_none hw pattern hcode hroom, map_none]
  | namedWfPattern nature label special pattern =>
    obtain ⟨hcode, hroom⟩ := Classical.not_imp.1 h
    rw [step, doWordformPattern_none hw pattern hcode hroom]
    rfl
  | xmlTag attr strucValues isClosing op negated regex literal needsRx rx rightBoundary =>
    obtain ⟨⟨hcode, hattr, hvalues, hliteral⟩, hroom⟩ := Classical.not_imp.1 h
    obtain ⟨attr, rfl⟩ := isSome_iff_exists.1 hattr
    rw [step, doXMLTag, checkRoom_eq hw]
    dsimp only
    rw [hcode]
    simp only [Bool.not_true, false_eq_true, if_false]
    rw [hvalues, if_neg Bool.false_ne_true, if_neg hliteral, addPattern_none hroom, map_none]
  | anchorPoint field isClosing defined =>
    obtain ⟨⟨hcode, rfl⟩, hroom⟩ := Classical.not_imp.1 h
    rw [step, doAnchorPoint, checkRoom_eq hw, hcode]
    exact addPattern_none hroom _
  | alignmentConstraint found =>
    obtain ⟨rfl, hnext⟩ := Classical.not_imp.1 h
    simp [step, prepareAlignmentConstraints, nextEnvironment_none hw hnext]
  | reject => exact absurd (fun h => h.elim) h

/-! ## Runs -/

/-- Every action of the sequence finds a slot. -/
def AllFit : List (Action C A R) → Tables C A R → Prop
  | [], _ => True
  | act :: acts, st => Fits st act ∧ ∀ st', step st act = some st' → AllFit acts st'

theorem run_some_iff (acts : List (Action C A R)) (hw : Within st) :
    (∃ st', run acts st = some st') ↔ AllFit acts st := by
  induction acts generalizing st with
  | nil => exact ⟨fun _ => trivial, fun _ => ⟨st, rfl⟩⟩
  | cons act acts ih =>
    by_cases hfit : Fits st act
    · obtain ⟨st₁, hstep, hw₁⟩ := step_some hw hfit
      have hrun : run (act :: acts) st = run acts st₁ := by rw [run, hstep]; rfl
      rw [hrun, ih hw₁]
      refine ⟨fun h => ⟨hfit, fun st' hst' => ?_⟩, fun h => h.2 st₁ hstep⟩
      rw [hstep] at hst'
      exact some.inj hst' ▸ h
    · have hrun : run (act :: acts) st = none := by rw [run, step_none hw hfit]; rfl
      rw [hrun]
      exact ⟨fun ⟨_, h⟩ => (by cases h), fun h => absurd h.1 hfit⟩

theorem run_within {acts : List (Action C A R)} (hw : Within st) (h : run acts st = some st') : Within st' := by
  induction acts generalizing st with
  | nil =>
    obtain rfl := some.inj h
    exact hw
  | cons act acts ih =>
    obtain ⟨st₁, hstep, hrun⟩ := bind_eq_some_iff.1 h
    by_cases hfit : Fits st act
    · obtain ⟨st₂, hstep₂, hw₂⟩ := step_some hw hfit
      rw [hstep] at hstep₂
      exact ih (some.inj hstep₂ ▸ hw₂) hrun
    · rw [step_none hw hfit] at hstep
      cases hstep

theorem prepareQuery_within (stale : Fin maxEnvironment → EvalEnvironment C A R) (accepted : Bool) :
    Within (prepareQuery stale accepted) := by
  refine ⟨⟨le_rfl, show (0 : ℤ) < maxEnvironment by decide⟩, rfl, fun e he => ?_⟩
  have hzero : e = ⟨0, by decide⟩ := Fin.ext (by simpa [prepareQuery] using he)
  rw [hzero]
  exact ⟨le_rfl, show (-1 : ℤ) < maxPatterns by decide⟩

/-- The actions of a query stay inside the tables if, and only if, none of them is performed on full
ones; every index that is used in a state on the way is smaller than the size of its table. -/
theorem tables_not_overrun_iff (stale : Fin maxEnvironment → EvalEnvironment C A R) (accepted : Bool)
    (acts : List (Action C A R)) :
    ((∃ st, run acts (prepareQuery stale accepted) = some st) ↔ AllFit acts (prepareQuery stale accepted)) ∧
      ∀ before after, acts = before ++ after → ∀ st, run before (prepareQuery stale accepted) = some st → Within st :=
  ⟨run_some_iff acts (prepareQuery_within stale accepted),
    fun _ _ _ _ h => run_within (prepareQuery_within stale accepted) h⟩

/-- A table before the first query. -/
def staleTables : Fin maxEnvironment → EvalEnvironment Unit Unit Unit := fun _ =>
  ⟨-1, fun _ => .matchAll none .isNotTarget false, false, false⟩

/-- The query `[]` -/
theorem tables_not_overrun_sample :
    ∃ st, run [.wordformPattern ⟨none, false⟩] (prepareQuery staleTables true) = some st :=
  (tables_not_overrun_iff staleTables true _).1.2
    ⟨fun _ => show (-1 : ℤ) + 1 < maxPatterns by decide, fun _ _ => trivial⟩

theorem run_patterns_none (n : ℕ) {st : Tables C A R} (hw : Within st) (hcode : st.generateCode = true)
    (hmax : maxPatIndex st + n + 1 = maxPatterns) (pattern : WordformPattern C) :
    run (replicate (n + 1) (.wordformPattern pattern)) st = none := by
  induction n generalizing st with
  | zero =>
    have hroom : ¬Room st := by
      unfold Room
      omega
    rw [replicate_succ, run, step, doWordformPattern_none hw pattern hcode hroom]
    rfl
  | succ n ih =>
    have hroom : Room st := by
      unfold Room
      omega
    obtain ⟨st', hadd, hw', hindex, hcode'⟩ := addPattern_some hroom (pattern.avs none .isNotTarget) hw
    have hstep : step st (.wordformPattern pattern) = some st' := by
      rw [step, doWordformPattern, checkRoom_eq hw]
      simp [hcode, hadd]
    have hrun : run (replicate (n + 1 + 1) (.wordformPattern pattern)) st =
        run (replicate (n + 1) (.wordformPattern pattern)) st' := by
      rw [replicate_succ, run, hstep]
      rfl
    rw [hrun]
    refine ih hw' (hcode'.trans hcode) ?_
    push_cast at hmax
    omega

/-- The 5001st pattern, and the eleventh environment. -/
theorem tables_overrun :
    run (replicate 5001 (.wordformPattern ⟨none, false⟩)) (prepareQuery staleTables true) = none ∧
      run (replicate 10 (.alignmentConstraint true)) (prepareQuery staleTables true) = none :=
  ⟨run_patterns_none 5000 (prepareQuery_within _ _) rfl (by decide) _, rfl⟩

end CWB.PatternTables
