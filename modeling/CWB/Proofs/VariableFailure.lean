import CWB.Proofs.Variables

/-! `SetVariableValue` creates a variable and empties it before it knows whether there are any values. -/

namespace CWB.VariableSpace

open List VariableBuffer

variable {space : VariableSpace} {varName : String} {f : VariableBuffer → VariableBuffer}

theorem findVariable_cons (v : VariableBuffer) (space : VariableSpace) (varName : String) :
    findVariable (v :: space) varName = if v.myName = varName then some v else findVariable space varName := by
  rw [findVariable, find?_cons]
  split_ifs with hname
  · rw [decide_eq_true hname]
  · rw [decide_eq_false hname]
    rfl

theorem change_cons (v : VariableBuffer) (space : VariableSpace) (varName : String) (f : VariableBuffer → VariableBuffer) :
    change (v :: space) varName f = if v.myName = varName then f v :: space else v :: change space varName f := by
  rw [change, findIdx_cons]
  split_ifs with hname
  · rw [decide_eq_true hname]
    rfl
  · rw [decide_eq_false hname]
    rfl

/-- Only the named variable is changed. -/
theorem findVariable_change (hf : ∀ v, (f v).myName = v.myName) (space : VariableSpace) (varName name : String) :
    findVariable (change space varName f) name =
      if name = varName then (findVariable space name).map f else findVariable space name := by
  induction space with
  | nil => split_ifs <;> rfl
  | cons v space ih =>
    rw [change_cons, findVariable_cons]
    by_cases hv : v.myName = varName
    · rw [if_pos hv, findVariable_cons, hf, hv]
      by_cases hname : varName = name
      · rw [if_pos hname, if_pos hname.symm, if_pos hname, Option.map_some]
      · rw [if_neg hname, if_neg (Ne.symm hname), if_neg hname]
    · rw [if_neg hv, findVariable_cons, ih]
      by_cases hname : v.myName = name
      · rw [if_pos hname, if_neg (hname ▸ hv), if_pos hname]
      · rw [if_neg hname, if_neg hname]

theorem findVariable_newVariable (h : findVariable space varName = none) (name : String) :
    findVariable (newVariable space varName) name =
      if name = varName then some { myName := varName } else findVariable space name := by
  induction space with
  | nil =>
    rw [newVariable, nil_append, findVariable_cons]
    exact if_congr eq_comm rfl rfl
  | cons v space ih =>
    rw [findVariable_cons] at h
    split_ifs at h with hv
    rw [newVariable, cons_append, findVariable_cons, findVariable_cons]
    by_cases hname : v.myName = name
    · rw [if_pos hname, if_neg (hname ▸ hv), if_pos hname]
    · rw [if_neg hname, if_neg hname]
      exact ih h

/-- The store in which the values are set: the variable is found or created. -/
def defined (space : VariableSpace) (varName : String) : VariableSpace :=
  match findVariable space varName with
  | some _ => space
  | none => newVariable space varName

theorem findVariable_defined (space : VariableSpace) (varName name : String) : findVariable (defined space varName) name =
    if name = varName then some ((findVariable space varName).getD { myName := varName }) else findVariable space name := by
  rw [defined]
  cases hfind : findVariable space varName with
  | none => exact findVariable_newVariable hfind name
  | some v =>
    split_ifs with hname
    · rw [hname]
      exact hfind
    · rfl

variable {openStream : String → Option (List String)} {operator : Char} {varValues : String}

theorem setVariableValue_succeeds (h : ¬CannotBeSet openStream operator varValues) :
    (setVariableValue openStream space varName operator varValues).2 = true := by
  rw [setVariableValue]
  simp only
  by_cases hplus : operator = '+'
  · rw [if_pos hplus]
  rw [if_neg hplus]
  by_cases hminus : operator = '-'
  · rw [if_pos hminus]
  rw [if_neg hminus]
  by_cases hset : operator = '='
  · rw [if_pos hset]
  rw [if_neg hset]
  by_cases hread : operator = '<'
  · rw [if_pos hread]
    cases hopen : openStream varValues with
    | none => exact absurd ⟨hplus, hminus, hset, fun _ => hopen⟩ h
    | some lines => rfl
  · exact absurd ⟨hplus, hminus, hset, fun hread' => absurd hread' hread⟩ h

theorem setVariableValue_fails (h : CannotBeSet openStream operator varValues) :
    setVariableValue openStream space varName operator varValues =
      (if operator = '<' then change (defined space varName) varName variableDeleteItems else defined space varName, false) := by
  obtain ⟨hplus, hminus, hset, hread⟩ := h
  rw [setVariableValue, if_neg hplus, if_neg hminus, if_neg hset]
  split_ifs with hop
  · rw [hread hop]
    rfl
  · rfl

/-- The named variable exists after a call that fails, and has no strings if they were to be read from a file. -/
theorem contents_of_failure (h : CannotBeSet openStream operator varValues) (name : String) :
    contents (setVariableValue openStream space varName operator varValues).1 name =
      if name = varName then some (if operator = '<' then [] else (contents space varName).getD []) else contents space name := by
  have hstrings : (((findVariable space varName).getD { myName := varName }).getVariableStrings) =
      (contents space varName).getD [] := by
    rw [contents]
    cases findVariable space varName with
    | none => rfl
    | some v => rfl
  rw [setVariableValue_fails h, contents]
  by_cases hop : operator = '<'
  · rw [if_pos hop, if_pos hop, findVariable_change (f := variableDeleteItems) fun _ => rfl, findVariable_defined]
    split_ifs with hname
    · rfl
    · rfl
  · rw [if_neg hop, if_neg hop, findVariable_defined, ← hstrings]
    split_ifs with hname
    · rfl
    · rfl

/-- A call that fails changes nothing exactly if the variable exists and, if its strings were to be read from a file, has
none. -/
theorem failureChangesNothing_iff (openStream : String → Option (List String)) (space : VariableSpace) (varName : String)
    (operator : Char) (varValues : String) : FailureChangesNothing openStream space varName operator varValues ↔
      (CannotBeSet openStream operator varValues →
        ∃ strings, contents space varName = some strings ∧ (operator = '<' → strings = [])) := by
  constructor
  · intro h hfail
    have hsame := congrFun (h (by rw [setVariableValue_fails hfail])) varName
    rw [contents_of_failure hfail, if_pos rfl] at hsame
    exact ⟨_, hsame.symm, fun hop => if_pos hop⟩
  · intro h hfalse
    have hfail : CannotBeSet openStream operator varValues := by
      by_contra hset
      rw [setVariableValue_succeeds hset] at hfalse
      cases hfalse
    obtain ⟨strings, hstrings, hempty⟩ := h hfail
    funext name
    rw [contents_of_failure hfail, hstrings, Option.getD_some]
    split_ifs with hname hop
    · rw [hname, hstrings, hempty hop]
    · rw [hname, hstrings]
    · rfl

/-- An existing list of words is lost if the file for its new words cannot be opened. -/
theorem failure_changes_contents : ¬∀ openStream space varName operator varValues,
    FailureChangesNothing openStream space varName operator varValues := by
  intro h
  have hfail : CannotBeSet (fun _ => none) '<' "words" := ⟨by decide, by decide, by decide, fun _ => rfl⟩
  have hsame := congrFun (h (fun _ => none) [{ myName := "w", items := [{ free := false, sval := some "the" }] }] "w" '<' "words"
    (by rw [setVariableValue_fails hfail])) "w"
  rw [contents_of_failure hfail, if_pos rfl, if_pos rfl, contents, findVariable_cons, if_pos rfl] at hsame
  cases hsame

end CWB.VariableSpace
