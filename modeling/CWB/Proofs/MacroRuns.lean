import CWB.Proofs.MacroTable

/-! The macros over a run: whatever is read and expanded, only definitions change the replacement of a macro, and only
definitions of the same name and number of arguments. -/

namespace CWB.Macros

open Option FeatureSets ChainedTable

variable {st st' st₁ : MacroState} {db db' : MacroDatabase} {id : ℕ} {active : Bool} {c : Option CqiByte} {calls : ℕ}
  {d : MacroDefinition} {e : Option DefinitionError}

/-! ## Marks -/

def marked (active : Bool) (p : MacroEntry) : MacroEntry := { p with active }

theorem marked_key (p : MacroEntry) : (marked active p).key = p.key := rfl

theorem marked_id (p : MacroEntry) : (marked active p).id = p.id := rfl

theorem setActive_entries (st : MacroState) (id : ℕ) (active : Bool) :
    (st.setActive id active).database.table.entries = st.database.table.entries.map (updated id (marked active)) :=
  entries_update ..

theorem setActive_find (id : ℕ) (active : Bool) (h : st.database.WF) (k : MacroKey) :
    (st.setActive id active).database.table.find k = (st.database.table.find k).map (updated id (marked active)) :=
  find_update h.table marked_key marked_id k

theorem updated_marked (id : ℕ) (active : Bool) (p : MacroEntry) : (updated id (marked active) p).args = p.args ∧
    (updated id (marked active) p).argnames = p.argnames ∧ (updated id (marked active) p).replacement = p.replacement := by
  rw [updated]
  split_ifs
  · exact ⟨rfl, rfl, rfl⟩
  · exact ⟨rfl, rfl, rfl⟩

theorem setActive_wf (h : st.database.WF) (id : ℕ) (active : Bool) : (st.setActive id active).database.WF := by
  refine ⟨h.table.update marked_key marked_id, fun q hq => ?_, fun q hq => ?_⟩
  · rw [setActive_entries] at hq
    obtain ⟨p, hp, rfl⟩ := List.mem_map.mp hq
    rw [updated_id marked_id]
    exact h.fresh p hp
  · rw [setActive_entries] at hq
    obtain ⟨p, hp, rfl⟩ := List.mem_map.mp hq
    obtain ⟨hargs, -, hreplacement⟩ := updated_marked id active p
    rw [MacroEntry.Complete, hargs, hreplacement]
    exact h.complete p hp

theorem setActive_definitionOf (h : st.database.WF) (str : CString) (args : ℕ) :
    definitionOf (st.setActive id active).database str args = definitionOf st.database str args := by
  have hfind : (st.setActive id active).database.table.macroHashLookup str args =
      (st.database.table.macroHashLookup str args).map (updated id (marked active)) := setActive_find id active h (str, args)
  rw [definitionOf, definitionOf, hfind, map_map]
  refine congrArg (fun f => Option.map f _) (funext fun p => ?_)
  obtain ⟨-, hargnames, hreplacement⟩ := updated_marked id active p
  rw [Function.comp_apply, hargnames, hreplacement]

/-! ## Reading -/

/-- The buffer on top of the list is at its end and is removed. -/
def Pops (st st' : MacroState) : Prop :=
  ∃ buf rest, st.inputBufferList = buf :: rest ∧ buf.position = buf.data.bytes.length ∧ st.popInputBuffer = some st'

/-- A character is taken from the input. -/
def TakesInput (st st' : MacroState) : Prop :=
  st.inputBufferList = [] ∧ ∃ c input, st.input = c :: input ∧ st' = { st with input }

/-- A character is taken from the buffer on top of the list. -/
def TakesBuffer (st st' : MacroState) : Prop :=
  ∃ buf rest, ∃ h : buf.position < buf.data.bytes.length, st.inputBufferList = buf :: rest ∧
    st' = { st with inputBufferList := { buf with position := buf.position + 1, position_le := h } :: rest }

theorem popInputBuffer_eq_some (h : st.popInputBuffer = some st') : st' = st ∧ st.inputBufferList = [] ∨
    ∃ temp rest, st.inputBufferList = temp :: rest ∧ (∃ p ∈ st.database.table.entries, p.id = temp.macroId) ∧
      st' = { st.setActive temp.macroId false with inputBufferList := rest } := by
  cases hlist : st.inputBufferList with
  | nil =>
    rw [MacroState.popInputBuffer, hlist] at h
    exact .inl ⟨(some.inj h).symm, rfl⟩
  | cons temp rest =>
    rw [MacroState.popInputBuffer, hlist] at h
    simp only at h
    split_ifs at h with hany
    obtain ⟨p, hp, heq⟩ := List.any_eq_true.mp hany
    exact .inr ⟨temp, rest, rfl, ⟨p, hp, of_decide_eq_true heq⟩, (some.inj h).symm⟩

theorem yyInputChar_spec (h : st.yyInputChar calls = some (c, st')) :
    ∃ st₁, Relation.ReflTransGen Pops st st₁ ∧
      ((c = none ∧ st' = st₁ ∧ st₁.input = []) ∨ (c ≠ none ∧ (TakesInput st₁ st' ∨ TakesBuffer st₁ st'))) := by
  induction calls generalizing st with
  | zero => cases h
  | succ calls ih =>
    rw [MacroState.yyInputChar] at h
    cases hlist : st.inputBufferList with
    | nil =>
      rw [hlist] at h
      cases hinput : st.input with
      | nil =>
        rw [hinput] at h
        obtain ⟨rfl, rfl⟩ := Prod.mk.inj (some.inj h)
        exact ⟨st, .refl, .inl ⟨rfl, rfl, hinput⟩⟩
      | cons c input =>
        rw [hinput] at h
        obtain ⟨rfl, rfl⟩ := Prod.mk.inj (some.inj h)
        exact ⟨st, .refl, .inr ⟨some_ne_none c, .inl ⟨hlist, c, input, hinput, by rw [hlist]⟩⟩⟩
    | cons buf rest =>
      rw [hlist] at h
      simp only at h
      split_ifs at h with hpos
      · obtain ⟨rfl, rfl⟩ := Prod.mk.inj (some.inj h)
        exact ⟨st, .refl, .inr ⟨some_ne_none _, .inr ⟨buf, rest, hpos, hlist, rfl⟩⟩⟩
      · obtain ⟨st₀, hpop, h⟩ := bind_eq_some_iff.mp h
        obtain ⟨st₁, hpops, htake⟩ := ih h
        have hfirst : Pops st st₀ := ⟨buf, rest, hlist, buf.position_le.antisymm (not_lt.mp hpos), hpop⟩
        exact ⟨st₁, .head hfirst hpops, htake⟩

theorem reads_spec (h : Reads st st') : ∃ st₁, Relation.ReflTransGen Pops st st₁ ∧ (TakesInput st₁ st' ∨ TakesBuffer st₁ st') := by
  obtain ⟨c, h⟩ := h
  obtain ⟨st₁, hpops, ⟨hnone, -⟩ | ⟨-, htake⟩⟩ := yyInputChar_spec h
  · cases hnone
  · exact ⟨st₁, hpops, htake⟩

/-- The state after a call has been replaced. -/
theorem substituteCall_eq_some {name : CString} {args : ℕ} {pseudo : CString} (h : substituteCall st name args pseudo = some (st', none)) :
    ∃ p b, st.lookup name args = some p ∧ p.active = false ∧ fillBuffer st.macroArg pseudo p.replacement = some b ∧
      st' = { st.setActive p.id true with inputBufferList :=
        ⟨b.allocated, CString.ofBuffer b.written, 0, Nat.zero_le _, p.id⟩ :: st.inputBufferList } := by
  cases hlookup : st.lookup name args with
  | none =>
    rw [substituteCall, hlookup] at h
    cases (Prod.mk.inj (some.inj h)).2
  | some p =>
    rw [substituteCall, hlookup] at h
    simp only at h
    split_ifs at h with hactive
    · cases (Prod.mk.inj (some.inj h)).2
    · obtain ⟨b, hfill, h⟩ := map_eq_some_iff.mp h
      obtain ⟨rfl, -⟩ := Prod.mk.inj h
      exact ⟨p, b, rfl, by simpa using hactive, hfill, rfl⟩

/-! ## Arguments -/

/-- One round of the loop over the arguments: it ends before the argument, because there is none or it is not of a type for
arguments, or after it, because there are too many or there is no comma, or it goes on. -/
theorem readArguments_cases {tokens : ℕ → Token} {lexed : ℕ → MacroState → MacroState} {rounds k args : ℕ} {stored : List ℕ}
    {r : ArgumentRead} (h : readArguments tokens lexed (rounds + 1) k args stored st = some r) :
    ((tokens k).argument = none ∧
        r = ⟨args, stored, if tokens k = .close then none else some .invalidArgumentType, lexed k st⟩) ∨
      ∃ s, (tokens k).argument = some s ∧
        ((args + 1 > 10 ∧ r = ⟨args + 1, stored ++ [args], some .tooManyArguments,
            { lexed k st with macroArg := (lexed k st).macroArg.set args (some s) }⟩) ∨
          (args + 1 ≤ 10 ∧
            ((tokens (k + 1) ≠ .comma ∧
                r = ⟨args + 1, stored ++ [args], if tokens (k + 1) = .close then none else some .syntaxError,
                  lexed (k + 1) { lexed k st with macroArg := (lexed k st).macroArg.set args (some s) }⟩) ∨
              (tokens (k + 1) = .comma ∧ readArguments tokens lexed rounds (k + 2) (args + 1) (stored ++ [args])
                (lexed (k + 1) { lexed k st with macroArg := (lexed k st).macroArg.set args (some s) }) = some r)))) := by
  rw [readArguments] at h
  by_cases hclose : tokens k = .close
  · rw [if_pos hclose] at h
    exact .inl ⟨by rw [hclose]; rfl, by rw [if_pos hclose]; exact (some.inj h).symm⟩
  rw [if_neg hclose] at h
  cases harg : (tokens k).argument with
  | none =>
    rw [harg] at h
    exact .inl ⟨rfl, by rw [if_neg hclose]; exact (some.inj h).symm⟩
  | some s =>
    rw [harg] at h
    refine .inr ⟨s, rfl, ?_⟩
    by_cases hmany : args + 1 > 10
    · simp only [if_pos hmany] at h
      exact .inl ⟨hmany, (some.inj h).symm⟩
    refine .inr ⟨not_lt.mp hmany, ?_⟩
    simp only [if_neg hmany] at h
    by_cases hclose' : tokens (k + 1) = .close
    · rw [if_pos hclose'] at h
      refine .inl ⟨fun hcomma => ?_, by rw [if_pos hclose']; exact (some.inj h).symm⟩
      cases hclose'.symm.trans hcomma
    rw [if_neg hclose'] at h
    by_cases hcomma : tokens (k + 1) = .comma
    · rw [if_neg (not_not.mpr hcomma)] at h
      exact .inr ⟨hcomma, h⟩
    · rw [if_pos hcomma] at h
      exact .inl ⟨hcomma, by rw [if_neg hclose']; exact (some.inj h).symm⟩

/-- What the lexer and the stored arguments keep holds when the arguments have been read. -/
theorem readArguments_keeps {tokens : ℕ → Token} {lexed : ℕ → MacroState → MacroState} {rounds k args : ℕ} {stored : List ℕ}
    {r : ArgumentRead} {P : MacroState → Prop} (hlexed : ∀ k st, P st → P (lexed k st))
    (hstore : ∀ (st : MacroState) i s, P st → P { st with macroArg := st.macroArg.set i (some s) }) (hst : P st)
    (h : readArguments tokens lexed rounds k args stored st = some r) : P r.state := by
  induction rounds generalizing k args stored st with
  | zero => cases h
  | succ rounds ih =>
    have hfirst := hlexed k st hst
    obtain ⟨-, rfl⟩ | ⟨s, -, hround⟩ := readArguments_cases h
    · exact hfirst
    have hstored := hstore _ args s hfirst
    obtain ⟨-, rfl⟩ | ⟨-, ⟨-, rfl⟩ | ⟨-, h⟩⟩ := hround
    · exact hstored
    · exact hlexed _ _ hstored
    · exact ih (hlexed _ _ hstored) h

/-! ## Runs -/

/-- What every step of the lexer leaves alone: the table is well formed and defines what it did. -/
def SameDefinitions (db db' : MacroDatabase) : Prop := db'.WF ∧ ∀ str args, definitionOf db' str args = definitionOf db str args

theorem SameDefinitions.refl (h : db.WF) : SameDefinitions db db := ⟨h, fun _ _ => rfl⟩

theorem SameDefinitions.trans {db'' : MacroDatabase} (h : SameDefinitions db db') (h' : SameDefinitions db' db'') :
    SameDefinitions db db'' := ⟨h'.1, fun str args => (h'.2 str args).trans (h.2 str args)⟩

theorem setActive_same (h : st.database.WF) (id : ℕ) (active : Bool) :
    SameDefinitions st.database (st.setActive id active).database :=
  ⟨setActive_wf h id active, fun str args => setActive_definitionOf h str args⟩

theorem pops_same (h : Relation.ReflTransGen Pops st st') (hwf : st.database.WF) : SameDefinitions st.database st'.database := by
  induction h with
  | refl => exact .refl hwf
  | tail _ hlast ih =>
    obtain ⟨buf, rest, -, -, hpop⟩ := hlast
    obtain ⟨rfl, -⟩ | ⟨temp, rest, -, -, rfl⟩ := popInputBuffer_eq_some hpop
    · exact ih
    · exact ih.trans (setActive_same ih.1 _ _)

theorem lexerStep_same (hwf : st.database.WF) (h : LexerStep st st') : SameDefinitions st.database st'.database := by
  obtain ⟨macroArg, pseudoArgCounter, hreads | ⟨name, args, pseudo, hexpands⟩⟩ := h
  · obtain ⟨st₁, hpops, htake⟩ := reads_spec hreads
    have hsame := pops_same hpops hwf
    obtain ⟨-, c, input, -, rfl⟩ | ⟨buf, rest, hpos, -, rfl⟩ := htake
    · exact hsame
    · exact hsame
  · obtain ⟨p, b, -, -, -, rfl⟩ := substituteCall_eq_some hexpands
    exact setActive_same hwf _ _

theorem definitionOf_find (db : MacroDatabase) (str : CString) (args : ℕ) :
    definitionOf db str args = (db.table.find (str, args)).map fun p => (p.argnames, p.replacement) := rfl

theorem initialState_wf (size : ℕ) (h : 0 < size) (input : List CqiByte) : (initialState size h input).database.WF := by
  obtain ⟨hwf, hnil⟩ := makeMacroHash_wf size h
  have hentries : (initialState size h input).database.table.entries = [] := hnil
  refine ⟨hwf, fun p hp => ?_, fun p hp => ?_⟩
  · rw [hentries] at hp
    cases hp
  · rw [hentries] at hp
    cases hp

theorem defines_wf (hwf : st.database.WF) (h : Defines d st st') : st'.database.WF := by
  obtain ⟨db, e, hrun, rfl⟩ := h
  exact (run_spec hwf hrun).1

variable {used used' : List CString} {allowed : MacroDefinition → Prop}

theorem programStep_wf (h : ProgramStep allowed (used, st) (used', st')) (hwf : st.database.WF) : st'.database.WF := by
  cases h with
  | define _ hdefines => exact defines_wf hwf hdefines
  | read hreads => exact (lexerStep_same hwf ⟨st.macroArg, st.pseudoArgCounter, .inl hreads⟩).1
  | call => exact hwf
  | store => exact hwf
  | expand hexpands => exact (lexerStep_same hwf ⟨st.macroArg, st.pseudoArgCounter, .inr hexpands⟩).1

theorem reachable_wf (h : Reachable used st) : st.database.WF := by
  obtain ⟨size, hsize, input, hrun⟩ := h
  generalize hx : (used, st) = x at hrun
  induction hrun generalizing used st with
  | refl =>
    obtain ⟨-, rfl⟩ := Prod.mk.inj hx
    exact initialState_wf size hsize input
  | @tail y _ _ hlast ih =>
    subst hx
    exact programStep_wf hlast (ih rfl)

/-! ## Definitions that are rejected -/

/-- The macro that a definition replaces. -/
def Redefines (d : MacroDefinition) (db : MacroDatabase) : Prop :=
  ∃ n : ℤ, argumentCount d.args d.argstr = some n ∧ 0 ≤ n ∧ n ≤ 10 ∧ (db.table.macroHashLookup d.name n.toNat).isSome = true

/-- A definition that is rejected leaves every macro as it is if and only if there was none to replace: the old macro is
deleted before the prototype and the text are looked at. -/
theorem rejected_unchanged_iff (hst : Reachable used st) {e : DefinitionError} (h : d.run st.database = some (db', some e)) :
    (∀ str args, definitionOf db' str args = definitionOf st.database str args) ↔ ¬Redefines d st.database := by
  obtain ⟨-, n, hcount, ⟨hn, -, rfl⟩ | ⟨h0, h10, found, hfind, hfound⟩⟩ := run_spec (reachable_wf hst) h
  · refine iff_of_true (fun _ _ => rfl) fun hredefines => ?_
    obtain ⟨m, hm, hlow, hhigh, -⟩ := hredefines
    obtain rfl := some.inj (hcount.symm.trans hm)
    omega
  · obtain ⟨e', -, rfl⟩ | ⟨hnone, -⟩ := hfound
    swap
    · cases hnone
    have hredefines : Redefines d st.database ↔ (st.database.table.find (d.name, n.toNat)).isSome = true := by
      constructor
      · rintro ⟨m, hm, -, -, hsome⟩
        obtain rfl := some.inj (hcount.symm.trans hm)
        exact hsome
      · exact fun hsome => ⟨n, hcount, h0, h10, hsome⟩
    rw [hredefines]
    constructor
    · intro hsame
      have hlost := hsame d.name n.toNat
      rw [definitionOf_find, definitionOf_find, hfind, if_pos rfl, map_none] at hlost
      rw [map_eq_none_iff.mp hlost.symm]
      simp
    · intro hnone str args
      rw [definitionOf_find, definitionOf_find, hfind]
      split_ifs with hk
      · obtain ⟨rfl, rfl⟩ := Prod.mk.inj hk
        rw [not_isSome_iff_eq_none.mp hnone]
      · rfl

/-- A macro without arguments, for the text. -/
def plainMacro (definition : List CqiByte) : MacroDefinition where
  name := CString.ofBuffer [109, 0]
  args := 0
  argstr := none
  definition := CString.ofBuffer definition

/-- The state after one definition. -/
def oneMacro : MacroState where
  database :=
    { table := (makeMacroHash 1 Nat.one_pos).macroHashAdd
        { id := 0, name := CString.ofBuffer [109, 0], args := 0, argnames := List.replicate 10 none,
          replacement := [{ string := some (CString.ofBuffer [97, 0]), arg := -1 }], active := false }
      nextId := 1 }
  inputBufferList := []
  macroArg := List.replicate 10 none
  pseudoArgCounter := 0
  input := []

theorem oneMacro_defined : Defines (plainMacro [97, 0]) (initialState 1 Nat.one_pos []) oneMacro := ⟨oneMacro.database, none, rfl, rfl⟩

theorem oneMacro_reachable : Reachable [] oneMacro := ⟨1, Nat.one_pos, [], .single (.define trivial oneMacro_defined)⟩

theorem badReference_run : (plainMacro [36, 48, 0]).run oneMacro.database =
    some (⟨makeMacroHash 1 Nat.one_pos, 2⟩, some (.invalidReference 0)) := rfl

theorem rejected_changes_table : ¬∀ used st d db' e, Reachable used st → MacroDefinition.run d st.database = some (db', some e) →
    ∀ str args, definitionOf db' str args = definitionOf st.database str args := by
  intro h
  have hsame := h _ _ _ _ _ oneMacro_reachable badReference_run (CString.ofBuffer [109, 0]) 0
  cases hsame

theorem rejected_unchanged_iff_m : (∀ str args, definitionOf ⟨makeMacroHash 1 Nat.one_pos, 2⟩ str args =
    definitionOf oneMacro.database str args) ↔ ¬Redefines (plainMacro [36, 48, 0]) oneMacro.database :=
  rejected_unchanged_iff oneMacro_reachable badReference_run
end CWB.Macros
