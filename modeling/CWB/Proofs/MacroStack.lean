import CWB.Library.StackDescent
import CWB.Proofs.MacroRuns

/-! The expansion of macros comes to an end. The marks of the macros are the buffers on the list, so that its depth is
bounded by the number of macros, and what is read from a buffer ends the buffers above it for good. -/

namespace CWB.Macros

open List FeatureSets ChainedTable StackDescent Relation

variable {st st' st₁ : MacroState} {id : ℕ} {active : Bool}

/-! ## The marks -/

structure StackInv (st : MacroState) : Prop extends ActiveOnStack st where
  wf : st.database.WF
  present : ∀ buf ∈ st.inputBufferList, ∃ p ∈ st.database.table.entries, p.id = buf.macroId

theorem updated_active (p : MacroEntry) :
    (updated id (marked active) p).active = if p.id = id then active else p.active := by
  rw [updated]
  split_ifs
  · rfl
  · rfl

theorem id_mem_setActive {i : ℕ} : (∃ p ∈ (st.setActive id active).database.table.entries, p.id = i) ↔
    ∃ p ∈ st.database.table.entries, p.id = i := by
  rw [setActive_entries]
  constructor
  · rintro ⟨q, hq, rfl⟩
    obtain ⟨p, hp, rfl⟩ := mem_map.mp hq
    exact ⟨p, hp, (updated_id marked_id p).symm⟩
  · rintro ⟨p, hp, rfl⟩
    exact ⟨_, mem_map_of_mem hp, updated_id marked_id p⟩

theorem StackInv.pop {temp : InputBuffer} {rest : List InputBuffer} (h : StackInv st) (hlist : st.inputBufferList = temp :: rest) :
    StackInv { st.setActive temp.macroId false with inputBufferList := rest } := by
  have honce := h.once
  rw [hlist, map_cons, nodup_cons] at honce
  refine ⟨⟨fun q hq => ?_, honce.2⟩, setActive_wf h.wf _ _, fun buf hbuf => ?_⟩
  · change q ∈ (st.setActive temp.macroId false).database.table.entries at hq
    rw [setActive_entries] at hq
    obtain ⟨p, hp, rfl⟩ := mem_map.mp hq
    rw [updated_active, updated_id marked_id]
    by_cases hid : p.id = temp.macroId
    · rw [if_pos hid]
      refine iff_of_false Bool.false_ne_true fun hmem => ?_
      obtain ⟨buf, hbuf, heq⟩ := hmem
      exact honce.1 (mem_map.mpr ⟨buf, hbuf, heq.trans hid⟩)
    · rw [if_neg hid, h.active p hp, hlist]
      simp only [mem_cons, exists_eq_or_imp]
      exact or_iff_right fun heq => hid heq.symm
  · refine id_mem_setActive.mpr (h.present buf ?_)
    rw [hlist]
    exact mem_cons_of_mem _ hbuf

theorem StackInv.push {p : MacroEntry} {buf : InputBuffer} (h : StackInv st) (hp : p ∈ st.database.table.entries)
    (hactive : p.active = false) (hbuf : buf.macroId = p.id) :
    StackInv { st.setActive p.id true with inputBufferList := buf :: st.inputBufferList } := by
  refine ⟨⟨fun q hq => ?_, ?_⟩, setActive_wf h.wf _ _, fun b hb => ?_⟩
  · change q ∈ (st.setActive p.id true).database.table.entries at hq
    rw [setActive_entries] at hq
    obtain ⟨q₀, hq₀, rfl⟩ := mem_map.mp hq
    rw [updated_active, updated_id marked_id]
    by_cases hid : q₀.id = p.id
    · rw [if_pos hid]
      exact iff_of_true rfl ⟨buf, mem_cons_self, hbuf.trans hid.symm⟩
    · rw [if_neg hid, h.active q₀ hq₀]
      simp only [mem_cons, exists_eq_or_imp]
      refine (or_iff_right fun heq => hid ?_).symm
      rw [← heq, hbuf]
  · change (buf.macroId :: st.inputBufferList.map InputBuffer.macroId).Nodup
    rw [nodup_cons]
    refine ⟨fun hmem => ?_, h.once⟩
    obtain ⟨b, hb, heq⟩ := mem_map.mp hmem
    have htrue := (h.active p hp).mpr ⟨b, hb, heq.trans hbuf⟩
    rw [hactive] at htrue
    cases htrue
  · refine id_mem_setActive.mpr ?_
    obtain rfl | hb := mem_cons.mp hb
    · exact ⟨p, hp, hbuf.symm⟩
    · exact h.present b hb

/-- Nothing but the marks and the macros of the buffers matters. -/
theorem StackInv.congr (h : StackInv st) (hdb : st'.database = st.database)
    (hids : st'.inputBufferList.map InputBuffer.macroId = st.inputBufferList.map InputBuffer.macroId) : StackInv st' := by
  have hmem : ∀ i, (∃ buf ∈ st'.inputBufferList, buf.macroId = i) ↔ ∃ buf ∈ st.inputBufferList, buf.macroId = i := by
    intro i
    rw [← mem_map, ← mem_map, hids]
  refine ⟨⟨fun p hp => ?_, hids ▸ h.once⟩, hdb ▸ h.wf, fun buf hbuf => ?_⟩
  · rw [hmem]
    exact h.active p (hdb ▸ hp)
  · obtain ⟨buf', hbuf', heq⟩ := (hmem buf.macroId).mp ⟨buf, hbuf, rfl⟩
    rw [hdb, ← heq]
    exact h.present buf' hbuf'

theorem pops_inv (h : ReflTransGen Pops st st') (hinv : StackInv st) : StackInv st' := by
  induction h with
  | refl => exact hinv
  | tail _ hlast ih =>
    obtain ⟨buf, rest, -, -, hpop⟩ := hlast
    obtain ⟨rfl, -⟩ | ⟨temp, rest, hlist, -, rfl⟩ := popInputBuffer_eq_some hpop
    · exact ih
    · exact ih.pop hlist

theorem reads_inv (h : Reads st st') (hinv : StackInv st) : StackInv st' := by
  obtain ⟨st₁, hpops, htake⟩ := reads_spec h
  have hinv₁ := pops_inv hpops hinv
  obtain ⟨-, c, input, -, rfl⟩ | ⟨buf, rest, hpos, hlist, rfl⟩ := htake
  · exact hinv₁.congr rfl rfl
  · refine hinv₁.congr rfl ?_
    rw [hlist]
    rfl

theorem expands_inv (h : Expands st st') (hinv : StackInv st) : StackInv st' := by
  obtain ⟨name, args, pseudo, h⟩ := h
  obtain ⟨p, b, hlookup, hactive, -, rfl⟩ := substituteCall_eq_some h
  have hfind : st.database.table.find (name, args) = some p := hlookup
  exact hinv.push ((find_eq_some_iff hinv.wf.table).mp hfind).1 hactive rfl

theorem lexerStep_inv (h : LexerStep st st') (hinv : StackInv st) : StackInv st' := by
  obtain ⟨macroArg, pseudoArgCounter, hreads | hexpands⟩ := h
  · exact reads_inv hreads (hinv.congr rfl rfl)
  · exact expands_inv hexpands (hinv.congr rfl rfl)

/-- No buffer refers to a macro that has been deleted. -/
theorem yyInputChar_isSome (h : StackInv st) {calls : ℕ} (hcalls : st.inputBufferList.length < calls) :
    (st.yyInputChar calls).isSome = true := by
  induction calls generalizing st with
  | zero => cases hcalls
  | succ calls ih =>
    rw [MacroState.yyInputChar]
    cases hlist : st.inputBufferList with
    | nil =>
      cases st.input with
      | nil => rfl
      | cons c input => rfl
    | cons buf rest =>
      simp only
      split_ifs with hpos
      · rfl
      · obtain ⟨p, hp, hid⟩ := h.present buf (by rw [hlist]; exact mem_cons_self)
        have hany : st.database.table.entries.any (·.id = buf.macroId) = true := any_eq_true.mpr ⟨p, hp, decide_eq_true hid⟩
        have hpop : st.popInputBuffer = some { st.setActive buf.macroId false with inputBufferList := rest } := by
          rw [MacroState.popInputBuffer, hlist]
          exact if_pos hany
        rw [hpop, Option.bind_some]
        refine ih (h.pop hlist) ?_
        rw [hlist, length_cons] at hcalls
        exact Nat.lt_of_succ_lt_succ hcalls

/-! ## What is left to read -/

def InputBuffer.remaining (buf : InputBuffer) : ℕ := buf.data.bytes.length - buf.position

/-- What is left of the input and of the buffers, the input first. -/
def amounts (st : MacroState) : Amounts := st.input.length :: (st.inputBufferList.map InputBuffer.remaining).reverse

theorem amounts_cons {st : MacroState} {buf : InputBuffer} {rest : List InputBuffer} (hlist : st.inputBufferList = buf :: rest) :
    amounts st = amounts { st with inputBufferList := rest } ++ [buf.remaining] := by
  rw [amounts, hlist, map_cons, reverse_cons]
  rfl

theorem pops_amounts (h : ReflTransGen Pops st st') : amounts st' <+: amounts st := by
  induction h with
  | refl => exact prefix_rfl
  | tail _ hlast ih =>
    obtain ⟨buf, rest, -, -, hpop⟩ := hlast
    obtain ⟨rfl, -⟩ | ⟨temp, rest, hlist, -, rfl⟩ := popInputBuffer_eq_some hpop
    · exact ih
    · refine List.IsPrefix.trans ?_ ih
      rw [amounts_cons hlist]
      exact prefix_append ..

theorem takes_amounts (h : TakesInput st st' ∨ TakesBuffer st st') :
    ∃ below r, amounts st = below ++ [r + 1] ∧ amounts st' = below ++ [r] := by
  obtain ⟨hlist, c, input, hinput, rfl⟩ | ⟨buf, rest, hpos, hlist, rfl⟩ := h
  · refine ⟨[], input.length, ?_, ?_⟩
    · rw [amounts, hlist, hinput]
      rfl
    · rw [amounts, hlist]
      rfl
  · refine ⟨amounts { st with inputBufferList := rest }, buf.data.bytes.length - (buf.position + 1), ?_, ?_⟩
    · rw [amounts_cons hlist, InputBuffer.remaining, ← Nat.sub_sub, Nat.sub_add_cancel (Nat.sub_pos_of_lt hpos)]
    · rw [amounts_cons rfl]
      rfl

/-- A character is taken from one level, and the levels above it are at their end. -/
theorem lexerStep_amounts (h : LexerStep st st') : Step (amounts st) (amounts st') := by
  obtain ⟨macroArg, pseudoArgCounter, hreads | ⟨name, args, pseudo, hexpands⟩⟩ := h
  · obtain ⟨st₁, hpops, htake⟩ := reads_spec hreads
    obtain ⟨below, r, hbefore, hafter⟩ := takes_amounts htake
    obtain ⟨above, habove⟩ := pops_amounts hpops
    have hst : amounts st = below ++ (r + 1) :: above := by
      refine habove.symm.trans ?_
      rw [hbefore, append_assoc]
      rfl
    rw [hst, hafter]
    exact .take below r above
  · obtain ⟨p, b, -, -, -, heq⟩ := substituteCall_eq_some hexpands
    have hpush : amounts st' = amounts st ++ [(CString.ofBuffer b.written).bytes.length - 0] := by
      rw [heq, amounts, map_cons, reverse_cons]
      rfl
    rw [hpush]
    exact .push ..

/-! ## Runs -/

theorem lexerStep_length (h : LexerStep st st') : st'.database.table.entries.length = st.database.table.entries.length := by
  have hset : ∀ {st : MacroState} {id active},
      (st.setActive id active).database.table.entries.length = st.database.table.entries.length := by
    intro st id active
    rw [setActive_entries, length_map]
  have hpopped : ∀ {st st' : MacroState}, ReflTransGen Pops st st' →
      st'.database.table.entries.length = st.database.table.entries.length := by
    intro st st' hpops
    induction hpops with
    | refl => rfl
    | tail _ hlast ih =>
      obtain ⟨buf, rest, -, -, hpop⟩ := hlast
      obtain ⟨rfl, -⟩ | ⟨temp, rest, -, -, rfl⟩ := popInputBuffer_eq_some hpop
      · exact ih
      · exact hset.trans ih
  obtain ⟨macroArg, pseudoArgCounter, hreads | ⟨name, args, pseudo, hexpands⟩⟩ := h
  · obtain ⟨st₁, hpops, htake⟩ := reads_spec hreads
    have hlength := hpopped hpops
    obtain ⟨-, c, input, -, rfl⟩ | ⟨buf, rest, hpos, -, rfl⟩ := htake
    · exact hlength
    · exact hlength
  · obtain ⟨p, b, -, -, -, rfl⟩ := substituteCall_eq_some hexpands
    exact hset

theorem amounts_length (h : StackInv st) : (amounts st).length ≤ st.database.table.entries.length + 1 := by
  have hsub : st.inputBufferList.map InputBuffer.macroId ⊆ st.database.table.entries.map MacroEntry.id := by
    intro i hi
    obtain ⟨buf, hbuf, rfl⟩ := mem_map.mp hi
    obtain ⟨p, hp, heq⟩ := h.present buf hbuf
    exact mem_map.mpr ⟨p, hp, heq⟩
  have hle := (h.once.subperm hsub).length_le
  rw [length_map, length_map] at hle
  rw [amounts, length_cons, length_reverse, length_map]
  exact Nat.succ_le_succ hle

theorem run_inv (h : ReflTransGen LexerStep st st') (hinv : StackInv st) : StackInv st' := by
  induction h with
  | refl => exact hinv
  | tail _ hlast ih => exact lexerStep_inv hlast ih

theorem no_infinite_run (hinv : StackInv st) : ¬∃ run : ℕ → MacroState, run 0 = st ∧ ∀ n, LexerStep (run n) (run (n + 1)) := by
  rintro ⟨run, rfl, hrun⟩
  have hall : ∀ n, StackInv (run n) ∧ (run n).database.table.entries.length = (run 0).database.table.entries.length := by
    intro n
    induction n with
    | zero => exact ⟨hinv, rfl⟩
    | succ n ih => exact ⟨lexerStep_inv (hrun n) ih.1, (lexerStep_length (hrun n)).trans ih.2⟩
  obtain ⟨n, hn⟩ := not_forever (fun n => amounts (run n)) fun n => (amounts_length (hall n).1).trans_eq (by rw [(hall n).2])
  exact hn (lexerStep_amounts (hrun n))

/-! ## Calls -/

/-- The states differ in the arguments of calls only. -/
def UpToArguments (st st' : MacroState) : Prop :=
  ∃ macroArg pseudoArgCounter, st' = { st with macroArg, pseudoArgCounter }

theorem lexerStep_upTo {st₂ : MacroState} (h : UpToArguments st st₁) (hstep : LexerStep st₁ st₂) : LexerStep st st₂ := by
  obtain ⟨macroArg, pseudoArgCounter, rfl⟩ := h
  exact hstep

/-- Arguments that are stored do not come between the steps of a run. -/
theorem run_upTo {st₂ : MacroState} (h : UpToArguments st st₁) (hrun : ReflTransGen LexerStep st₁ st₂) :
    ∃ st₃, ReflTransGen LexerStep st st₃ ∧ UpToArguments st₃ st₂ := by
  obtain rfl | ⟨st₃, hstep, hrun⟩ := ReflTransGen.cases_head hrun
  · exact ⟨st, .refl, h⟩
  · exact ⟨st₂, .head (lexerStep_upTo h hstep) hrun, st₂.macroArg, st₂.pseudoArgCounter, rfl⟩

theorem UpToArguments.store (h : UpToArguments st st₁) (macroArg : List (Option CString)) :
    UpToArguments st { st₁ with macroArg } := by
  obtain ⟨_, pseudoArgCounter, rfl⟩ := h
  exact ⟨macroArg, pseudoArgCounter, rfl⟩

variable {tokens : ℕ → Token} {lexed : ℕ → MacroState → MacroState}

theorem readArguments_run {rounds k args : ℕ} {stored : List ℕ} {r : ArgumentRead}
    (hlexed : ∀ k st, ReflTransGen LexerStep st (lexed k st)) (hst : UpToArguments st st₁)
    (h : readArguments tokens lexed rounds k args stored st₁ = some r) :
    ∃ st₂, ReflTransGen LexerStep st st₂ ∧ UpToArguments st₂ r.state := by
  refine readArguments_keeps (P := fun st' => ∃ st₂, ReflTransGen LexerStep st st₂ ∧ UpToArguments st₂ st') ?_ ?_ ⟨st, .refl, hst⟩ h
  · intro k st' hst'
    obtain ⟨st₂, hrun₂, hst₂⟩ := hst'
    obtain ⟨st₃, hrun₃, hst₃⟩ := run_upTo hst₂ (hlexed k st')
    exact ⟨st₃, hrun₂.trans hrun₃, hst₃⟩
  · intro st' i s hst'
    obtain ⟨st₂, hrun₂, hst₂⟩ := hst'
    exact ⟨st₂, hrun₂, hst₂.store _⟩

/-- A call that is replaced is a run of the lexer, the reading of its arguments included. -/
theorem expandMacro_run {name : CString} {call : ExpandCall} (hlexed : ∀ k st, ReflTransGen LexerStep st (lexed k st))
    (h : expandMacro st name tokens lexed = some call) (hresult : call.result = some (st', none)) : TransGen LexerStep st st' := by
  obtain ⟨r, hread, h⟩ := Option.bind_eq_some_iff.mp h
  obtain ⟨st₁, hrun, macroArg, pseudoArgCounter, hst₁⟩ := readArguments_run hlexed ⟨_, _, rfl⟩ hread
  cases herror : r.error with
  | some e =>
    rw [herror] at h
    obtain rfl := Option.some.inj h
    cases (Prod.mk.inj (Option.some.inj hresult)).2
  | none =>
    rw [herror] at h
    obtain rfl := Option.some.inj h
    refine .tail' hrun ⟨macroArg, pseudoArgCounter, .inr ⟨name, r.args, pseudoArg st.pseudoArgCounter, ?_⟩⟩
    rw [← hst₁]
    exact hresult

/-! ## Termination -/

/-- A definition adds no macro that is marked. -/
theorem defines_inactive {d : MacroDefinition} (hwf : st.database.WF) (h : Defines d st st')
    (hinactive : ∀ p ∈ st.database.table.entries, p.active = false) : ∀ p ∈ st'.database.table.entries, p.active = false := by
  obtain ⟨db', e, hrun, rfl⟩ := h
  obtain ⟨hwf', n, -, ⟨-, -, rfl⟩ | ⟨-, -, found, hfind, hfound⟩⟩ := run_spec hwf hrun
  · exact hinactive
  intro p hp
  have hp' : db'.table.find p.key = some p := (find_eq_some_iff hwf'.table).mpr ⟨hp, rfl⟩
  rw [hfind] at hp'
  split_ifs at hp' with hk
  · obtain ⟨e', -, rfl⟩ | ⟨-, q, rfl, hq, -⟩ := hfound
    · cases hp'
    · obtain rfl := Option.some.inj hp'
      exact hq
  · exact hinactive p ((find_eq_some_iff hwf.table).mp hp').1

theorem onlyDefined_inv (h : OnlyDefined st) : StackInv st := by
  obtain ⟨size, hsize, input, hrun⟩ := h
  have hall : st.database.WF ∧ st.inputBufferList = [] ∧ ∀ p ∈ st.database.table.entries, p.active = false := by
    induction hrun with
    | refl =>
      refine ⟨initialState_wf size hsize input, rfl, fun p hp => ?_⟩
      have hnil : (initialState size hsize input).database.table.entries = [] := (makeMacroHash_wf size hsize).2
      rw [hnil] at hp
      cases hp
    | tail _ hlast ih =>
      obtain ⟨hwf, hlist, hinactive⟩ := ih
      obtain ⟨d, hdefines⟩ := hlast
      refine ⟨defines_wf hwf hdefines, ?_, defines_inactive hwf hdefines hinactive⟩
      obtain ⟨db, e, -, rfl⟩ := hdefines
      exact hlist
  obtain ⟨hwf, hlist, hinactive⟩ := hall
  refine ⟨⟨fun p hp => ?_, ?_⟩, hwf, fun buf hbuf => ?_⟩
  · rw [hinactive p hp, hlist]
    exact iff_of_false Bool.false_ne_true fun ⟨_, hbuf, _⟩ => by cases hbuf
  · rw [hlist]
    exact nodup_nil
  · rw [hlist] at hbuf
    cases hbuf

/-- Every run of the lexer, however it goes on after each step, comes to an end, and the marks are those of the buffers. -/
theorem macroExpansion_terminates (h : OnlyDefined st) :
    (∀ st', ReflTransGen LexerStep st st' → ActiveOnStack st' ∧ (st'.yyInputChar (st'.inputBufferList.length + 1)).isSome = true) ∧
      (∀ st₁ st₂ name tokens lexed call, (∀ k st, ReflTransGen LexerStep st (lexed k st)) →
        expandMacro st₁ name tokens lexed = some call → call.result = some (st₂, none) → TransGen LexerStep st₁ st₂) ∧
      ¬∃ run : ℕ → MacroState, run 0 = st ∧ ∀ n, LexerStep (run n) (run (n + 1)) := by
  have hinv := onlyDefined_inv h
  refine ⟨fun st' hrun => ?_, fun st₁ st₂ name tokens lexed call => expandMacro_run, no_infinite_run hinv⟩
  have hinv' := run_inv hrun hinv
  exact ⟨hinv'.toActiveOnStack, yyInputChar_isSome hinv' (Nat.lt_succ_self _)⟩

theorem macroExpansion_terminates_m : ¬∃ run : ℕ → MacroState, run 0 = oneMacro ∧ ∀ n, LexerStep (run n) (run (n + 1)) :=
  (macroExpansion_terminates ⟨1, Nat.one_pos, [], .single ⟨_, oneMacro_defined⟩⟩).2.2

end CWB.Macros
