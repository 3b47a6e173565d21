import CWB.Proofs.MacroStack

/-! The calls of macros: the table of arguments, which is written once more before the number of arguments is tested, and
the text that a call is replaced by. -/

namespace CWB.Macros

open List FeatureSets ChainedTable Relation

variable {st st' st₁ : MacroState} {used used' : List CString} {name : CString} {tokens : ℕ → Token}
  {lexed : ℕ → MacroState → MacroState} {r : ArgumentRead}

/-! ## The table of arguments -/

/-- The eleventh argument and what comes before it, from an argument on. -/
def MoreThanTen (tokens : ℕ → Token) (args : ℕ) : Prop :=
  (∀ i, args ≤ i → i ≤ 10 → ((tokens (2 * i)).argument).isSome = true) ∧ ∀ i, args ≤ i → i < 10 → tokens (2 * i + 1) = .comma

variable {args : ℕ}

theorem moreThanTen_succ (h : args < 10) : MoreThanTen tokens args ↔
    ((tokens (2 * args)).argument).isSome = true ∧ tokens (2 * args + 1) = .comma ∧ MoreThanTen tokens (args + 1) := by
  constructor
  · intro hmore
    exact ⟨hmore.1 args le_rfl h.le, hmore.2 args le_rfl h, fun i hi => hmore.1 i (by omega), fun i hi => hmore.2 i (by omega)⟩
  · rintro ⟨harg, hcomma, hmore⟩
    refine ⟨fun i hi hle => ?_, fun i hi hlt => ?_⟩
    · obtain rfl | hi := hi.eq_or_lt
      · exact harg
      · exact hmore.1 i hi hle
    · obtain rfl | hi := hi.eq_or_lt
      · exact hcomma
      · exact hmore.2 i hi hlt

theorem readArguments_isSome {rounds k : ℕ} {stored : List ℕ} (h : args + rounds = 11) (hargs : args ≤ 10) (st : MacroState) :
    ∃ r, readArguments tokens lexed rounds k args stored st = some r := by
  induction rounds generalizing k args stored st with
  | zero => omega
  | succ rounds ih =>
    rw [readArguments]
    by_cases hclose : tokens k = .close
    · exact ⟨_, if_pos hclose⟩
    rw [if_neg hclose]
    cases (tokens k).argument with
    | none => exact ⟨_, rfl⟩
    | some s =>
      by_cases hmany : args + 1 > 10
      · exact ⟨_, if_pos hmany⟩
      simp only [if_neg hmany]
      split_ifs
      · exact ⟨_, rfl⟩
      · exact ⟨_, rfl⟩
      · exact ih (by omega) (not_lt.mp hmany) _

/-- The loop has written the entries of the arguments that it has counted. -/
theorem readArguments_spec {rounds : ℕ} (hrounds : args + rounds = 11) (hargs : args ≤ 10)
    (h : readArguments tokens lexed rounds (2 * args) args (range args) st = some r) :
    r.stored = range r.args ∧ r.args ≤ 11 ∧ (10 < r.args → r.error = some .tooManyArguments) ∧
      (10 < r.args ↔ MoreThanTen tokens args) := by
  induction rounds generalizing args st with
  | zero => omega
  | succ rounds ih =>
    obtain ⟨hnone, rfl⟩ | ⟨s, hsome, hround⟩ := readArguments_cases h
    · refine ⟨rfl, by simp only; omega, fun hlt => absurd hlt hargs.not_gt, iff_of_false hargs.not_gt fun hmore => ?_⟩
      have hisSome := hmore.1 args le_rfl hargs
      rw [hnone] at hisSome
      cases hisSome
    · have hisSome : ((tokens (2 * args)).argument).isSome = true := by rw [hsome]; rfl
      rw [← range_succ] at hround
      obtain ⟨hmany, rfl⟩ | ⟨hfew, ⟨hcomma, rfl⟩ | ⟨hcomma, h⟩⟩ := hround
      · obtain rfl : args = 10 := by omega
        refine ⟨rfl, le_rfl, fun _ => rfl, iff_of_true hmany ⟨fun i hi hle => ?_, fun i hi hlt => absurd hlt hi.not_gt⟩⟩
        rw [le_antisymm hle hi]
        exact hisSome
      · refine ⟨rfl, by simp only; omega, fun hlt => absurd hlt hfew.not_gt, iff_of_false hfew.not_gt fun hmore => ?_⟩
        exact hcomma (hmore.2 args le_rfl hfew)
      · rw [moreThanTen_succ hfew]
        obtain ⟨hstored, hle, herror, hmore⟩ := ih (by omega) hfew h
        exact ⟨hstored, hle, herror, hmore.trans (by simp [hisSome, hcomma])⟩

theorem moreThanTen_zero : MoreThanTen tokens 0 ↔ ElevenArguments tokens :=
  and_congr (forall_congr' fun _ => ⟨fun h => h (Nat.zero_le _), fun h _ => h⟩)
    (forall_congr' fun _ => ⟨fun h => h (Nat.zero_le _), fun h _ => h⟩)

theorem run_same (hwf : st.database.WF) (h : ReflTransGen LexerStep st st') : SameDefinitions st.database st'.database := by
  induction h with
  | refl => exact .refl hwf
  | tail _ hlast ih => exact ih.trans (lexerStep_same ih.1 hlast)

/-- The table of macros when the arguments have been read. -/
theorem readArguments_same (hwf : st.database.WF) (hlexed : ∀ k st, ReflTransGen LexerStep st (lexed k st))
    {rounds k : ℕ} {stored : List ℕ} (h : readArguments tokens lexed rounds k args stored st = some r) :
    SameDefinitions st.database r.state.database := by
  obtain ⟨st₂, hrun, macroArg, pseudoArgCounter, hst⟩ := readArguments_run hlexed ⟨st.macroArg, st.pseudoArgCounter, rfl⟩ h
  have hsame := run_same hwf hrun
  rw [hst]
  exact hsame

/-- The arguments that a substitution looks at are those of the macro. -/
theorem dereferenced_lt (hwf : st.database.WF) {p : MacroEntry} (h : st.lookup name args = some p) :
    ∀ i ∈ dereferenced p.replacement, i < args := by
  have hfind : st.database.table.find (name, args) = some p := h
  obtain ⟨hp, hkey⟩ := (find_eq_some_iff hwf.table).mp hfind
  have hargs : p.args = args := (Prod.mk.inj hkey).2
  intro i hi
  obtain ⟨seg, hseg, rfl⟩ := mem_map.mp hi
  obtain ⟨hseg, harg⟩ := mem_filter.mp hseg
  have hlt := (hwf.complete p hp).2 seg hseg
  have hpos := of_decide_eq_true harg
  omega

theorem expandMacro_error {e : CallError} (h : readArguments tokens lexed 11 0 0 [] st.beginCall = some r) (he : r.error = some e) :
    expandMacro st name tokens lexed = some ⟨r.args, r.stored, [], some (r.state, some e)⟩ := by
  refine Option.bind_eq_some_iff.mpr ⟨r, h, ?_⟩
  rw [he]

theorem expandMacro_ok (name : CString) (h : readArguments tokens lexed 11 0 0 [] st.beginCall = some r) (he : r.error = none) :
    ∃ call, expandMacro st name tokens lexed = some call ∧ call.args = r.args ∧ call.stored = r.stored ∧
      (call.dereferenced = [] ∨ ∃ p, r.state.lookup name r.args = some p ∧ call.dereferenced = dereferenced p.replacement) ∧
      call.result = substituteCall r.state name r.args (pseudoArg st.pseudoArgCounter) := by
  refine ⟨_, Option.bind_eq_some_iff.mpr ⟨r, h, by rw [he]⟩, rfl, rfl, ?_, rfl⟩
  simp only
  cases r.state.lookup name r.args with
  | none => exact .inl rfl
  | some p =>
    by_cases hactive : p.active = true
    · exact .inl (if_pos hactive)
    · exact .inr ⟨p, rfl, if_neg hactive⟩

/-- A call stays within the table if and only if it has no eleventh argument: this one is stored behind the table before the
number of arguments is tested. -/
theorem withinTable_iff (hst : Reachable used st) (hlexed : ∀ k st, ReflTransGen LexerStep st (lexed k st)) :
    ∃ call, expandMacro st name tokens lexed = some call ∧ (WithinTable call ↔ ¬ElevenArguments tokens) := by
  have hread : ∃ r, readArguments tokens lexed 11 0 0 [] st.beginCall = some r := readArguments_isSome rfl (Nat.zero_le _) _
  obtain ⟨r, hread⟩ := hread
  obtain ⟨hstored, hle, hmany, hmore⟩ := readArguments_spec rfl (Nat.zero_le _) hread
  rw [moreThanTen_zero] at hmore
  rw [← hmore, not_lt]
  cases herror : r.error with
  | some e =>
    refine ⟨_, expandMacro_error hread herror, fun hwithin => ?_, fun hten => ⟨fun i hi => ?_, fun hlt => ?_, fun i hi => ?_⟩⟩
    · by_contra hten
      refine absurd (hwithin.1 10 ?_) (lt_irrefl _)
      rw [hstored]
      exact mem_range.mpr (not_le.mp hten)
    · rw [hstored] at hi
      exact (mem_range.mp hi).trans_le hten
    · exact absurd hlt hten.not_gt
    · cases hi
  | none =>
    have hten : r.args ≤ 10 := by
      by_contra hten
      cases (hmany (not_le.mp hten)).symm.trans herror
    obtain ⟨call, hcall, hargs, hstored', hderef, -⟩ := expandMacro_ok name hread herror
    refine ⟨call, hcall, iff_of_true ⟨fun i hi => ?_, fun hlt => ?_, fun i hi => ?_⟩ hten⟩
    · rw [hstored', hstored] at hi
      exact (mem_range.mp hi).trans_le hten
    · rw [hargs] at hlt
      exact absurd hlt hten.not_gt
    · rw [hargs]
      obtain hnil | ⟨p, hlookup, hderef⟩ := hderef
      · rw [hnil] at hi
        cases hi
      · rw [hderef] at hi
        have hwf := reachable_wf hst
        have hbegun : st.beginCall.database.WF := hwf
        exact dereferenced_lt (readArguments_same hbegun hlexed hread).1 hlookup i hi

/-- The tokens of eleven arguments. -/
def elevenTokens (k : ℕ) : Token := if k % 2 = 0 then .id (CString.ofBuffer [97, 0]) else .comma

theorem eleven_stored : ¬∀ used st name tokens lexed call, Reachable used st → (∀ k st, ReflTransGen LexerStep st (lexed k st)) →
    expandMacro st name tokens lexed = some call → WithinTable call := by
  intro h
  have hwithin := h [] oneMacro (CString.ofBuffer [109, 0]) elevenTokens (fun _ st => st) _ oneMacro_reachable (fun _ _ => .refl) rfl
  exact absurd (hwithin.1 10 (by decide)) (by decide)

theorem withinTable_iff_m : ∃ call, expandMacro oneMacro (CString.ofBuffer [109, 0]) (fun _ => .close) (fun _ st => st) = some call ∧
    (WithinTable call ↔ ¬ElevenArguments fun _ => .close) :=
  withinTable_iff oneMacro_reachable fun _ _ => .refl

end CWB.Macros
