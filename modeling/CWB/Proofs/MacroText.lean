import CWB.Proofs.MacroCalls

/-! The text that a call is replaced by: the definition with its arguments, in a block of the length that has been computed
before. The length is an `int`, and the pseudo arguments are counted in 32 bits. -/

namespace CWB.Macros

open Nat Option List FeatureSets ChainedTable Relation

/-! ## The text -/

section Text

variable {arguments : List CString} {macroArg : List (Option CString)} {pseudo : CString} {replacement : List MacroSegment}
  {seg : MacroSegment} {b b' : SetBuffer}

/-- The entries of the table are the arguments. -/
def Holds (macroArg : List (Option CString)) (arguments : List CString) : Prop := ∀ i, macroArg.getD i none = arguments[i]?

theorem segmentPart_eq (pseudo : CString) (hargs : Holds macroArg arguments) (hseg : seg.arg < arguments.length) : ∃ part,
    segmentPart macroArg pseudo seg = some part ∧ part.bytes = segmentText arguments pseudo seg := by
  rw [segmentPart, segmentText]
  by_cases harg : seg.arg ≥ 0
  · have hlt : seg.arg.toNat < arguments.length := by omega
    rw [if_pos harg, if_pos harg, hargs, getElem?_eq_getElem hlt]
    exact ⟨_, rfl, rfl⟩
  · rw [if_neg harg, if_neg harg]
    cases seg.string with
    | none => exact ⟨_, rfl, rfl⟩
    | some s => exact ⟨_, rfl, rfl⟩

/-- The two loops look at the same texts. -/
theorem segmentLength_eq (seg : MacroSegment) :
    segmentLength macroArg pseudo seg = (segmentPart macroArg pseudo seg).map fun s => s.bytes.length := by
  rw [segmentLength, segmentPart]
  split_ifs
  · rfl
  · cases seg.string with
    | none => rfl
    | some s => rfl

theorem replacementLength_eq (hargs : Holds macroArg arguments) (hsegs : ∀ seg ∈ replacement, seg.arg < arguments.length) :
    replacementLength macroArg pseudo replacement =
      some (BitVec.ofNat 32 (replacement.flatMap (segmentText arguments pseudo)).length) := by
  have hfold : ∀ n : ℕ, replacement.foldlM (fun (len : CInt) seg =>
      (segmentLength macroArg pseudo seg).map fun m => len + BitVec.ofNat 32 m) (BitVec.ofNat 32 n) =
        some (BitVec.ofNat 32 (n + (replacement.flatMap (segmentText arguments pseudo)).length)) := by
    induction replacement with
    | nil => exact fun n => rfl
    | cons seg replacement ih =>
      intro n
      obtain ⟨hseg, hsegs⟩ := forall_mem_cons.mp hsegs
      obtain ⟨part, hpart, hbytes⟩ := segmentPart_eq pseudo hargs hseg
      rw [foldlM_cons, segmentLength_eq, hpart, map_some, map_some, bind_eq_bind, bind_some,
        ← BitVec.ofNat_add, ih hsegs, flatMap_cons, length_append, hbytes, Nat.add_assoc]
  have hzero := hfold 0
  rwa [Nat.zero_add] at hzero

theorem strcpy_some {e : CString} (h : b.strcpy e = some b') : b'.allocated = b.allocated ∧ b'.written = b.written ++ e.bytes := by
  rw [SetBuffer.strcpy] at h
  split_ifs at h
  obtain rfl := some.inj h
  exact ⟨rfl, rfl⟩

/-- The second loop, where it does not leave the block. -/
theorem foldlM_strcpy (hargs : Holds macroArg arguments) (hsegs : ∀ seg ∈ replacement, seg.arg < arguments.length)
    (h : replacement.foldlM (fun b seg => (segmentPart macroArg pseudo seg).bind b.strcpy) b = some b') :
    b'.allocated = b.allocated ∧ b'.written = b.written ++ replacement.flatMap (segmentText arguments pseudo) := by
  induction replacement generalizing b with
  | nil =>
    obtain rfl := some.inj h
    exact ⟨rfl, (append_nil _).symm⟩
  | cons seg replacement ih =>
    obtain ⟨hseg, hsegs⟩ := forall_mem_cons.mp hsegs
    obtain ⟨part, hpart, hbytes⟩ := segmentPart_eq pseudo hargs hseg
    rw [foldlM_cons, hpart, bind_some] at h
    obtain ⟨b₁, hcopy, h⟩ := bind_eq_some_iff.mp h
    obtain ⟨halloc, hwritten⟩ := strcpy_some hcopy
    obtain ⟨halloc', hwritten'⟩ := ih hsegs h
    refine ⟨halloc'.trans halloc, ?_⟩
    rw [hwritten', hwritten, flatMap_cons, hbytes, append_assoc]

theorem foldlM_strcpy_exists (hargs : Holds macroArg arguments) (hsegs : ∀ seg ∈ replacement, seg.arg < arguments.length)
    (hroom : b.written.length + (replacement.flatMap (segmentText arguments pseudo)).length < b.allocated) :
    ∃ b', replacement.foldlM (fun b seg => (segmentPart macroArg pseudo seg).bind b.strcpy) b = some b' := by
  induction replacement generalizing b with
  | nil => exact ⟨b, rfl⟩
  | cons seg replacement ih =>
    obtain ⟨hseg, hsegs⟩ := forall_mem_cons.mp hsegs
    obtain ⟨part, hpart, hbytes⟩ := segmentPart_eq pseudo hargs hseg
    rw [flatMap_cons, length_append, ← hbytes] at hroom
    have hfits : b.written.length + part.bytes.length + 1 ≤ b.allocated := by omega
    obtain ⟨b', hrest⟩ := ih (b := ⟨b.allocated, b.written ++ part.bytes, by rw [length_append]; omega⟩) hsegs (by
      simp only [length_append]
      omega)
    refine ⟨b', ?_⟩
    rw [foldlM_cons, hpart, bind_some, SetBuffer.strcpy, dif_pos hfits]
    exact hrest

/-- A block for a text, where the length is in the range of an `int`. -/
theorem pushInputBuffer_exists {n : ℕ} (h : n + 1 < 2 ^ 31) :
    ∃ b, pushInputBuffer (BitVec.ofNat 32 n) = some b ∧ b.allocated = n + 1 ∧ b.written = [] := by
  have hsize : (BitVec.ofNat 32 n + 1).toInt = (n + 1 : ℕ) := by
    rw [show (1 : CInt) = BitVec.ofNat 32 1 from rfl, ← BitVec.ofNat_add, Block.toInt_count h]
  have hmalloc : clMalloc (BitVec.ofNat 32 n + 1) = some ⟨(BitVec.ofNat 32 n + 1).toInt.toNat, [], Nat.zero_le _⟩ :=
    if_neg (by omega)
  refine ⟨⟨(BitVec.ofNat 32 n + 1).toInt.toNat, [], Nat.zero_le _⟩, ?_, by rw [hsize]; rfl, rfl⟩
  rw [pushInputBuffer, hmalloc, bind_some]
  refine if_pos ?_
  rw [hsize]
  exact succ_pos _

/-- A block that is too short, where the length is out of the range. -/
theorem pushInputBuffer_lt {n : ℕ} (h : 2 ^ 31 ≤ n + 1) (hb : pushInputBuffer (BitVec.ofNat 32 n) = some b) :
    b.allocated < n + 1 ∧ b.written = [] := by
  obtain ⟨b₀, hmalloc, hb⟩ := bind_eq_some_iff.mp hb
  split_ifs at hb
  obtain rfl := some.inj hb
  rw [clMalloc] at hmalloc
  split_ifs at hmalloc with hneg
  obtain rfl := some.inj hmalloc
  have hsize : (BitVec.ofNat 32 n + 1).toInt < (n + 1 : ℕ) := by
    rw [show (1 : CInt) = BitVec.ofNat 32 1 from rfl, ← BitVec.ofNat_add]
    exact Block.toInt_count_lt h
  exact ⟨by simp only; omega, rfl⟩

/-- The block is filled to its end if the length is in the range of an `int`. -/
theorem fillBuffer_exists (hargs : Holds macroArg arguments) (hsegs : ∀ seg ∈ replacement, seg.arg < arguments.length)
    {text : List CqiByte} (htext : replacement.flatMap (segmentText arguments pseudo) = text) (h : text.length + 1 < 2 ^ 31) :
    ∃ b, fillBuffer macroArg pseudo replacement = some b ∧ b.written = text ++ [0] ∧ b.allocated = text.length + 1 := by
  obtain ⟨b₀, hpush, halloc₀, hwritten₀⟩ := pushInputBuffer_exists h
  obtain ⟨b₁, hcopy⟩ := foldlM_strcpy_exists (b := b₀) hargs hsegs (by
    rw [htext, hwritten₀, halloc₀, length_nil, Nat.zero_add]
    exact lt_succ_self _)
  obtain ⟨halloc₁, hwritten₁⟩ := foldlM_strcpy hargs hsegs hcopy
  rw [htext, hwritten₀, nil_append] at hwritten₁
  obtain ⟨b₂, hzero, halloc₂, hwritten₂⟩ := putChar_of_lt 0 (show b₁.written.length < b₁.allocated by
    rw [hwritten₁, halloc₁, halloc₀]
    exact lt_succ_self _)
  refine ⟨b₂, ?_, by rw [hwritten₂, hwritten₁], by rw [halloc₂, halloc₁, halloc₀]⟩
  refine bind_eq_some_iff.mpr ⟨_, replacementLength_eq hargs hsegs, bind_eq_some_iff.mpr ⟨b₀, ?_, ?_⟩⟩
  · rw [htext]
    exact hpush
  · exact bind_eq_some_iff.mpr ⟨b₁, hcopy, hzero⟩

/-- Out of this range the block is left. -/
theorem fillBuffer_none (hargs : Holds macroArg arguments) (hsegs : ∀ seg ∈ replacement, seg.arg < arguments.length)
    {text : List CqiByte} (htext : replacement.flatMap (segmentText arguments pseudo) = text) (h : 2 ^ 31 ≤ text.length + 1) :
    fillBuffer macroArg pseudo replacement = none := by
  rw [eq_none_iff_forall_ne_some]
  intro b hb
  obtain ⟨len, hlen, hb⟩ := bind_eq_some_iff.mp hb
  obtain rfl := some.inj ((replacementLength_eq hargs hsegs).symm.trans hlen)
  obtain ⟨b₀, hpush, hb⟩ := bind_eq_some_iff.mp hb
  obtain ⟨b₁, hcopy, hb⟩ := bind_eq_some_iff.mp hb
  rw [htext] at hpush
  obtain ⟨hlt, hwritten₀⟩ := pushInputBuffer_lt h hpush
  obtain ⟨halloc₁, hwritten₁⟩ := foldlM_strcpy hargs hsegs hcopy
  obtain ⟨halloc₂, hwritten₂⟩ := putChar_some hb
  have hwithin := b.within
  rw [hwritten₂, hwritten₁, halloc₂, halloc₁, hwritten₀, htext, nil_append, length_append, length_singleton] at hwithin
  omega

end Text

/-! ## The arguments -/

section Arguments

variable {st st' : MacroState} {tokens : ℕ → Token} {lexed : ℕ → MacroState → MacroState} {arguments : List CString} {r : ArgumentRead}

theorem pops_keeps (h : ReflTransGen Pops st st') : st'.macroArg = st.macroArg ∧ st'.pseudoArgCounter = st.pseudoArgCounter := by
  induction h with
  | refl => exact ⟨rfl, rfl⟩
  | tail _ hlast ih =>
    obtain ⟨buf, rest, -, -, hpop⟩ := hlast
    obtain ⟨rfl, -⟩ | ⟨temp, rest, -, -, rfl⟩ := popInputBuffer_eq_some hpop
    · exact ih
    · exact ih

theorem reads_keeps (h : ReflTransGen Reads st st') : st'.macroArg = st.macroArg ∧ st'.pseudoArgCounter = st.pseudoArgCounter := by
  induction h with
  | refl => exact ⟨rfl, rfl⟩
  | tail _ hlast ih =>
    obtain ⟨st₁, hpops, htake⟩ := reads_spec hlast
    have hkeep := pops_keeps hpops
    obtain ⟨-, c, input, -, rfl⟩ | ⟨buf, rest, hpos, -, rfl⟩ := htake
    · exact ⟨hkeep.1.trans ih.1, hkeep.2.trans ih.2⟩
    · exact ⟨hkeep.1.trans ih.1, hkeep.2.trans ih.2⟩

/-- The entries before an argument. -/
def HoldsUpTo (macroArg : List (Option CString)) (arguments : List CString) (args : ℕ) : Prop :=
  macroArg.length = 10 ∧ ∀ i, macroArg.getD i none = if i < args then arguments[i]? else none

theorem HoldsUpTo.set {macroArg : List (Option CString)} {args : ℕ} {s : CString} (h : HoldsUpTo macroArg arguments args)
    (hs : arguments[args]? = some s) (hargs : args < 10) : HoldsUpTo (macroArg.set args (some s)) arguments (args + 1) := by
  refine ⟨by rw [length_set, h.1], fun i => ?_⟩
  have hi := h.2 i
  rw [getD_eq_getElem?_getD] at hi ⊢
  rw [getElem?_set]
  by_cases heq : args = i
  · subst heq
    rw [if_pos rfl, if_pos (h.1.symm ▸ hargs), if_pos (lt_succ_self _), hs]
    rfl
  · rw [if_neg heq, hi]
    refine if_congr ?_ rfl rfl
    omega

/-- The tokens of the arguments, from one argument on. -/
theorem readArguments_tokens (htokens : ArgumentTokens tokens arguments) (hlength : arguments.length ≤ 10)
    (hlexed : ∀ k st, ReflTransGen Reads st (lexed k st)) {rounds args : ℕ} {stored : List ℕ} (hargs : args < arguments.length)
    (hst : HoldsUpTo st.macroArg arguments args) (h : readArguments tokens lexed rounds (2 * args) args stored st = some r) :
    r.error = none ∧ r.args = arguments.length ∧ HoldsUpTo r.state.macroArg arguments arguments.length := by
  induction rounds generalizing args stored st with
  | zero => cases h
  | succ rounds ih =>
    have harg := htokens.argument args _ (getElem?_eq_getElem hargs)
    obtain ⟨hnone, -⟩ | ⟨s, hsome, hround⟩ := readArguments_cases h
    · cases hnone.symm.trans harg
    obtain rfl := some.inj (hsome.symm.trans harg)
    have hkeep := fun k st => (reads_keeps (hlexed k st)).1
    have hstored : HoldsUpTo (lexed (2 * args + 1) { lexed (2 * args) st with
        macroArg := (lexed (2 * args) st).macroArg.set args (some arguments[args]) }).macroArg arguments (args + 1) := by
      rw [hkeep]
      simp only
      rw [hkeep]
      exact hst.set (getElem?_eq_getElem hargs) (hargs.trans_le hlength)
    obtain ⟨hmany, -⟩ | ⟨-, ⟨hcomma, rfl⟩ | ⟨hcomma, h⟩⟩ := hround
    · omega
    · obtain hlast | hmore := (succ_le_of_lt hargs).eq_or_lt
      · have hclose : tokens (2 * args + 1) = .close := by
          have hclose := htokens.close
          rwa [← hlast, show 2 * args.succ - 1 = 2 * args + 1 by omega] at hclose
        refine ⟨if_pos hclose, hlast, ?_⟩
        rw [← hlast]
        exact hstored
      · exact absurd (htokens.comma args hmore) hcomma
    · obtain hlast | hmore := (succ_le_of_lt hargs).eq_or_lt
      · have hclose := htokens.close
        rw [← hlast, show 2 * args.succ - 1 = 2 * args + 1 by omega] at hclose
        cases hclose.symm.trans hcomma
      · exact ih hmore hstored h

theorem beginCall_holds (st : MacroState) (arguments : List CString) : HoldsUpTo st.beginCall.macroArg arguments 0 := by
  refine ⟨rfl, fun i => ?_⟩
  rw [if_neg (Nat.not_lt_zero i)]
  change (replicate 10 none).getD i none = none
  rw [getD_eq_getElem?_getD, getElem?_replicate]
  split_ifs
  · rfl
  · rfl

/-- The loop over the arguments of a call reads them into the table. -/
theorem readArguments_arguments (htokens : ArgumentTokens tokens arguments) (hlength : arguments.length ≤ 10)
    (hlexed : ∀ k st, ReflTransGen Reads st (lexed k st)) {stored : List ℕ}
    (h : readArguments tokens lexed 11 0 0 stored st.beginCall = some r) :
    r.error = none ∧ r.args = arguments.length ∧ Holds r.state.macroArg arguments := by
  have hholds : ∀ {macroArg}, HoldsUpTo macroArg arguments arguments.length → Holds macroArg arguments := by
    intro macroArg hmacroArg i
    rw [hmacroArg.2]
    split_ifs with hi
    · rfl
    · exact (getElem?_eq_none (not_lt.mp hi)).symm
  cases arguments with
  | nil =>
    have hclose : tokens 0 = .close := htokens.close
    obtain ⟨-, rfl⟩ | ⟨s, hsome, -⟩ := readArguments_cases h
    · refine ⟨if_pos hclose, rfl, hholds ?_⟩
      rw [(reads_keeps (hlexed 0 st.beginCall)).1]
      exact beginCall_holds st []
    · rw [hclose] at hsome
      cases hsome
  | cons s arguments =>
    obtain ⟨herror, hargs, hst⟩ := readArguments_tokens htokens hlength hlexed (succ_pos _) (beginCall_holds st _) h
    exact ⟨herror, hargs, hholds hst⟩

end Arguments

/-! ## The definition -/

section Definition

variable {st st' : MacroState} {used used' : List CString} {name : CString} {args : ℕ} {d : MacroDefinition} {db : MacroDatabase}
  {e : Option DefinitionError}

/-- A definition leaves the macros of other names and of other numbers of arguments alone. -/
theorem definition_ofAnother (hwf : st.database.WF) (hd : OfAnother name args d) (h : Defines d st st') :
    definitionOf st'.database name args = definitionOf st.database name args := by
  obtain ⟨db, e, hrun, rfl⟩ := h
  obtain ⟨-, n, hcount, ⟨-, -, rfl⟩ | ⟨h0, -, found, hfind, -⟩⟩ := run_spec hwf hrun
  · rfl
  · rw [definitionOf_find, definitionOf_find, hfind, if_neg]
    intro hkey
    obtain ⟨rfl, rfl⟩ := Prod.mk.inj hkey
    rw [Int.toNat_of_nonneg h0] at hd
    exact hd ⟨rfl, hcount⟩

theorem definition_kept {x y : List CString × MacroState} (hwf : x.2.database.WF)
    (h : ReflTransGen (ProgramStep (OfAnother name args)) x y) :
    y.2.database.WF ∧ definitionOf y.2.database name args = definitionOf x.2.database name args := by
  induction h with
  | refl => exact ⟨hwf, rfl⟩
  | tail _ hlast ih =>
    obtain ⟨hwf', hsame⟩ := ih
    refine ⟨programStep_wf hlast hwf', ?_⟩
    rw [← hsame]
    cases hlast with
    | define hd hdefines => exact definition_ofAnother hwf' hd hdefines
    | @read _ st _ hreads => exact (lexerStep_same hwf' ⟨st.macroArg, st.pseudoArgCounter, .inl hreads⟩).2 name args
    | call => rfl
    | store => rfl
    | @expand _ st _ hexpands => exact (lexerStep_same hwf' ⟨st.macroArg, st.pseudoArgCounter, .inr hexpands⟩).2 name args

theorem programStep_mono {allowed : MacroDefinition → Prop} {x y : List CString × MacroState} (h : ReflTransGen (ProgramStep allowed) x y) :
    ReflTransGen (ProgramStep fun _ => True) x y := by
  refine ReflTransGen.mono (fun x y hstep => ?_) _ _ h
  cases hstep with
  | define _ hdefines => exact .define trivial hdefines
  | read hreads => exact .read hreads
  | call => exact .call ..
  | store => exact .store ..
  | expand hexpands => exact .expand hexpands

/-- An accepted definition is found, and its segments are the text. -/
theorem accepted_spec (hwf : st.database.WF) (h : d.run st.database = some (db, none))
    (hn : argumentCount d.args d.argstr = some (args : ℤ)) :
    args ≤ 10 ∧ ∃ argnames replacement, definitionOf db d.name args = some (argnames, replacement) ∧
      (∀ seg ∈ replacement, seg.arg < args) ∧
      ∀ arguments pseudo, replacement.flatMap (segmentText arguments pseudo) = substitute arguments pseudo d.definition.bytes := by
  obtain ⟨-, n, hcount, ⟨-, hinvalid, -⟩ | ⟨h0, h10, found, hfind, hfound⟩⟩ := run_spec hwf h
  · cases hinvalid
  obtain rfl := some.inj (hcount.symm.trans hn)
  obtain ⟨e', hfailed, -⟩ | ⟨-, p, rfl, -, -, hchunk⟩ := hfound
  · cases hfailed
  rw [Int.toNat_natCast] at hfind hchunk
  obtain ⟨segs, hsegs, hargs, htext⟩ := chunkDefinition_ok d.definition.noNull hchunk
  rw [nil_append] at hsegs
  refine ⟨by omega, p.argnames, p.replacement, ?_, hsegs ▸ hargs, hsegs ▸ htext⟩
  rw [definitionOf_find, hfind, if_pos rfl]
  rfl

theorem lookup_of_definition {argnames : List (Option CString)} {replacement : List MacroSegment}
    (h : definitionOf st.database name args = some (argnames, replacement)) :
    ∃ p, st.lookup name args = some p ∧ p.replacement = replacement := by
  obtain ⟨p, hp, heq⟩ := map_eq_some_iff.mp h
  exact ⟨p, hp, (Prod.mk.inj heq).2⟩

/-- Reading resets marks and sets none. -/
theorem pops_inactive (h : ReflTransGen Pops st st') (hwf : st.database.WF) {k : MacroKey} {p' : MacroEntry}
    (hp' : st'.database.table.find k = some p') (hactive : p'.active = true) :
    ∃ p, st.database.table.find k = some p ∧ p.active = true := by
  induction h generalizing p' with
  | refl => exact ⟨p', hp', hactive⟩
  | tail hpops hlast ih =>
    obtain ⟨buf, rest, -, -, hpop⟩ := hlast
    obtain ⟨rfl, -⟩ | ⟨temp, rest, -, -, rfl⟩ := popInputBuffer_eq_some hpop
    · exact ih hp' hactive
    · have hfind := setActive_find temp.macroId false (pops_same hpops hwf).1 k
      obtain ⟨p, hp, rfl⟩ := map_eq_some_iff.mp (hfind.symm.trans hp')
      rw [updated_active] at hactive
      split_ifs at hactive
      exact ih hp hactive

theorem reads_inactive (h : ReflTransGen Reads st st') (hwf : st.database.WF) {k : MacroKey} {p' : MacroEntry}
    (hp' : st'.database.table.find k = some p') (hactive : p'.active = true) :
    ∃ p, st.database.table.find k = some p ∧ p.active = true := by
  induction h generalizing p' with
  | refl => exact ⟨p', hp', hactive⟩
  | @tail st₁ st₂ hreads hlast ih =>
    have hrun : ReflTransGen LexerStep st st₁ := ReflTransGen.mono (fun a b hab => ⟨a.macroArg, a.pseudoArgCounter, .inl hab⟩) _ _ hreads
    have hwf₁ := (run_same hwf hrun).1
    obtain ⟨st₃, hpops, htake⟩ := reads_spec hlast
    have hfind : st₃.database.table.find k = some p' := by
      obtain ⟨-, c, input, -, rfl⟩ | ⟨buf, rest, hpos, -, rfl⟩ := htake
      · exact hp'
      · exact hp'
    obtain ⟨p, hp, hpactive⟩ := pops_inactive hpops hwf₁ hfind hactive
    exact ih hp hpactive

end Definition

/-! ## The pseudo arguments -/

theorem pseudoArg_injective : Function.Injective pseudoArg := by
  intro n m h
  have hbytes : ∀ n, (pseudoArg n).bytes = [95, 112, 115, 101, 117, 100, 111, 95] ++ (Decimal.text n.toNat).map UInt8.toBitVec := by
    intro n
    refine ofBuffer_terminated (fun hzero => ?_) []
    obtain hzero | hzero := mem_append.mp hzero
    · revert hzero
      decide
    · obtain ⟨b, hb, hzero⟩ := mem_map.mp hzero
      have hdigit := Decimal.isdigit_of_mem_text hb
      rw [show b = 0 from UInt8.toBitVec_inj.mp hzero] at hdigit
      revert hdigit
      decide
  have hdigits := append_cancel_left ((hbytes n).symm.trans ((congrArg CString.bytes h).trans (hbytes m)))
  have htext := (map_injective_iff.mpr fun b b' => UInt8.toBitVec_inj.mp) hdigits
  have hvalue := congrArg Decimal.value htext
  rw [Decimal.value_text, Decimal.value_text] at hvalue
  exact UInt32.toNat_inj.mp hvalue

/-- The pseudo arguments are numbered. -/
def Numbered (used : List CString) (st : MacroState) : Prop :=
  st.pseudoArgCounter = UInt32.ofNat used.length ∧ ∀ s, s ∈ used ↔ ∃ i < used.length, s = pseudoArg (UInt32.ofNat i)

section Pseudo

variable {st st' : MacroState} {used used' : List CString} {allowed : MacroDefinition → Prop}

theorem Numbered.call (h : Numbered used st) : Numbered (pseudoArg st.pseudoArgCounter :: used) st.beginCall := by
  refine ⟨?_, fun s => ?_⟩
  · rw [length_cons, UInt32.ofNat_add, ← h.1]
    rfl
  · rw [mem_cons, h.2, length_cons, h.1]
    constructor
    · rintro (rfl | ⟨i, hi, rfl⟩)
      · exact ⟨used.length, lt_succ_self _, rfl⟩
      · exact ⟨i, hi.trans (lt_succ_self _), rfl⟩
    · rintro ⟨i, hi, rfl⟩
      obtain hlt | rfl := Nat.lt_succ_iff_lt_or_eq.mp hi
      · exact .inr ⟨i, hlt, rfl⟩
      · exact .inl rfl

theorem pops_numbered (h : ReflTransGen Reads st st') (hst : Numbered used st) : Numbered used st' :=
  ⟨(reads_keeps h).2.trans hst.1, hst.2⟩

theorem reachable_numbered (h : Reachable used st) : Numbered used st := by
  obtain ⟨size, hsize, input, hrun⟩ := h
  have hall : ∀ x : List CString × MacroState, ReflTransGen (ProgramStep fun _ => True) ([], initialState size hsize input) x →
      Numbered x.1 x.2 := by
    intro x hx
    induction hx with
    | refl => exact ⟨rfl, fun s => by simp⟩
    | tail _ hlast ih =>
      cases hlast with
      | define _ hdefines =>
        obtain ⟨db, e, -, rfl⟩ := hdefines
        exact ih
      | read hreads => exact pops_numbered (.single hreads) ih
      | call => exact ih.call
      | store => exact ih
      | expand hexpands =>
        obtain ⟨name, args, pseudo, h⟩ := hexpands
        obtain ⟨p, b, -, -, -, rfl⟩ := substituteCall_eq_some h
        exact ih
  exact hall _ hrun

/-- The pseudo argument of a call is new as long as its number is in 32 bits. -/
theorem pseudoArg_new_iff (h : Reachable used st) : pseudoArg st.pseudoArgCounter ∉ used ↔ used.length < 2 ^ 32 := by
  obtain ⟨hcounter, hused⟩ := reachable_numbered h
  rw [hused, hcounter]
  constructor
  · intro hnew
    by_contra hle
    refine hnew ⟨used.length - 2 ^ 32, by omega, congrArg pseudoArg ?_⟩
    apply UInt32.toNat_inj.mp
    rw [UInt32.toNat_ofNat', UInt32.toNat_ofNat']
    omega
  · rintro hlt ⟨i, hi, heq⟩
    have hnum := congrArg UInt32.toNat (pseudoArg_injective heq)
    rw [UInt32.toNat_ofNat', UInt32.toNat_ofNat'] at hnum
    omega

end Pseudo

/-! ## Calls -/

section Call

variable {st : MacroState} {used : List CString} {name : CString} {tokens : ℕ → Token} {lexed : ℕ → MacroState → MacroState}
  {arguments : List CString} {argnames : List (Option CString)} {replacement : List MacroSegment} {text : List CqiByte}

theorem readArguments_inactive {r : ArgumentRead} {rounds k args : ℕ} {stored : List ℕ} (hwf : st.database.WF)
    (hlexed : ∀ k st, ReflTransGen Reads st (lexed k st)) (h : readArguments tokens lexed rounds k args stored st = some r)
    {key : MacroKey} {p' : MacroEntry} (hp' : r.state.database.table.find key = some p') (hactive : p'.active = true) :
    ∃ p, st.database.table.find key = some p ∧ p.active = true := by
  refine (readArguments_keeps (P := fun st' => st'.database.WF ∧ ∀ p', st'.database.table.find key = some p' → p'.active = true →
    ∃ p, st.database.table.find key = some p ∧ p.active = true) ?_ ?_ ⟨hwf, fun p hp hactive => ⟨p, hp, hactive⟩⟩ h).2 p' hp' hactive
  · intro k st' hst'
    obtain ⟨hwf', hkept⟩ := hst'
    have hrun : ReflTransGen LexerStep st' (lexed k st') :=
      ReflTransGen.mono (fun a b hab => ⟨a.macroArg, a.pseudoArgCounter, .inl hab⟩) _ _ (hlexed k st')
    refine ⟨(run_same hwf' hrun).1, fun p' hp' hactive => ?_⟩
    obtain ⟨p, hp, hpactive⟩ := reads_inactive (hlexed k st') hwf' hp' hactive
    exact hkept p hp hpactive
  · exact fun _ _ _ hst' => hst'

theorem zero_notMem_text {pseudo : CString} (replacement : List MacroSegment) :
    0 ∉ replacement.flatMap (segmentText arguments pseudo) := by
  intro hzero
  obtain ⟨seg, -, hzero⟩ := mem_flatMap.mp hzero
  rw [segmentText] at hzero
  split_ifs at hzero
  · cases harg : arguments[seg.arg.toNat]? with
    | none =>
      rw [harg] at hzero
      cases hzero
    | some s =>
      rw [harg] at hzero
      exact s.noNull hzero
  · cases hstring : seg.string with
    | none =>
      rw [hstring] at hzero
      exact pseudo.noNull hzero
    | some s =>
      rw [hstring] at hzero
      exact s.noNull hzero

/-- A call with as many arguments as the macro has. -/
theorem expandMacro_spec (hwf : st.database.WF) (hlength : arguments.length ≤ 10)
    (hdefinition : definitionOf st.database name arguments.length = some (argnames, replacement))
    (hsegs : ∀ seg ∈ replacement, seg.arg < arguments.length)
    (htext : replacement.flatMap (segmentText arguments (pseudoArg st.pseudoArgCounter)) = text)
    (htokens : ArgumentTokens tokens arguments) (hlexed : ∀ k st, ReflTransGen Reads st (lexed k st)) :
    ∃ call, expandMacro st name tokens lexed = some call ∧
      (((∃ p, st.lookup name arguments.length = some p ∧ p.active = true) ∧ ∃ st', call.result = some (st', some .recursion)) ∨
        ((text.length + 1 < 2 ^ 31 → ∃ st', call.result = some (st', none) ∧ Pushes st st' text) ∧
          (2 ^ 31 ≤ text.length + 1 → call.result = none))) := by
  have hread : ∃ r, readArguments tokens lexed 11 0 0 [] st.beginCall = some r := readArguments_isSome rfl (Nat.zero_le _) _
  obtain ⟨r, hread⟩ := hread
  obtain ⟨herror, hargs, hholds⟩ := readArguments_arguments htokens hlength hlexed hread
  obtain ⟨call, hcall, -, -, -, hresult⟩ := expandMacro_ok name hread herror
  refine ⟨call, hcall, ?_⟩
  have hsteps : ∀ k st, ReflTransGen LexerStep st (lexed k st) := fun k st =>
    ReflTransGen.mono (fun a b hab => ⟨a.macroArg, a.pseudoArgCounter, .inl hab⟩) _ _ (hlexed k st)
  -- the macro when the arguments have been read
  have hbegun : st.beginCall.database.WF := hwf
  obtain ⟨hwf', hsame⟩ := readArguments_same hbegun hsteps hread
  obtain ⟨p, hlookup, hreplacement⟩ := lookup_of_definition ((hsame name arguments.length).trans hdefinition)
  rw [hresult, hargs, substituteCall, hlookup]
  simp only
  by_cases hactive : p.active = true
  · rw [if_pos hactive]
    have hfind : r.state.database.table.find (name, arguments.length) = some p := hlookup
    exact .inl ⟨readArguments_inactive hbegun hlexed hread hfind hactive, r.state, rfl⟩
  · rw [if_neg hactive, hreplacement]
    refine .inr ⟨fun hlt => ?_, fun hle => ?_⟩
    · obtain ⟨b, hfill, hwritten, halloc⟩ := fillBuffer_exists hholds hsegs htext hlt
      rw [hfill, map_some]
      have hupTo : UpToArguments st st.beginCall := ⟨_, _, rfl⟩
      obtain ⟨st₂, hrun, macroArg, pseudoArgCounter, hst₂⟩ := readArguments_run hsteps hupTo hread
      have hlist : r.state.inputBufferList = st₂.inputBufferList := by rw [hst₂]
      have hdata : (CString.ofBuffer b.written).bytes = text := by
        rw [hwritten]
        exact ofBuffer_terminated (htext ▸ zero_notMem_text replacement) []
      exact ⟨_, rfl, st₂, _, hrun, congrArg (List.cons _) hlist, hdata, halloc, rfl⟩
    · rw [fillBuffer_none hholds hsegs htext hle, map_none]

end Call

/-- The text that refers to the first argument again and again. -/
def references : ℕ → List CqiByte
  | 0 => []
  | n + 1 => 36 :: 48 :: references n

theorem length_substitute_references (n : ℕ) (argument pseudo : CString) :
    (substitute [argument] pseudo (references n)).length = n * argument.bytes.length := by
  induction n with
  | zero => rw [references, substitute, length_nil, Nat.zero_mul]
  | succ n ih =>
    have hstep : substitute [argument] pseudo (references (n + 1)) = argument.bytes ++ substitute [argument] pseudo (references n) := by
      rw [references, substitute, if_neg (by decide), if_pos (by decide)]
      rfl
    rw [hstep, length_append, ih, succ_mul, Nat.add_comm]

def repeatMacro : MacroDefinition where
  name := CString.ofBuffer [109, 0]
  args := 1
  argstr := none
  definition := CString.ofBuffer (references 16 ++ [0])

/-- The tokens of a call with one argument. -/
def oneArgument (s : CString) (k : ℕ) : Token := if k = 0 then .id s else .close

theorem oneArgument_tokens (s : CString) : ArgumentTokens (oneArgument s) [s] := by
  refine ⟨fun i t h => ?_, fun i hi => ?_, rfl⟩
  · cases i with
    | zero => exact h
    | succ i => cases h
  · rw [length_singleton] at hi
    omega

/-- The state after its definition. -/
def repeatState (db : MacroDatabase) : MacroState := { initialState 1 Nat.one_pos [] with database := db }

/-- The length overflows. -/
theorem repeatMacro_none {n : ℕ} (hn : 2 ^ 31 ≤ 16 * n + 1) {db : MacroDatabase}
    (hdb : repeatMacro.run (initialState 1 Nat.one_pos []).database = some (db, none)) :
    ∃ call, expandMacro (repeatState db) repeatMacro.name (oneArgument (letters n)) (fun _ st => st) = some call ∧ call.result = none := by
  have hwf₀ := initialState_wf 1 Nat.one_pos []
  have hcount : argumentCount repeatMacro.args repeatMacro.argstr = some ([letters n].length : ℤ) := rfl
  obtain ⟨hlength, argnames, replacement, hdefinition, hsegs, htext⟩ := accepted_spec hwf₀ hdb hcount
  have hdefines : Defines repeatMacro (initialState 1 Nat.one_pos []) (repeatState db) := ⟨db, none, hdb, rfl⟩
  have hwf := defines_wf hwf₀ hdefines
  obtain ⟨call, hcall, hresult⟩ := expandMacro_spec hwf hlength hdefinition hsegs (htext [letters n] _) (oneArgument_tokens (letters n))
    fun (_ : ℕ) _ => .refl
  refine ⟨call, hcall, ?_⟩
  obtain ⟨⟨p, hp, hactive⟩, -⟩ | ⟨-, hnone⟩ := hresult
  · have hnil : (initialState 1 Nat.one_pos []).database.table.entries = [] := (makeMacroHash_wf 1 Nat.one_pos).2
    have hinactive := defines_inactive hwf₀ hdefines fun q hq => by
      rw [hnil] at hq
      cases hq
    have hfind : (repeatState db).database.table.find (repeatMacro.name, 1) = some p := hp
    rw [hinactive p ((find_eq_some_iff hwf.table).mp hfind).1] at hactive
    cases hactive
  · refine hnone ?_
    rw [show repeatMacro.definition.bytes = references 16 from rfl, length_substitute_references]
    rwa [letters, length_replicate]

end CWB.Macros
