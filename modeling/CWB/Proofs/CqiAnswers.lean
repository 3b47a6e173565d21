import CWB.Proofs.CqiRequests

/-! The requests of the group `CQI_CQP`, and the interpreter: a request that has been read is
answered under its condition, and under no other. -/

namespace CWB.Cqi

open Option List

variable {env : CqiEnv} {st : CqiServer}

/-! ## The group `CQI_CQP` -/

theorem cqiFindCorpus_of_none {name : CorpusName} (h : findCorpus env st.store name = none) :
    cqiFindCorpus env name st = (none, { st with cqiErrno := .cqpNoSuchCorpus }) := by
  simp only [cqiFindCorpus, h]

theorem cqiFindCorpus_of_some {name : CorpusName} {cl : Entry} (h : findCorpus env st.store name = some cl) :
    cqiFindCorpus env name st = (some cl, { st with cqiErrno := .statusOk }) := by
  simp only [cqiFindCorpus, h]

/-- A handler that sends an error. -/
theorem answers_of_error (w : CqiWord) (st' : CqiServer) {handler : Handler} {ok : Prop}
    (hrun : handler st = cqiCommand w st') (hw : w.isError = true) (hok : ¬ok) : handler.Answers st ok := by
  rw [answers_congr hrun, answers_cqiCommand hw]
  exact hok

theorem stringList_length {reply : List CqiValue} {n : CInt} {elems : List CString} (h : OneReply reply)
    (hreply : reply = sentWord .dataStringList :: .int n :: elems.map .string) : n.toInt = elems.length := by
  cases h with
  | stringList hlen =>
    obtain ⟨-, htail⟩ := List.cons.inj hreply
    obtain ⟨hn, hmap⟩ := List.cons.inj htail
    have hlength := congrArg List.length hmap
    rw [length_map, length_map] at hlength
    rw [← CqiValue.int.inj hn, ← hlength]
    exact hlen
  | bool | int | intInt | intIntIntInt | intList | intTable =>
    obtain ⟨hword, -⟩ := List.cons.inj hreply
    exact absurd (CqiValue.word.inj hword) (by decide)
  | _ =>
    obtain ⟨-, htail⟩ := List.cons.inj hreply
    cases htail

theorem answers_cqpListSubcorpora {corpus : CString} :
    (doCqiCqpListSubcorpora env corpus).Answers st (Succeeds env st .cqpListSubcorpora [.string corpus]) ↔
      Safe env st .cqpListSubcorpora [.string corpus] := by
  cases hok : checkCorpusName env (nameOf corpus) with
  | false =>
    have hrun : ∃ st', doCqiCqpListSubcorpora env corpus st = cqiCommand .syntaxError st' := by
      simp only [doCqiCqpListSubcorpora, hok, checked, cqiErrnoCommand]
      exact ⟨_, rfl⟩
    obtain ⟨st', hrun⟩ := hrun
    refine ⟨fun _ h => absurd (hok.symm.trans h) (by decide), fun _ => ?_⟩
    exact answers_of_error .syntaxError st' hrun rfl fun hs => absurd (hok.symm.trans hs.1) (by decide)
  | true =>
    cases hcl : findCorpus env st.store (nameOf corpus) with
    | none =>
      -- the check of the name has overwritten the error of the look-up
      have hrun : ∃ st', doCqiCqpListSubcorpora env corpus st = cqiCommand .statusOk st' := by
        simp only [doCqiCqpListSubcorpora, hok, checked, cqiFindCorpus_of_none hcl, cqiErrnoCommand]
        exact ⟨_, rfl⟩
      obtain ⟨st', hrun⟩ := hrun
      rw [answers_congr hrun, answers_statusOk]
      simp [succeeds_cqpListSubcorpora, safe_cqpListSubcorpora, hok, hcl]
    | some mother =>
      have hrun : ∃ st', doCqiCqpListSubcorpora env corpus st =
          some (sentWord .dataStringList :: .int (BitVec.ofNat 32 (subcorpora st mother).length) ::
            ((subcorpora st mother).map fun cl => CString.ofBuffer (cl.name.map fun c => BitVec.ofNat 8 c.toNat)).map
              .string, st') := by
        simp only [doCqiCqpListSubcorpora, hok, checked, cqiFindCorpus_of_some hcl, List.map_map]
        exact ⟨_, rfl⟩
      obtain ⟨st', hrun⟩ := hrun
      have hsafe : Safe env st .cqpListSubcorpora [.string corpus] ↔ (subcorpora st mother).length < 2 ^ 31 := by
        simp [safe_cqpListSubcorpora, hok, hcl]
      rw [hsafe]
      refine ⟨?_, fun hlen => ?_⟩
      · rintro ⟨reply, st'', heq, hone, -⟩
        rw [hrun] at heq
        obtain ⟨rfl, -⟩ := Prod.mk.inj (some.inj heq)
        have hlen := stringList_length hone rfl
        rw [length_map] at hlen
        have hlt : (BitVec.ofNat 32 (subcorpora st mother).length).toInt < 2 ^ 31 := BitVec.toInt_lt
        omega
      · refine (answers_data hrun (.stringList ?_) not_isErrorReply_cons).mpr ⟨hok, by simp [hcl]⟩
        rw [length_map]
        exact Block.toInt_count hlen

theorem answers_cqpQuery {mother child query : CString} :
    (doCqiCqpQuery env mother child query).Answers st
        (Succeeds env st .cqpQuery [.string mother, .string child, .string query]) ↔
      Safe env st .cqpQuery [.string mother, .string child, .string query] := by
  cases hsplit : splitSubcorpusSpec env (nameOf mother) with
  | none =>
    refine ⟨fun _ _ c sc cl h => absurd (hsplit.symm.trans h) (by simp), fun _ => ?_⟩
    refine answers_of_error .syntaxError (checked false st) ?_ rfl fun hs => hs.1 hsplit
    simp only [doCqiCqpQuery, hsplit]
    rfl
  | some names =>
    obtain ⟨c, sc⟩ := names
    cases hok : checkSubcorpusName env (nameOf child) with
    | false =>
      refine ⟨fun _ h => absurd (hok.symm.trans h) (by decide), fun _ => ?_⟩
      refine answers_of_error .syntaxError (checked false st) ?_ rfl fun hs => absurd (hok.symm.trans hs.2.1) (by decide)
      simp only [doCqiCqpQuery, hsplit, hok]
      rfl
    | true =>
      have hstore : (checked true st).store = st.store := rfl
      cases hcl : findCorpus env st.store (nameOf mother) with
      | none =>
        refine ⟨fun _ _ c sc cl _ h => absurd (hcl.symm.trans h) (by simp), fun _ => ?_⟩
        rw [← hstore] at hcl
        refine answers_of_error .cqpNoSuchCorpus { checked true st with cqiErrno := .cqpNoSuchCorpus } ?_ rfl ?_
        · simp only [doCqiCqpQuery, hsplit, hok, cqiFindCorpus_of_none hcl]
          rfl
        · simp [succeeds_cqpQuery, ← hstore, hcl]
      | some cl =>
        have hsucceeds : Succeeds env st .cqpQuery [.string mother, .string child, .string query] ↔
            (queryResult env st cl child query).status = 0 ∧ (queryResult env st cl child query).rest = [] ∧
              (queryResult env st cl child query).carriedOut = true := by
          simp [succeeds_cqpQuery, hsplit, hok, hcl]
        have hsafe : Safe env st .cqpQuery [.string mother, .string child, .string query] ↔
            ((queryResult env st cl child query).status = 0 → (queryResult env st cl child query).rest = [] →
              ((queryResult env st cl child query).carriedOut = true ↔
                findCorpus env (queryResult env st cl child query).store (combineSubcorpusSpec c (nameOf child)) ≠ none)) := by
          simp [safe_cqpQuery, hsplit, hok, hcl]
        have hparse : cqpParseString env { st.store with current := some cl.id } (cqpQuery (nameOf child) (nameOf query)) =
            (decide ((queryResult env st cl child query).status = 0 ∧ (queryResult env st cl child query).rest = []),
              (queryResult env st cl child query).store) := by
          have hne : cqpQuery (nameOf child) (nameOf query) ≠ [] := by simp [cqpQuery]
          rw [cqpParseString, if_neg hne]
          rfl
        rw [← hstore] at hcl hparse
        rw [hsucceeds, hsafe]
        generalize queryResult env st cl child query = result at hparse ⊢
        by_cases hparsed : result.status = 0 ∧ result.rest = []
        · rw [decide_eq_true hparsed] at hparse
          cases hfound : findCorpus env result.store (combineSubcorpusSpec c (nameOf child)) with
          | none =>
            have hrun : ∃ st', doCqiCqpQuery env mother child query st = cqiCommand .cqpGeneral st' := by
              simp only [doCqiCqpQuery, hsplit, hok, cqiFindCorpus, hcl, hparse, hfound, Bool.not_true,
                Bool.false_eq_true, if_false]
              exact ⟨_, rfl⟩
            obtain ⟨st', hrun⟩ := hrun
            rw [answers_congr hrun, answers_cqiCommand rfl]
            simp [hparsed.1, hparsed.2]
          | some found =>
            have hrun : ∃ st', doCqiCqpQuery env mother child query st = cqiCommand .statusOk st' := by
              simp only [doCqiCqpQuery, hsplit, hok, cqiFindCorpus, hcl, hparse, hfound, Bool.not_true,
                Bool.false_eq_true, if_false]
              exact ⟨_, rfl⟩
            obtain ⟨st', hrun⟩ := hrun
            rw [answers_congr hrun, answers_statusOk]
            simp [hparsed.1, hparsed.2]
        · rw [decide_eq_false hparsed] at hparse
          have hrun : ∃ st', doCqiCqpQuery env mother child query st = cqiCommand .cqpGeneral st' := by
            simp only [doCqiCqpQuery, hsplit, hok, cqiFindCorpus_of_some hcl, hparse, Bool.not_true, Bool.false_eq_true,
              if_false, Bool.not_false, if_true]
            exact ⟨_, rfl⟩
          obtain ⟨st', hrun⟩ := hrun
          refine ⟨fun _ h0 hnil => absurd ⟨h0, hnil⟩ hparsed, fun _ => ?_⟩
          exact answers_of_error .cqpGeneral st' hrun rfl fun hs => hparsed ⟨hs.1, hs.2.1⟩

variable {subcorpus : CString}

theorem answers_cqpSubcorpusSize :
    (doCqiCqpSubcorpusSize env subcorpus).Answers st
      (findCorpus env st.store (nameOf subcorpus) ≠ none) := by
  cases hcl : findCorpus env st.store (nameOf subcorpus) with
  | none =>
    refine answers_of_error .cqpNoSuchCorpus { st with cqiErrno := .cqpNoSuchCorpus } ?_ rfl fun hok => hok rfl
    simp only [doCqiCqpSubcorpusSize, cqiFindCorpus_of_none hcl, cqiErrnoCommand]
  | some cl =>
    have hrun : doCqiCqpSubcorpusSize env subcorpus st =
        cqiDataInt cl.data.range.length { st with cqiErrno := .statusOk } := by
      simp only [doCqiCqpSubcorpusSize, cqiFindCorpus_of_some hcl]
    rw [answers_congr hrun, answers_cqiDataInt]
    simp

theorem answers_cqpSubcorpusHasField {field : CqiByte} :
    (doCqiCqpSubcorpusHasField env subcorpus field).Answers st
      (findCorpus env st.store (nameOf subcorpus) ≠ none ∧ cqiField field ≠ none) := by
  cases hcl : findCorpus env st.store (nameOf subcorpus) with
  | none =>
    refine answers_of_error .cqpNoSuchCorpus { st with cqiErrno := .cqpNoSuchCorpus } ?_ rfl fun hok => hok.1 rfl
    simp only [doCqiCqpSubcorpusHasField, cqiFindCorpus_of_none hcl, cqiErrnoCommand]
  | some cl =>
    cases hfield : cqiField field with
    | none =>
      refine answers_of_error .cqpInvalidField { st with cqiErrno := .statusOk } ?_ rfl fun hok => hok.2 rfl
      simp only [doCqiCqpSubcorpusHasField, cqiFindCorpus_of_some hcl, hfield]
    | some anchor =>
      have hrun : ∃ b, doCqiCqpSubcorpusHasField env subcorpus field st =
          cqiDataBool b { st with cqiErrno := .statusOk } := by
        simp only [doCqiCqpSubcorpusHasField, cqiFindCorpus_of_some hcl, hfield]
        cases anchor <;> exact ⟨_, rfl⟩
      obtain ⟨b, hrun⟩ := hrun
      rw [answers_congr hrun, answers_cqiDataBool]
      simp

theorem toInt_sub_add_one {first last : CInt} (hfirst : 0 ≤ first.toInt) (hle : first.toInt ≤ last.toInt)
    (hlast : last.toInt < 2 ^ 31 - 1) : (last - first + 1).toInt = last.toInt - first.toInt + 1 := by
  rw [BitVec.toInt_add, BitVec.toInt_sub]
  have h1 : (1 : CInt).toInt = 1 := by decide
  rw [h1, Int.bmod_add_bmod, Int.bmod_eq_of_le (by omega) (by omega)]

theorem answers_cqpDumpSubcorpus {field : CqiByte} {first last : CInt} :
    (doCqiCqpDumpSubcorpus env subcorpus field first last).Answers st
      (∃ cl, findCorpus env st.store (nameOf subcorpus) = some cl ∧ cqiField field ≠ none ∧ 0 ≤ first.toInt ∧
        first.toInt ≤ last.toInt ∧ last.toInt < cl.data.range.length) := by
  cases hcl : findCorpus env st.store (nameOf subcorpus) with
  | none =>
    refine answers_of_error .cqpNoSuchCorpus { st with cqiErrno := .cqpNoSuchCorpus } ?_ rfl (by simp)
    simp only [doCqiCqpDumpSubcorpus, cqiFindCorpus_of_none hcl, cqiErrnoCommand]
  | some cl =>
    cases hfield : cqiField field with
    | none =>
      refine answers_of_error .cqpInvalidField { st with cqiErrno := .statusOk } ?_ rfl (by simp)
      simp only [doCqiCqpDumpSubcorpus, cqiFindCorpus_of_some hcl, hfield]
    | some anchor =>
      by_cases hrange : last.toInt < first.toInt ∨ first.toInt < 0 ∨ last.toInt ≥ cl.data.range.length
      · refine answers_of_error .cqpOutOfRange { st with cqiErrno := .statusOk } ?_ rfl ?_
        · simp only [doCqiCqpDumpSubcorpus, cqiFindCorpus_of_some hcl, hfield, if_pos hrange]
        · simp only [some.injEq]
          rintro ⟨cl', rfl, -, h0, hle, hlt⟩
          omega
      · have hrun : doCqiCqpDumpSubcorpus env subcorpus field first last st =
            some (sentWord .dataIntList :: .int (last - first + 1) ::
              dumpLines (fieldVector cl anchor) first.toInt last.toInt, { st with cqiErrno := .statusOk }) := by
          simp only [doCqiCqpDumpSubcorpus, cqiFindCorpus_of_some hcl, hfield, if_neg hrange]
        have hsize := cl.data.size_lt
        have hlines : dumpLines (fieldVector cl anchor) first.toInt last.toInt =
            ((range (last.toInt - first.toInt + 1).toNat).map fun i =>
              BitVec.ofInt 32 (fieldVector cl anchor (first.toInt.toNat + i))).map .int := by
          rw [List.map_map]
          rfl
        rw [hlines] at hrun
        refine (answers_data hrun (.intList ?_) not_isErrorReply_cons).mpr ?_
        · rw [toInt_sub_add_one (by omega) (by omega) (by omega), length_map, length_range]
          omega
        · refine ⟨cl, rfl, by simp, ?_⟩
          omega

theorem answers_cqpDropSubcorpus :
    (doCqiCqpDropSubcorpus env subcorpus).Answers st
      ((∃ corpus sub, splitSubcorpusSpec env (nameOf subcorpus) = some (corpus, some sub)) ∧ findCorpus env st.store
        (nameOf subcorpus) ≠ none) := by
  cases hsplit : splitSubcorpusSpec env (nameOf subcorpus) with
  | none =>
    refine answers_of_error .syntaxError (checked false st) ?_ rfl (by simp)
    simp only [doCqiCqpDropSubcorpus, hsplit]
    rfl
  | some names =>
    obtain ⟨corpus, _ | sub⟩ := names
    · refine answers_of_error .syntaxError (checked true st) ?_ rfl (by simp)
      simp only [doCqiCqpDropSubcorpus, hsplit]
    · cases hcl : findCorpus env (checked true st).store (nameOf subcorpus) with
      | none =>
        refine answers_of_error .cqpNoSuchCorpus { checked true st with cqiErrno := .cqpNoSuchCorpus } ?_ rfl ?_
        · simp only [doCqiCqpDropSubcorpus, hsplit, cqiFindCorpus_of_none hcl]
          rfl
        · exact fun hs => hs.2 hcl
      | some cl =>
        have hrun : ∃ st', doCqiCqpDropSubcorpus env subcorpus st = cqiCommand .statusOk st' := by
          simp only [doCqiCqpDropSubcorpus, hsplit, cqiFindCorpus_of_some hcl]
          exact ⟨_, rfl⟩
        obtain ⟨st', hrun⟩ := hrun
        rw [answers_congr hrun, answers_statusOk]
        exact ⟨⟨corpus, sub, rfl⟩, fun hnone => absurd (hcl.symm.trans hnone) (by simp)⟩

theorem answers_cqiIntTable {table : CList GroupCell} {columns : List (GroupCell → CInt)} {succeeds : Prop}
    (hcolumns : columns.length < 2 ^ 31) : (cqiIntTable table columns).Answers st succeeds ↔ succeeds := by
  have hcells : (table.elems.flatMap fun cell => columns.map fun column => CqiValue.int (column cell)) =
      (table.elems.flatMap fun cell => columns.map fun column => column cell).map .int := by
    simp only [map_flatMap, List.map_map]
    rfl
  have hrun : cqiIntTable table columns st =
      some (sentWord .dataIntTable :: .int (BitVec.ofNat 32 table.elems.length) :: .int (BitVec.ofNat 32 columns.length) ::
        (table.elems.flatMap fun cell => columns.map fun column => column cell).map .int, st) := by
    simp only [cqiIntTable, hcells]
  apply answers_data hrun _ not_isErrorReply_cons
  apply OneReply.intTable
  rw [Block.toInt_count table.length_lt, Block.toInt_count hcolumns]
  simp [length_flatMap]

theorem answers_cqpFdist1 {cutoff : CInt} {field : CqiByte} {att : CString} :
    (doCqiCqpFdist1 env subcorpus cutoff field att).Answers st
      (∃ cl field', findCorpus env st.store (nameOf subcorpus) = some cl ∧ cqiField field = some field' ∧
        env.computeGrouping cl none (field', att) (groupCutoff cutoff) ≠ none) := by
  cases hcl : findCorpus env st.store (nameOf subcorpus) with
  | none =>
    refine answers_of_error .cqpNoSuchCorpus { st with cqiErrno := .cqpNoSuchCorpus } ?_ rfl (by simp)
    simp only [doCqiCqpFdist1, cqiFindCorpus_of_none hcl, cqiErrnoCommand]
  | some cl =>
    cases hfield : cqiField field with
    | none =>
      refine answers_of_error .cqpInvalidField { st with cqiErrno := .statusOk } ?_ rfl (by simp)
      simp only [doCqiCqpFdist1, cqiFindCorpus_of_some hcl, hfield]
    | some anchor =>
      cases htable : env.computeGrouping cl none (anchor, att) (groupCutoff cutoff) with
      | none =>
        refine answers_of_error .cqpGeneral { st with cqiErrno := .statusOk } ?_ rfl
          (by simp [htable])
        simp only [doCqiCqpFdist1, cqiFindCorpus_of_some hcl, hfield, htable]
      | some table =>
        have hrun : doCqiCqpFdist1 env subcorpus cutoff field att st =
            cqiIntTable table [GroupCell.t, GroupCell.freq] { st with cqiErrno := .statusOk } := by
          simp only [doCqiCqpFdist1, cqiFindCorpus_of_some hcl, hfield, htable]
        rw [answers_congr hrun, answers_cqiIntTable (by simp)]
        simp [htable]

theorem answers_cqpFdist2 {cutoff : CInt} {field₁ field₂ : CqiByte} {att₁ att₂ : CString} :
    (doCqiCqpFdist2 env subcorpus cutoff field₁ att₁ field₂ att₂).Answers st
      (∃ cl field₁' field₂', findCorpus env st.store (nameOf subcorpus) = some cl ∧ cqiField field₁ = some field₁' ∧
        cqiField field₂ = some field₂' ∧ env.computeGrouping cl (some (field₁', att₁)) (field₂', att₂) (groupCutoff
        cutoff) ≠ none) := by
  cases hcl : findCorpus env st.store (nameOf subcorpus) with
  | none =>
    refine answers_of_error .cqpNoSuchCorpus { st with cqiErrno := .cqpNoSuchCorpus } ?_ rfl (by simp)
    simp only [doCqiCqpFdist2, cqiFindCorpus_of_none hcl, cqiErrnoCommand]
  | some cl =>
    by_cases hfields : cqiField field₁ = none ∨ cqiField field₂ = none
    · refine answers_of_error .cqpInvalidField { st with cqiErrno := .statusOk } ?_ rfl ?_
      · rcases hfields with h | h
        · simp only [doCqiCqpFdist2, cqiFindCorpus_of_some hcl, h]
        · simp only [doCqiCqpFdist2, cqiFindCorpus_of_some hcl, h]
          cases cqiField field₁ <;> rfl
      · rintro ⟨cl', a₁, a₂, -, h₁, h₂, -⟩
        rcases hfields with h | h
        · exact absurd (h.symm.trans h₁) (by simp)
        · exact absurd (h.symm.trans h₂) (by simp)
    · obtain ⟨h₁, h₂⟩ := not_or.mp hfields
      obtain ⟨anchor₁, hanchor₁⟩ := ne_none_iff_exists'.mp h₁
      obtain ⟨anchor₂, hanchor₂⟩ := ne_none_iff_exists'.mp h₂
      cases htable : env.computeGrouping cl (some (anchor₁, att₁)) (anchor₂, att₂) (groupCutoff cutoff) with
      | none =>
        refine answers_of_error .cqpGeneral { st with cqiErrno := .statusOk } ?_ rfl
          (by simp [hanchor₁, hanchor₂, htable])
        simp only [doCqiCqpFdist2, cqiFindCorpus_of_some hcl, hanchor₁, hanchor₂, htable]
      | some table =>
        have hrun : doCqiCqpFdist2 env subcorpus cutoff field₁ att₁ field₂ att₂ st =
            cqiIntTable table [GroupCell.s, GroupCell.t, GroupCell.freq] { st with cqiErrno := .statusOk } := by
          simp only [doCqiCqpFdist2, cqiFindCorpus_of_some hcl, hanchor₁, hanchor₂, htable]
        rw [answers_congr hrun, answers_cqiIntTable (by simp)]
        simp [hanchor₁, hanchor₂, htable]

/-! ## The interpreter -/

/-- One reply is sent, which is an error exactly if the operation fails, and the request has been
read from the connection, so that it is not answered again. -/
def AnswersRequest (env : CqiEnv) (st : CqiServer) (command : Command) (stream : List CqiByte) (args : List CqiValue)
    (rest : List CqiByte) : Prop :=
  ∃ reply st', interpret env command stream st = some (reply, st', rest) ∧ OneReply reply ∧
    (IsErrorReply reply ↔ ¬Succeeds env st command args)

section Reading

/-- The arguments of a request, each as its handler reads it. -/
def Reads : List CqiKind → List CqiByte → List CqiValue → List CqiByte → Prop
  | [], s, args, rest => args = [] ∧ s = rest
  | .string :: kinds, s, args, rest =>
    ∃ str s' args', cqiReadString s = some (str, s') ∧ args = .string str :: args' ∧ Reads kinds s' args' rest
  | .int :: kinds, s, args, rest =>
    ∃ n s' args', cqiReadInt s = some (n, s') ∧ args = .int n :: args' ∧ Reads kinds s' args' rest
  | .byte :: kinds, s, args, rest =>
    ∃ b s' args', cqiReadField s = some (b, s') ∧ args = .byte b :: args' ∧ Reads kinds s' args' rest
  | .intList :: kinds, s, args, rest => ∃ list : CList CInt, ∃ s' args',
    cqiReadIntList s = some (list.elems, s') ∧ args = .intList list :: args' ∧ Reads kinds s' args' rest
  | .stringList :: kinds, s, args, rest => ∃ list : CList CString, ∃ s' args',
    cqiReadStringList s = some (list.elems, s') ∧ args = .stringList list :: args' ∧ Reads kinds s' args' rest
  | _, _, _, _ => False

variable {kinds : List CqiKind} {stream rest : List CqiByte} {args : List CqiValue}

theorem ofRead_elems {α : Type} {elems : List α} {list : CList α} (h : CList.ofRead elems = some list) :
    elems = list.elems := by
  unfold CList.ofRead at h
  split_ifs at h
  rw [← some.inj h]

theorem reads_of_readAll (hkinds : ∀ k ∈ kinds, k ∈ [.string, .int, .byte, .intList, .stringList])
    (h : cqiReadAll kinds stream = some (args, rest)) : Reads kinds stream args rest := by
  induction kinds generalizing stream args with
  | nil =>
    obtain ⟨rfl, rfl⟩ := Prod.mk.inj (some.inj h)
    exact ⟨rfl, rfl⟩
  | cons k kinds ih =>
    obtain ⟨hk, hkinds⟩ := forall_mem_cons.mp hkinds
    simp only [cqiReadAll, Codec.readEach, bind_eq_bind, bind_eq_some_iff] at h
    obtain ⟨⟨v, stream'⟩, hv, ⟨args', rest'⟩, hargs, heq⟩ := h
    obtain ⟨rfl, rfl⟩ := Prod.mk.inj (some.inj heq)
    have htail := ih hkinds hargs
    cases k with
    | bool | word | byteList | boolList => simp at hk
    | string | int =>
      simp only [cqiReadValue, bind_eq_bind, bind_eq_some_iff] at hv
      obtain ⟨⟨v, stream₁⟩, hv, heq⟩ := hv
      obtain ⟨rfl, rfl⟩ := Prod.mk.inj (some.inj heq)
      exact ⟨_, _, _, hv, rfl, htail⟩
    | byte =>
      simp only [cqiReadValue, bind_eq_bind, bind_eq_some_iff] at hv
      obtain ⟨⟨n, stream₁⟩, hn, heq⟩ := hv
      obtain ⟨rfl, rfl⟩ := Prod.mk.inj (some.inj heq)
      exact ⟨_, _, _, by simp only [cqiReadField, hn, bind_eq_bind, bind_some], rfl, htail⟩
    | intList | stringList =>
      simp only [cqiReadValue, bind_eq_bind, bind_eq_some_iff] at hv
      obtain ⟨⟨elems, stream₁⟩, helems, list, hlist, heq⟩ := hv
      obtain ⟨rfl, rfl⟩ := Prod.mk.inj (some.inj heq)
      obtain rfl := ofRead_elems hlist
      exact ⟨list, _, _, helems, rfl, htail⟩

theorem Command.reads {command : Command} (h : cqiReadAll command.inputs stream = some (args, rest)) :
    Reads command.inputs stream args rest :=
  reads_of_readAll (by cases command <;> decide) h

/-- A string takes at least the two bytes of its length. -/
theorem cqiReadString_shorter {str : CString} (h : cqiReadString stream = some (str, rest)) :
    rest.length < stream.length := by
  simp only [cqiReadString, bind_eq_bind, bind_eq_some_iff] at h
  obtain ⟨⟨len, stream₁⟩, hlen, ⟨s, stream₂⟩, hs, heq⟩ := h
  obtain ⟨-, rfl⟩ := Prod.mk.inj (some.inj heq)
  have hrest : stream₂.length ≤ stream₁.length := by
    unfold cqiRecvBytes at hs
    split_ifs at hs
    · obtain ⟨-, rfl⟩ := Prod.mk.inj (some.inj hs)
      exact le_rfl
    · obtain ⟨-, rfl⟩ := Prod.mk.inj (some.inj hs)
      rw [length_drop]
      exact Nat.sub_le _ _
  obtain _ | ⟨b₁, _ | ⟨b₂, stream⟩⟩ := stream
  · cases hlen
  · cases hlen
  · obtain ⟨-, rfl⟩ := Prod.mk.inj (some.inj hlen)
    simp only [length_cons]
    omega

end Reading

section Interpreter

variable {command : Command} {stream rest : List CqiByte} {args : List CqiValue}

/-- The reply of a handler that has read its arguments. -/
theorem answersRequest_iff {handler : Handler}
    (hrun : interpret env command stream st = (handler st).map fun (reply, st') => (reply, st', rest)) :
    AnswersRequest env st command stream args rest ↔ handler.Answers st (Succeeds env st command args) := by
  unfold AnswersRequest Handler.Answers
  rw [hrun]
  cases handler st with
  | none => simp
  | some result =>
    obtain ⟨reply, st'⟩ := result
    simp

end Interpreter

def emptyEnv : CqiEnv where
  accessCorpus _ := true
  newRegex _ := none
  computeGrouping _ _ _ _ := none
  yyparse store s := ⟨1, s, store, false⟩
  behind := []

def emptyServer : CqiServer where
  clErrno := .ok
  cqiErrno := .statusOk
  errorString := ""
  attHash := replicate 10 none
  store := { corpuslist := [], nextId := 0 }

/-- The string `X`, preceded by its length -/
def nameX : List CqiByte := [0, 1, 0x58]

end CWB.Cqi
