import CWB.Sanity.QueryStore

/-! The list of query results as a map. As long as no two mother corpora have results of one name
and `assign_temp_to_sub` replaces results of the active corpus only, names are unique in the list,
every lookup finds the right entry, and assignments change nothing else. -/

namespace CWB

open Option List Split

namespace QueryStore

variable {α : Type} {st st' : QueryStore α} {e : CorpusEntry α} {name : CorpusName} {p : ℕ}

/-! ## Commands -/

/-- What is assigned to each pair after further assignments. -/
def extend (last : CorpusName → CorpusName → Option α) (log : List (Assignment α)) (mother name : CorpusName) : Option α :=
  log.foldl (fun last a => if a.mother = mother ∧ a.name = name then a.data else last) (last mother name)

/-- A part of a session with these assignments. -/
structure Outcome (st : QueryStore α) (log : List (Assignment α)) (st' : QueryStore α) : Prop where
  inv : st'.Inv
  represents : ∀ last, st.Represents last → st'.Represents (extend last log)
  frames : ∀ a ∈ log, a.Frame

variable {st1 st2 : QueryStore α} {log log' : List (Assignment α)} {opts : StoreOptions α}

theorem Outcome.trans (h : Outcome st log st1) (h' : Outcome st1 log' st2) : Outcome st (log ++ log') st2 where
  inv := h'.inv
  represents := fun last hr => by
    have hr' := h'.represents _ (h.represents last hr)
    intro mother name d
    rw [extend, foldl_append]
    exact hr' mother name d
  frames := fun a ha => (mem_append.mp ha).elim (h.frames a) (h'.frames a)

/-- Nothing has happened to the query results. -/
theorem outcome_same (hinv : st'.Inv) (h : ∀ e : CorpusEntry α, e.type = .sub → (e ∈ st'.corpuslist ↔ e ∈ st.corpuslist)) :
    Outcome st [] st' where
  inv := hinv
  represents := fun last hr mother name d => by
    rw [show extend last [] mother name = last mother name from rfl, hr]
    constructor
    · intro hex
      obtain ⟨e, he, hsub, hrest⟩ := hex
      exact ⟨e, (h e hsub.1).mpr he, hsub, hrest⟩
    · intro hex
      obtain ⟨e, he, hsub, hrest⟩ := hex
      exact ⟨e, (h e hsub.1).mp he, hsub, hrest⟩
  frames := fun a ha => by cases ha

theorem outcome_refl (h : st.Inv) : Outcome st [] st := outcome_same h fun _ _ => Iff.rfl

theorem outcome_assigned {a : Assignment α} (h : Assigned a.before a.after a.mother a.name a.data)
    (hbefore : ∀ e ∈ a.before.corpuslist, IsSub a.name e → e.motherName = a.mother) : Outcome a.before [a] a.after where
  inv := h.inv
  represents := fun last hr => h.represents hbefore hr
  frames := fun b hb => by
    rw [mem_singleton.mp hb]
    exact h.frame hbefore

theorem loadedLoop_mem {guess qualifier : Option CorpusName} {type : Option CorpusType} {l : List (CorpusEntry α)}
    (h : loadedLoop guess name type qualifier l = some e) :
    e ∈ l ∧ (type = some e.type ∨ (type = none ∧ e.type ≠ .temp)) ∧ e.name = name := by
  induction l generalizing qualifier with
  | nil => cases h
  | cons c l ih =>
    rw [loadedLoop_cons] at h
    by_cases hc : (type = some c.type ∨ (type = none ∧ c.type ≠ .temp)) ∧ c.name = name
    · rw [if_pos hc] at h
      have hhead : some c = some e ∨ ∃ q, loadedLoop guess name type q l = some e := by
        cases qualifier with
        | none =>
          simp only at h
          cases guess with
          | none =>
            simp only [ite_self] at h
            exact .inl h
          | some mother =>
            simp only at h
            split_ifs at h
            · exact .inl h
            · exact .inr ⟨_, h⟩
            · exact .inl h
        | some q =>
          simp only at h
          split_ifs at h
          exact .inl h
      obtain heq | ⟨q, hrest⟩ := hhead
      · cases heq
        exact ⟨mem_cons_self, hc⟩
      · obtain ⟨hmem, hmatch⟩ := ih hrest
        exact ⟨mem_cons_of_mem c hmem, hmatch⟩
    · rw [if_neg hc] at h
      obtain ⟨hmem, hmatch⟩ := ih h
      exact ⟨mem_cons_of_mem c hmem, hmatch⟩

theorem findLoaded_temp {newc : CorpusEntry α} (h : st.findLoaded name (some .temp) = some newc) :
    newc ∈ st.corpuslist ∧ newc.type = .temp := by
  rw [findLoaded] at h
  split_ifs at h
  obtain ⟨hmem, htype | ⟨hn, -⟩, -⟩ := loadedLoop_mem h
  · exact ⟨hmem, (Option.some.inj htype).symm⟩
  · cases hn

variable {c : CorpusEntry α}

/-- A change to an entry that is no query result. -/
theorem modify_same (h : st.Inv) (hc : c ∈ st.corpuslist) (htemp : c.type = .temp)
    {f : CorpusEntry α → CorpusEntry α} (hid : ∀ e, (f e).id = e.id) (htype : (f c).type = .temp) :
    Outcome st [] (st.modify c.id f) := by
  apply outcome_same
  · refine h.modify hid fun e he heq => .inl ?_
    rw [h.eq_of_id he hc heq]
    exact ⟨htype.trans htemp.symm, fun hs => by rw [htemp] at hs; cases hs⟩
  · intro e hsub
    rw [mem_modify]
    constructor
    · intro hex
      obtain ⟨a, ha, rfl⟩ := hex
      split_ifs at hsub ⊢ with heq
      · rw [h.eq_of_id ha hc heq, htype] at hsub
        cases hsub
      · exact ha
    · intro he
      refine ⟨e, he, if_neg fun heq => ?_⟩
      rw [h.eq_of_id he hc heq, htemp] at hsub
      cases hsub

theorem makeTempCorpus_spec (h : st.Inv) (cl : CorpusEntry α) (newName : CorpusName) :
    Outcome st [] (st.makeTempCorpus cl newName).1 ∧
      ∃ c ∈ (st.makeTempCorpus cl newName).1.corpuslist, c.id = (st.makeTempCorpus cl newName).2 ∧ c.type = .temp := by
  rw [makeTempCorpus]
  cases hl : st.findLoaded newName (some .temp) with
  | none =>
    refine ⟨outcome_same (h.insert (by decide) (fun ht => by cases ht) _ _ _) fun e hsub => ?_, _, mem_cons_self, rfl, rfl⟩
    rw [insert, mem_cons]
    exact ⟨fun he => he.resolve_left (fun heq => by rw [heq] at hsub; cases hsub), .inr⟩
  | some newc =>
    obtain ⟨hmem, htemp⟩ := findLoaded_temp hl
    simp only
    split_ifs with hid
    · exact ⟨outcome_refl h, newc, hmem, hid, htemp⟩
    · exact ⟨modify_same h hmem htemp (fun _ => rfl) rfl, _, mem_modify.mpr ⟨newc, hmem, if_pos rfl⟩, rfl, rfl⟩

theorem setData_spec (h : st.Inv) (hc : c ∈ st.corpuslist) (htemp : c.type = .temp) (data : α) :
    Outcome st [] (st.setData c.id data) ∧
      ∃ c' ∈ (st.setData c.id data).corpuslist, c'.id = c.id ∧ c'.type = .temp :=
  ⟨modify_same h hc htemp (fun _ => rfl) htemp, _, mem_modify.mpr ⟨c, hc, if_pos rfl⟩, rfl, htemp⟩

theorem tempWith_spec (h : st.Inv) (cl : CorpusEntry α) (newName : CorpusName) (data : α) :
    Outcome st [] (st.tempWith cl newName data).1 ∧
      ∃ c ∈ (st.tempWith cl newName data).1.corpuslist, c.id = (st.tempWith cl newName data).2 ∧ c.type = .temp := by
  obtain ⟨hmake, c, hc, hid, htemp⟩ := makeTempCorpus_spec h cl newName
  rw [tempWith, ← hid]
  obtain ⟨hset, c', hc', hid', htemp'⟩ := setData_spec hmake.inv hc htemp data
  exact ⟨hmake.trans hset, c', hc', hid', htemp'⟩

theorem dropTempCorpora_spec (h : st.Inv) (hd : st.dropTempCorpora = some st') : Outcome st [] st' := by
  rw [dropTempCorpora] at hd
  split_ifs at hd
  cases hd
  apply outcome_same (h.filter filter_sublist _)
  intro e hsub
  simp [hsub]

/-- Where the assignment is free, no result of this name belongs to another mother corpus. -/
theorem before_of_free {a : Assignment α} (h : a.Free) (hdata : a.data.isSome) :
    ∀ e ∈ a.before.corpuslist, IsSub a.name e → e.motherName = a.mother := fun e he hsub =>
  (h hdata e he hsub.1 hsub.2).1

theorem duplicate_spec (h : st.Inv) {cl : CorpusEntry α} (htype : cl.type ≠ .system)
    (hself : ∀ e ∈ st.corpuslist, e.id = cl.id → IsSub name e → e = cl)
    (hfree : ∀ a ∈ (st.duplicate cl name).log, a.Free) : Outcome st (st.duplicate cl name).log (st.duplicate cl name).store := by
  have hbefore := before_of_free (hfree _ (mem_singleton_self _)) rfl
  exact outcome_assigned (duplicate_assigned h htype hself hbefore).1 hbefore

theorem assignTemp_spec (h : st.Inv) {tmp : CorpusEntry α} (htmp : tmp ∈ st.corpuslist) (htemp : tmp.type = .temp)
    (hlocal : ':' ∉ name) (hfree : ∀ a ∈ (st.assignTemp tmp name).log, a.Free) :
    Outcome st (st.assignTemp tmp name).log (st.assignTemp tmp name).store := by
  have hf := hfree _ (mem_singleton_self _)
  have hbefore := before_of_free hf rfl
  have hguess : ∀ e ∈ st.corpuslist, IsSub name e →
      '^' ∉ name ∧ ∀ mother, st.currentMother = some mother → mother = tmp.motherName := fun e he hsub =>
    (hf rfl e he hsub.1 hsub.2).2 rfl
  exact outcome_assigned (assignTemp_assigned h htmp htemp hlocal hbefore hguess).1 hbefore

theorem findcorpus_spec (h : st.Inv) (s : CorpusName) (hfree : ∀ a ∈ (st.findcorpus opts s).log, a.Free) :
    Outcome st (st.findcorpus opts s).log (st.findcorpus opts s).store := by
  unfold findcorpus at hfree ⊢
  cases hsplit : splitAtFirst '^' (parseName s none).2 with
  | none => exact outcome_refl h
  | some na =>
    obtain ⟨name, attr⟩ := na
    simp only [hsplit] at hfree ⊢
    cases hl : st.loadedCorpus name (parseName s none).1 none with
    | none => exact outcome_refl h
    | some sp =>
      simp only [hl] at hfree ⊢
      split_ifs at hfree ⊢ with hsys
      · exact outcome_refl h
      · cases hexp : opts.expandTo sp.motherName attr with
        | none => exact outcome_refl h
        | some f =>
          simp only [hexp] at hfree ⊢
          refine duplicate_spec h hsys (fun e he hid hsub => ?_) hfree
          -- the corpus that is expanded has a shorter name than its expansion
          obtain ⟨hmem, -, hname⟩ := loadedLoop_mem hl
          have heq := (splitAtFirst_some hsplit).1
          rw [h.eq_of_id he hmem hid] at hsub
          have hlen := congrArg List.length (hname.symm.trans (hsub.2.trans heq))
          simp at hlen

/-- Has a part of a command returned a temporary corpus? -/
def StoreResult.IsTemp (r : StoreResult α) : Prop :=
  ∀ p, r.corpus = some p → ∃ c ∈ r.store.corpuslist, c.id = p ∧ c.type = .temp

theorem temp_returned (h : st.Inv) (cl : CorpusEntry α) (newName : CorpusName) (data : α) (log : List (Assignment α)) :
    StoreResult.IsTemp
      { store := (st.tempWith cl newName data).1, log, corpus := some (st.tempWith cl newName data).2 } := by
  intro p hp
  cases hp
  exact (tempWith_spec h cl newName data).2

theorem none_returned (st : QueryStore α) (log : List (Assignment α)) :
    StoreResult.IsTemp { store := st, log } := by
  intro p hp
  cases hp

variable {r : StoreResult α}

theorem evalCY_spec (h : st.Inv) {cy : CYCommand α} (hr : st.evalCY opts cy = some r) (hfree : ∀ a ∈ r.log, a.Free) :
    Outcome st r.log r.store ∧ ((∀ s, cy ≠ .corpus s) → StoreResult.IsTemp r) := by
  cases cy with
  | corpus s =>
    cases hr
    exact ⟨findcorpus_spec h s hfree, fun hne => absurd rfl (hne s)⟩
  | setop s1 s2 f =>
    simp only [evalCY] at hr
    have hboth : ∀ log, log = (st.findcorpus opts s1).log ++ ((st.findcorpus opts s1).store.findcorpus opts s2).log →
        (∀ a ∈ log, a.Free) → Outcome st log ((st.findcorpus opts s1).store.findcorpus opts s2).store := by
      intro log hlog hfree
      subst hlog
      have h1 := findcorpus_spec h s1 fun a ha => hfree a (mem_append_left _ ha)
      exact h1.trans (findcorpus_spec h1.inv s2 fun a ha => hfree a (mem_append_right _ ha))
    generalize hc1 : (st.findcorpus opts s1).corpus = p1 at hr
    generalize hc2 : ((st.findcorpus opts s1).store.findcorpus opts s2).corpus = p2 at hr
    cases p1 with
    | none =>
      cases hr
      exact ⟨hboth _ rfl hfree, fun _ => none_returned _ _⟩
    | some p1 =>
      cases p2 with
      | none =>
        cases hr
        exact ⟨hboth _ rfl hfree, fun _ => none_returned _ _⟩
      | some p2 =>
        obtain ⟨c1, -, hr⟩ := bind_eq_some_iff.mp hr
        obtain ⟨c2, -, hr⟩ := bind_eq_some_iff.mp hr
        split_ifs at hr
        · cases hr
          have hlog := hboth _ rfl hfree
          have htemp := (tempWith_spec hlog.inv c1 "RHS".toList (f c1.data c2.data)).1
          exact ⟨by simpa using hlog.trans htemp, fun _ => temp_returned hlog.inv _ _ _ _⟩
        · cases hr
          exact ⟨hboth _ rfl hfree, fun _ => none_returned _ _⟩
  | subset s f =>
    simp only [evalCY] at hr
    have hfind : ∀ log, log = (st.findcorpus opts s).log → (∀ a ∈ log, a.Free) →
        Outcome st log (st.findcorpus opts s).store := by
      intro log hlog hfree
      subst hlog
      exact findcorpus_spec h s hfree
    cases hc : (st.findcorpus opts s).corpus with
    | none =>
      rw [hc] at hr
      cases hr
      exact ⟨hfind _ rfl hfree, fun _ p hp => by rw [hc] at hp; cases hp⟩
    | some p =>
      rw [hc] at hr
      obtain ⟨c, -, hr⟩ := bind_eq_some_iff.mp hr
      split_ifs at hr
      · cases hr
        have hlog := hfind _ rfl hfree
        have htemp := (tempWith_spec hlog.inv c "RHS".toList (f c.data)).1
        exact ⟨by simpa using hlog.trans htemp, fun _ => temp_returned hlog.inv _ _ _ _⟩
      · cases hr
        exact ⟨hfind _ rfl hfree, fun _ => none_returned _ _⟩
  | query f =>
    simp only [evalCY] at hr
    cases hcur : st.current with
    | none =>
      rw [hcur] at hr
      cases hr
      exact ⟨outcome_refl h, fun _ => none_returned _ _⟩
    | some p =>
      rw [hcur] at hr
      obtain ⟨c, -, hr⟩ := bind_eq_some_iff.mp hr
      cases hr
      exact ⟨(tempWith_spec h c "RHS".toList (f c.data)).1, fun _ => temp_returned h _ _ _ _⟩

theorem last_local : ':' ∉ "Last".toList := by decide

/-- A temporary corpus becomes the result `name`. -/
theorem assignTemp_get (h : st.Inv) {tmp : CorpusEntry α} (hc : c ∈ st.corpuslist) (hid : c.id = p)
    (htemp : c.type = .temp) (hget : st.get? p = some tmp) (hlocal : ':' ∉ name)
    (hfree : ∀ a ∈ (st.assignTemp tmp name).log, a.Free) :
    Outcome st (st.assignTemp tmp name).log (st.assignTemp tmp name).store := by
  obtain ⟨hmem, hid'⟩ := get?_mem hget
  have heq := h.eq_of_id hmem hc (hid'.trans hid.symm)
  exact assignTemp_spec h hmem (by rw [heq]; exact htemp) hlocal hfree

theorem unnamed_spec {cy : CYCommand α} {expansion : Option (α → α)} {r' : StoreResult α}
    (hr : (∀ a ∈ r.log, a.Free) → Outcome st r.log r.store ∧ ((∀ s, cy ≠ .corpus s) → StoreResult.IsTemp r))
    (hr' : unnamed cy expansion r = some r') (hfree : ∀ a ∈ r'.log, a.Free) : Outcome st r'.log r'.store := by
  have hsame : r = r' → Outcome st r'.log r'.store := by
    intro heq
    subst heq
    exact (hr hfree).1
  rw [unnamed] at hr'
  cases hp : r.corpus with
  | none =>
    rw [hp] at hr'
    exact hsame (Option.some.inj hr')
  | some p =>
    simp only [hp] at hr'
    obtain ⟨c, -, hr'⟩ := bind_eq_some_iff.mp hr'
    cases cy with
    | corpus s =>
      cases expansion with
      | none => exact hsame (Option.some.inj hr')
      | some f =>
        simp only at hr'
        split_ifs at hr'
        · exact hsame (Option.some.inj hr')
        · obtain ⟨tmp, hget, hr'⟩ := bind_eq_some_iff.mp hr'
          cases hr'
          have hcy := (hr fun a ha => hfree a (mem_append_left _ ha)).1
          obtain ⟨hmake, c', hc', hid, htmp⟩ := tempWith_spec hcy.inv c "RHS".toList (f c.data)
          have hassign := assignTemp_get hmake.inv hc' hid htmp hget last_local fun a ha =>
            hfree a (mem_append_right _ ha)
          simpa using (hcy.trans hmake).trans hassign
    | _ =>
      simp only at hr'
      obtain ⟨tmp, hget, hr'⟩ := bind_eq_some_iff.mp hr'
      obtain ⟨store, hdrop, hr'⟩ := bind_eq_some_iff.mp hr'
      cases hr'
      obtain ⟨hcy, htemp⟩ := hr fun a ha => hfree a (mem_append_left _ ha)
      obtain ⟨c', hc', hid, htmp⟩ := htemp (fun s hs => by cases hs) p hp
      subst hid
      obtain ⟨hset, c'', hc'', hid, htmp'⟩ := setData_spec hcy.inv hc' htmp (expansion.getD id c.data)
      have hassign := assignTemp_get hset.inv hc'' hid htmp' hget last_local fun a ha =>
        hfree a (mem_append_right _ ha)
      simpa using ((hcy.trans hset).trans hassign).trans (dropTempCorpora_spec hassign.inv hdrop)

theorem named_spec {lhs : CorpusName} {r' : StoreResult α}
    (hr : (∀ a ∈ r.log, a.Free) → Outcome st r.log r.store) (hr' : named lhs r = some r')
    (hfree : ∀ a ∈ r'.log, a.Free) : Outcome st r'.log r'.store := by
  have hsame : r = r' → Outcome st r'.log r'.store := by
    intro heq
    subst heq
    exact hr hfree
  rw [named] at hr'
  cases hp : r.corpus with
  | none =>
    rw [hp] at hr'
    exact hsame (Option.some.inj hr')
  | some p =>
    simp only [hp] at hr'
    split_ifs at hr'
    · exact hsame (Option.some.inj hr')
    · obtain ⟨c, hget, hr'⟩ := bind_eq_some_iff.mp hr'
      split_ifs at hr' with hsys
      · exact hsame (Option.some.inj hr')
      · cases hr'
        have hcy := hr fun a ha => hfree a (mem_append_left _ ha)
        exact hcy.trans (duplicate_spec hcy.inv hsys (fun e he hid _ => hcy.inv.eq_of_id he (get?_mem hget).1 hid)
          fun a ha => hfree a (mem_append_right _ ha))

theorem activate_eq (opts : StoreOptions α) (cy : CYCommand α) (r : StoreResult α) :
    ∃ current, activate opts cy r = { r with store := { r.store with current } } := by
  obtain ⟨store, log, corpus⟩ := r
  cases corpus with
  | none => exact ⟨store.current, by cases cy <;> rfl⟩
  | some p =>
    cases cy with
    | corpus s => exact ⟨some p, rfl⟩
    | _ =>
      cases hauto : opts.autoSubquery with
      | false => exact ⟨store.current, by simp [activate, hauto]⟩
      | true => exact ⟨some p, by simp [activate, hauto]⟩

theorem activate_spec (h : st.Inv) (current : Option ℕ) : Outcome st [] { st with current } :=
  outcome_same ⟨h.apart, h.below⟩ fun _ _ => Iff.rfl

theorem splitSubcorpusName_local {s mother : CorpusName} (h : splitSubcorpusName s = some (mother, name)) : ':' ∉ name := by
  rw [splitSubcorpusName] at h
  split_ifs at h
  cases hsplit : splitAtFirst ':' s with
  | none =>
    rw [hsplit] at h
    cases h
    exact splitAtFirst_eq_none.mp hsplit
  | some mn =>
    obtain ⟨m, n⟩ := mn
    simp only [hsplit] at h
    split_ifs at h with hq
    cases h
    simpa [isQualified] using hq

theorem doUndump_spec (h : st.Inv) {s : CorpusName} {table : Option α}
    (hr : st.doUndump s table = some r) (hfree : ∀ a ∈ r.log, a.Free) : Outcome st r.log r.store := by
  rw [doUndump] at hr
  cases hsplit : splitSubcorpusName s with
  | none =>
    rw [hsplit] at hr
    cases hr
    exact outcome_refl h
  | some mn =>
    obtain ⟨mother, name⟩ := mn
    simp only [hsplit] at hr
    split at hr
    · cases hr
      exact outcome_refl h
    · rename_i cl _
      cases table with
      | none =>
        obtain ⟨store, hdrop, hr⟩ := bind_eq_some_iff.mp hr
        cases hr
        have hmake := (makeTempCorpus_spec h cl "UNDUMP_TMP".toList).1
        exact hmake.trans (dropTempCorpora_spec hmake.inv hdrop)
      | some data =>
        simp only at hr
        obtain ⟨tmp, hget, hr⟩ := bind_eq_some_iff.mp hr
        obtain ⟨store, hdrop, hr⟩ := bind_eq_some_iff.mp hr
        cases hr
        obtain ⟨hmake, c, hc, hid, htmp⟩ := tempWith_spec h cl "UNDUMP_TMP".toList data
        have hassign := assignTemp_get hmake.inv hc hid htmp hget (splitSubcorpusName_local hsplit) hfree
        simpa using (hmake.trans hassign).trans (dropTempCorpora_spec hassign.inv hdrop)

/-- A query result disappears from the list. -/
theorem dropped (h : st.Inv) (hc : c ∈ st.corpuslist) (hsub : c.type = .sub) :
    Assigned st (st.dropcorpus c.id) c.motherName c.name none := by
  have hgone : ∀ e ∈ (st.dropcorpus c.id).corpuslist, ¬IsSub c.name e := by
    intro e he hsub'
    obtain ⟨hmem, hid⟩ := mem_dropcorpus.mp he
    exact hid (congrArg CorpusEntry.id (h.eq_of_name hmem hc hsub'.1 hsub hsub'.2))
  refine ⟨h.dropcorpus _, fun e _ hne => ?_, fun d => ⟨fun hd => ?_, fun hex => ?_⟩,
    fun e he hsub' => absurd hsub' (hgone e he)⟩
  · rw [mem_dropcorpus]
    refine ⟨fun he => he.1, fun he => ⟨he, fun hid => hne ?_⟩⟩
    rw [h.eq_of_id he hc hid]
  · cases hd
  · obtain ⟨e, he, hsub', -⟩ := hex
    exact absurd hsub' (hgone e he)

theorem discard_spec (h : st.Inv) {s : CorpusName} (hr : st.discard opts s = some r)
    (hfree : ∀ a ∈ r.log, a.Free) : Outcome st r.log r.store := by
  simp only [discard] at hr
  cases hp : (st.findcorpus opts s).corpus with
  | none =>
    rw [hp] at hr
    cases hr
    exact findcorpus_spec h s hfree
  | some p =>
    simp only [hp] at hr
    obtain ⟨c, hget, hr⟩ := bind_eq_some_iff.mp hr
    obtain ⟨hmem, hid⟩ := get?_mem hget
    subst hid
    split_ifs at hr with hsub
    · cases hr
      have hfind := findcorpus_spec h s fun a ha => hfree a (mem_append_left _ ha)
      apply hfind.trans
      refine outcome_assigned (a := ⟨_, _, c.motherName, c.name, none, false⟩) (dropped hfind.inv hmem hsub) fun e he hname => ?_
      rw [hfind.inv.eq_of_name he hmem hname.1 hsub hname.2]
    · cases hr
      have hfind := findcorpus_spec h s hfree
      have hdrop : Outcome (st.findcorpus opts s).store [] ((st.findcorpus opts s).store.dropcorpus c.id) := by
        apply outcome_same (hfind.inv.dropcorpus _)
        intro e ht
        rw [mem_dropcorpus]
        refine ⟨fun he => he.1, fun he => ⟨he, fun hid => hsub ?_⟩⟩
        rw [← hfind.inv.eq_of_id he hmem hid]
        exact ht
      simpa using hfind.trans hdrop

theorem runCommand_spec (h : st.Inv) {cmd : StoreCommand α} (hr : st.runCommand opts cmd = some r)
    (hfree : ∀ a ∈ r.log, a.Free) : Outcome st r.log r.store := by
  cases cmd with
  | corpusCommand lhs cy expansion =>
    obtain ⟨r1, hcy, hr⟩ := bind_eq_some_iff.mp hr
    obtain ⟨r2, hun, hr⟩ := bind_eq_some_iff.mp hr
    cases lhs with
    | none =>
      cases hr
      obtain ⟨current, heq⟩ := activate_eq opts cy r2
      rw [heq] at hfree ⊢
      have hun' := unnamed_spec (evalCY_spec h hcy) hun hfree
      simpa using hun'.trans (activate_spec hun'.inv current)
    | some lhs => exact named_spec (unnamed_spec (evalCY_spec h hcy) hun) hr hfree
  | translate lhs s target f =>
    simp only [runCommand] at hr
    have hfind : (∀ a ∈ (st.findcorpus opts s).log, a.Free) →
        Outcome st (st.findcorpus opts s).log (st.findcorpus opts s).store := findcorpus_spec h s
    split at hr
    · rename_i p cl _ _
      obtain ⟨c, -, hr⟩ := bind_eq_some_iff.mp hr
      refine named_spec (fun hfree => ?_) hr hfree
      have hlog := hfind hfree
      simpa using hlog.trans (tempWith_spec hlog.inv cl "RHS".toList (f c.data cl.data)).1
    · cases hr
      exact hfind hfree
  | undump s table => exact doUndump_spec h hr hfree
  | discard s => exact discard_spec h hr hfree

theorem runCommands_spec {cmds : List (StoreCommand α)} (h : st.Inv) (hr : runCommands opts st cmds = some (st', log))
    (hfree : ∀ a ∈ log, a.Free) : Outcome st log st' := by
  induction cmds generalizing st log with
  | nil =>
    cases hr
    exact outcome_refl h
  | cons cmd cmds ih =>
    obtain ⟨r, hcmd, hr⟩ := bind_eq_some_iff.mp hr
    obtain ⟨⟨store, rest⟩, hrest, hr⟩ := bind_eq_some_iff.mp hr
    cases hr
    have hfirst := runCommand_spec h hcmd fun a ha => hfree a (mem_append_left _ ha)
    exact hfirst.trans (ih hfirst.inv hrest fun a ha => hfree a (mem_append_right _ ha))

/-! ## The map -/

theorem Initial.inv (h : st.Initial) : st.Inv where
  apart := by
    apply h.ids.imp_of_mem
    intro e e' he he' hid
    refine ⟨hid, fun ht => ?_, fun _ => h.system e' he'⟩
    rw [h.system e he] at ht
    cases ht
  below := h.below

theorem Initial.represents (h : st.Initial) : st.Represents fun _ _ => none := by
  intro mother name d
  constructor
  · intro hd
    cases hd
  · intro hex
    obtain ⟨e, he, hsub, -⟩ := hex
    rw [IsSub, h.system e he] at hsub
    cases hsub.1

/-- A list of results with unique names represents a map, and looking them up reads it. -/
theorem Inv.isMap (h : st.Inv) {last : CorpusName → CorpusName → Option α} (hr : st.Represents last) : st.IsMap last where
  unique := by
    apply List.Pairwise.imp_of_mem _ (h.apart.sublist filter_sublist)
    intro e e' he he' hab heq
    exact hab.names (by simpa using (mem_filter.mp he).2) (by simpa using (mem_filter.mp he').2)
      (congrArg Prod.snd heq)
  lookup := by
    intro mother name hne hcolon hexp
    have hsub : st.findLoaded (mother ++ ':' :: name) (some .sub) = st.loadedCorpus name (some mother) (some .sub) := by
      rw [findLoaded, parseName_qualified hne hcolon (by decide), if_neg hexp]
    refine ⟨?_, fun d hd => ?_⟩
    · rw [hsub, loadedCorpus]
      by_cases hex : ∃ e ∈ st.corpuslist, IsSub name e
      · obtain ⟨e, he, hname⟩ := hex
        rw [loadedLoop_some h.apart he hname]
        rw [some_or]
        simp only [Option.some.injEq, forall_eq']
        split_ifs with hm
        · exact ((hr mother name e.data).mpr ⟨e, he, hname, hm, rfl⟩).symm
        · cases hlast : last mother name with
          | none => rfl
          | some d =>
            obtain ⟨e', he', hname', hm', -⟩ := (hr mother name d).mp hlast
            rw [h.eq_of_name he' he hname'.1 hname.1 (hname'.2.trans hname.2.symm)] at hm'
            exact absurd hm' hm
      · rw [loadedLoop_none fun e he hname => hex ⟨e, he, hname⟩]
        cases hlast : last mother name with
        | none => rfl
        | some d =>
          obtain ⟨e, he, hname, -⟩ := (hr mother name d).mp hlast
          exact absurd ⟨e, he, hname⟩ hex
    · obtain ⟨e, he, hname, hm, hdata⟩ := (hr mother name d).mp hd
      refine ⟨e, ?_, hname.1, hdata⟩
      rw [findLoaded, parseName_qualified hne hcolon (by decide), if_neg hexp, ← hm]
      exact loadedLoop_undef h.apart he hname

/-- In a session whose assignments do not collide with results of other corpora, the list of query
results is the map of what was last assigned, and no assignment touches another pair. -/
theorem queryStore_isMap {cmds : List (StoreCommand α)} (h : st.Initial)
    (hr : runCommands opts st cmds = some (st', log)) (hfree : ∀ a ∈ log, a.Free) :
    st'.IsMap (lastAssigned log) ∧ ∀ a ∈ log, a.Frame := by
  have hspec := runCommands_spec h.inv hr hfree
  exact ⟨hspec.inv.isMap (hspec.represents _ h.represents), hspec.frames⟩

/-- Two corpora, of which nothing has been queried. -/
def twoCorpora : QueryStore ℕ where
  corpuslist := [⟨0, .system, ['A'], ['A'], ['r'], 0⟩, ⟨1, .system, ['B'], ['B'], ['r'], 0⟩]
  nextId := 2

theorem twoCorpora_initial : twoCorpora.Initial where
  system := by decide
  ids := by decide
  below := by decide

/-- `A; X = ...; X = X; Y = X;`: results of one corpus, one of them assigned again. -/
def oneActive : List (StoreCommand ℕ) :=
  [.corpusCommand none (.corpus ['A']) none, .corpusCommand (some ['X']) (.query fun _ => 10) none,
    .corpusCommand (some ['X']) (.subset ['X'] (· + 1)) none, .corpusCommand (some ['Y']) (.corpus ['X']) none]

theorem queryStore_isMap_oneActive :
    ∃ st log, runCommands {} twoCorpora oneActive = some (st, log) ∧ st.IsMap (lastAssigned log) ∧ ∀ a ∈ log, a.Frame :=
  ⟨_, _, rfl, queryStore_isMap twoCorpora_initial (show runCommands {} twoCorpora oneActive = some _ from rfl) (by decide)⟩

/-- `A; X = ...; B; X = ...;`: results of two corpora under one name. -/
def twoActive : List (StoreCommand ℕ) :=
  [.corpusCommand none (.corpus ['A']) none, .corpusCommand (some ['X']) (.query fun _ => 10) none,
    .corpusCommand none (.corpus ['B']) none, .corpusCommand (some ['X']) (.query fun _ => 20) none]

/-- The result of the first corpus is in the list, but its qualified name does not find it. -/
theorem twoActive_notMap :
    ∃ st log, runCommands {} twoCorpora twoActive = some (st, log) ∧ ¬st.IsMap (lastAssigned log) := by
  refine ⟨_, _, rfl, fun h => ?_⟩
  have hlookup := (h.lookup ['A'] ['X'] (by decide) (by decide) (by decide)).1
  revert hlookup
  decide

end QueryStore

end CWB

/-! When `LoadedCorpus` is a complete lookup. With a qualifier the first entry of the name decides, and
a guessed qualifier is taken for a given one from the second entry on. -/

namespace CWB.QueryStore

variable {α : Type}

/-- The entry has the name, and the type is admissible. -/
def Admissible (name : CorpusName) (type : Option CorpusType) (e : CorpusEntry α) : Prop :=
  (type = some e.type ∨ (type = none ∧ e.type ≠ .temp)) ∧ e.name = name

instance (name : CorpusName) (type : Option CorpusType) : DecidablePred (Admissible (α := α) name type) :=
  fun _ => inferInstanceAs (Decidable (_ ∧ _))

/-- The qualifier of a corpus is its registry, that of a query result its mother corpus. -/
def HasQualifier (qualifier : CorpusName) (e : CorpusEntry α) : Prop :=
  (e.type = .system ∧ e.registry = qualifier) ∨ (e.type = .sub ∧ e.motherName = qualifier)

instance (qualifier : CorpusName) : DecidablePred (HasQualifier (α := α) qualifier) :=
  fun _ => inferInstanceAs (Decidable (_ ∨ _))

/-- Without a qualifier a query result has to be one of the active corpus, if there is one. -/
def Guessed (guess : Option CorpusName) (e : CorpusEntry α) : Prop :=
  e.type = .sub → ∀ mother ∈ guess, e.motherName = mother

instance (guess : Option CorpusName) : DecidablePred (Guessed (α := α) guess) :=
  fun _ => inferInstanceAs (Decidable (_ → _))

def Qualifies (guess qualifier : Option CorpusName) (e : CorpusEntry α) : Prop :=
  match qualifier with
  | some q => HasQualifier q e
  | none => Guessed guess e

/-- What `LoadedCorpus` is meant to return. -/
structure CompleteLookup (guess qualifier : Option CorpusName) (name : CorpusName) (type : Option CorpusType)
    (l : List (CorpusEntry α)) (result : Option (CorpusEntry α)) : Prop where
  some_iff : result.isSome ↔ ∃ e ∈ l, Admissible name type e ∧ Qualifies guess qualifier e
  sound : ∀ e ∈ result, e ∈ l ∧ Admissible name type e ∧ Qualifies guess qualifier e
  unique : ∀ e ∈ l, Admissible name type e → Qualifies guess qualifier e →
    (∀ e' ∈ l, Admissible name type e' → Qualifies guess qualifier e' → e' = e) → result = some e

/-- The entries of the name and type, in the order of the list. -/
def candidates (name : CorpusName) (type : Option CorpusType) (l : List (CorpusEntry α)) : List (CorpusEntry α) :=
  l.filter fun e => Admissible name type e

/-- If any of the entries has the property, then the first has the property `Q`. -/
def FirstDecides (P Q : CorpusEntry α → Prop) (l : List (CorpusEntry α)) : Prop := (∃ e ∈ l, P e) → ∃ e ∈ l.head?, Q e

/-- No entry that qualifies is hidden by one that does not. -/
def NothingHidden (guess qualifier : Option CorpusName) (l : List (CorpusEntry α)) : Prop :=
  match qualifier with
  | some q => FirstDecides (HasQualifier q) (HasQualifier q) l
  | none =>
    match l with
    | [] => True
    | e :: rest => Guessed guess e ∨ ∀ mother ∈ guess, FirstDecides (Guessed guess) (HasQualifier mother) rest

variable {e : CorpusEntry α}

section Loop

variable {guess qualifier : Option CorpusName} {name : CorpusName} {type : Option CorpusType} {l : List (CorpusEntry α)}

theorem candidates_cons_of_pos (h : Admissible name type e) :
    candidates name type (e :: l) = e :: candidates name type l := List.filter_cons_of_pos (by simpa using h)

theorem candidates_cons_of_neg (h : ¬Admissible name type e) :
    candidates name type (e :: l) = candidates name type l := List.filter_cons_of_neg (by simpa using h)

theorem mem_candidates : e ∈ candidates name type l ↔ e ∈ l ∧ Admissible name type e := by
  simp [candidates]

theorem loadedLoop_of_not_admissible (h : ¬Admissible name type e) :
    loadedLoop guess name type qualifier (e :: l) = loadedLoop guess name type qualifier l := by
  rw [Admissible] at h
  rw [loadedLoop_cons, if_neg h]

/-- With a qualifier the first candidate decides. -/
theorem loadedLoop_given (q : CorpusName) :
    loadedLoop guess name type (some q) l =
      (candidates name type l).head?.filter fun e => HasQualifier q e := by
  induction l with
  | nil => rfl
  | cons e l ih =>
    by_cases h : Admissible name type e
    · rw [candidates_cons_of_pos h, List.head?_cons, Option.filter_some]
      rw [Admissible] at h
      rw [loadedLoop_cons, if_pos h]
      simp only [decide_eq_true_eq]
      rfl
    · rw [loadedLoop_of_not_admissible h, candidates_cons_of_neg h, ih]

/-- Without one, only the first candidate is compared with what is guessed. -/
theorem loadedLoop_guessed :
    loadedLoop guess name type none l =
      match candidates name type l with
      | [] => none
      | e :: rest =>
        if Guessed guess e then some e else guess.bind fun mother => rest.head?.filter fun e => HasQualifier mother e := by
  induction l with
  | nil => rfl
  | cons e l ih =>
    by_cases h : Admissible name type e
    · rw [candidates_cons_of_pos h]
      rw [Admissible] at h
      rw [loadedLoop_cons, if_pos h]
      by_cases hsub : e.type = .sub
      · simp only [if_pos hsub]
        cases guess with
        | none =>
          have hguessed : Guessed none e := fun _ m hm => absurd hm (by simp)
          rw [if_pos hguessed]
        | some mother =>
          have hguessed : Guessed (some mother) e ↔ e.motherName = mother :=
            ⟨fun hg => hg hsub mother rfl, fun hm _ m hsome => Option.some.inj hsome ▸ hm⟩
          simp only [hguessed, Option.bind_some, loadedLoop_given]
      · simp only [if_neg hsub]
        have hguessed : Guessed guess e := fun hsub' => absurd hsub' hsub
        rw [if_pos hguessed]
    · rw [loadedLoop_of_not_admissible h, candidates_cons_of_neg h, ih]

/-- A guess that is met is met as a given qualifier too, by query results. -/
theorem HasQualifier.guessed {mother : CorpusName} (h : HasQualifier mother e) : Guessed (some mother) e := by
  intro hsub m hm
  obtain rfl := Option.some.inj hm
  rcases h with ⟨hsystem, -⟩ | ⟨-, hmother⟩
  · rw [hsub] at hsystem
    exact absurd hsystem (by decide)
  · exact hmother

end Loop

section Lookup

variable {guess qualifier : Option CorpusName} {name : CorpusName} {type : Option CorpusType} {l : List (CorpusEntry α)}
  {result : Option (CorpusEntry α)}

/-- The last condition follows from the others. -/
theorem completeLookup_iff : CompleteLookup guess qualifier name type l result ↔
    (∀ e ∈ result, e ∈ candidates name type l ∧ Qualifies guess qualifier e) ∧
      ((∃ e ∈ candidates name type l, Qualifies guess qualifier e) → result.isSome) := by
  simp only [mem_candidates]
  refine ⟨fun h => ⟨fun e he => ?_, fun ⟨e, ⟨hmem, hadm⟩, hq⟩ => h.some_iff.mpr ⟨e, hmem, hadm, hq⟩⟩,
    fun ⟨hsound, hcomplete⟩ => ?_⟩
  · obtain ⟨hmem, hadm, hq⟩ := h.sound e he
    exact ⟨⟨hmem, hadm⟩, hq⟩
  · have hfound : ∀ e ∈ l, Admissible name type e → Qualifies guess qualifier e →
        ∃ e', result = some e' ∧ e' ∈ l ∧ Admissible name type e' ∧ Qualifies guess qualifier e' := fun e hmem hadm hq => by
      obtain ⟨e', he'⟩ := Option.isSome_iff_exists.mp (hcomplete ⟨e, ⟨hmem, hadm⟩, hq⟩)
      obtain ⟨⟨hmem', hadm'⟩, hq'⟩ := hsound e' he'
      exact ⟨e', he', hmem', hadm', hq'⟩
    refine ⟨⟨fun hsome => ?_, fun ⟨e, hmem, hadm, hq⟩ => hcomplete ⟨e, ⟨hmem, hadm⟩, hq⟩⟩, fun e he => ?_,
      fun e hmem hadm hq honly => ?_⟩
    · obtain ⟨e, he⟩ := Option.isSome_iff_exists.mp hsome
      obtain ⟨⟨hmem, hadm⟩, hq⟩ := hsound e he
      exact ⟨e, hmem, hadm, hq⟩
    · obtain ⟨⟨hmem, hadm⟩, hq⟩ := hsound e he
      exact ⟨hmem, hadm, hq⟩
    · obtain ⟨e', he', hmem', hadm', hq'⟩ := hfound e hmem hadm hq
      rw [he', honly e' hmem' hadm' hq']

/-- A choice that takes the first entry if that has the property `Q`. -/
theorem head_filter_complete_iff {P Q : CorpusEntry α → Prop} [DecidablePred Q] (hPQ : ∀ e, Q e → P e)
    (rest : List (CorpusEntry α)) :
    ((∀ e ∈ rest.head?.filter fun e => Q e, e ∈ rest ∧ P e) ∧
      ((∃ e ∈ rest, P e) → (rest.head?.filter fun e => Q e).isSome)) ↔ FirstDecides P Q rest := by
  cases rest with
  | nil => simp [FirstDecides]
  | cons e rest =>
    simp only [FirstDecides, List.head?_cons, Option.filter_some]
    by_cases hQ : Q e
    · simp [hQ, hPQ e hQ]
    · simp [hQ]

theorem loadedLoop_complete_iff : CompleteLookup guess qualifier name type l (loadedLoop guess name type qualifier l) ↔
    NothingHidden guess qualifier (candidates name type l) := by
  rw [completeLookup_iff]
  cases qualifier with
  | some q =>
    rw [loadedLoop_given]
    exact head_filter_complete_iff (fun e he => he) _
  | none =>
    rw [loadedLoop_guessed]
    cases candidates name type l with
    | nil => simp [NothingHidden]
    | cons e rest =>
      by_cases hguessed : Guessed guess e
      · simp [NothingHidden, Qualifies, hguessed]
      · cases guess with
        | none => exact absurd (fun _ m hm => absurd hm (by simp)) hguessed
        | some mother =>
          have hrest := head_filter_complete_iff (Q := HasQualifier mother) (fun e he => he.guessed) rest
          simp only [NothingHidden, Qualifies, hguessed, if_false, Option.bind_some, false_or, Option.mem_def,
            Option.some.injEq, forall_eq', ← hrest]
          have hmem : ∀ e' : CorpusEntry α, Guessed (some mother) e' → (e' ∈ e :: rest ↔ e' ∈ rest) := fun e' hg => by
            simp only [List.mem_cons, or_iff_right_iff_imp]
            rintro rfl
            exact absurd hg hguessed
          refine and_congr (forall₂_congr fun e' _ => and_congr_left (hmem e')) ?_
          simp only [List.mem_cons, exists_eq_or_imp, hguessed, false_or]

end Lookup

/-- `LoadedCorpus` is a complete lookup exactly if nothing is hidden. -/
theorem loadedCorpus_complete_iff (st : QueryStore α) (name : CorpusName) (qualifier : Option CorpusName)
    (type : Option CorpusType) :
    CompleteLookup st.currentMother qualifier name type st.corpuslist (st.loadedCorpus name qualifier type) ↔
      NothingHidden st.currentMother qualifier (candidates name type st.corpuslist) :=
  loadedLoop_complete_iff

/-- Query results `A` of two corpora, with none of them active. -/
def twoMothers : QueryStore Unit where
  corpuslist := [⟨0, .sub, ['A'], ['X'], [], ()⟩, ⟨1, .sub, ['A'], ['Y'], [], ()⟩]
  nextId := 2

/-- `X:A` hides `Y:A`. -/
theorem loadedCorpus_hidden :
    ¬∀ (st : QueryStore Unit) (name : CorpusName) (qualifier : Option CorpusName) (type : Option CorpusType),
      CompleteLookup st.currentMother qualifier name type st.corpuslist (st.loadedCorpus name qualifier type) := by
  intro h
  have hsome := (h twoMothers ['A'] (some ['Y']) none).some_iff.mpr
    ⟨⟨1, .sub, ['A'], ['Y'], [], ()⟩, by simp [twoMothers], by decide, .inr ⟨rfl, rfl⟩⟩
  exact absurd hsome (by decide)

end CWB.QueryStore
