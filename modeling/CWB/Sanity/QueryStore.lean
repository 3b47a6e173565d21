import CWB.Spec.QueryStore

/-! The list of query results with unique names: what a lookup finds in it, and what one assignment
does to it. -/

namespace CWB

open List Split

variable {α : Type}

/-- How two entries of the list differ, in this order: query results have different names and come
before system corpora. -/
structure CorpusEntry.Apart (e e' : CorpusEntry α) : Prop where
  ids : e.id ≠ e'.id
  names : e.type = .sub → e'.type = .sub → e.name ≠ e'.name
  system : e.type = .system → e'.type = .system

variable {l : List (CorpusEntry α)} {qualifier guess : Option CorpusName}

namespace QueryStore

structure Inv (st : QueryStore α) : Prop where
  apart : st.corpuslist.Pairwise CorpusEntry.Apart
  below : ∀ e ∈ st.corpuslist, e.id < st.nextId

variable {st st' : QueryStore α} {e e' : CorpusEntry α} {name : CorpusName} {p : ℕ}

theorem pairwise_inj {β : Type} {R : β → β → Prop} {l : List β} (h : l.Pairwise R) {P : β → β → Prop}
    (hR : ∀ a b, R a b → ¬P a b ∧ ¬P b a) {a b : β} (ha : a ∈ l) (hb : b ∈ l) (hP : P a b) : a = b := by
  induction l with
  | nil => cases ha
  | cons c l ih =>
    obtain ⟨hc, hl⟩ := pairwise_cons.mp h
    obtain heqa | ha := mem_cons.mp ha
    · obtain heqb | hb := mem_cons.mp hb
      · rw [heqa, heqb]
      · rw [heqa] at hP
        exact absurd hP (hR c b (hc b hb)).1
    · obtain heqb | hb := mem_cons.mp hb
      · rw [heqb] at hP
        exact absurd hP (hR c a (hc a ha)).2
      · exact ih hl ha hb

theorem Inv.eq_of_id (h : st.Inv) (he : e ∈ st.corpuslist) (he' : e' ∈ st.corpuslist) (hid : e.id = e'.id) : e = e' :=
  pairwise_inj h.apart (P := fun a b => a.id = b.id) (fun _ _ hab => ⟨hab.ids, fun heq => hab.ids heq.symm⟩) he he' hid

theorem Inv.eq_of_name (h : st.Inv) (he : e ∈ st.corpuslist) (he' : e' ∈ st.corpuslist) (ht : e.type = .sub)
    (ht' : e'.type = .sub) (hname : e.name = e'.name) : e = e' :=
  pairwise_inj h.apart (P := fun a b => a.type = .sub ∧ b.type = .sub ∧ a.name = b.name)
    (fun _ _ hab => ⟨fun hp => hab.names hp.1 hp.2.1 hp.2.2, fun hp => hab.names hp.2.1 hp.1 hp.2.2.symm⟩)
    he he' ⟨ht, ht', hname⟩

theorem get?_mem (h : st.get? p = some e) : e ∈ st.corpuslist ∧ e.id = p :=
  ⟨mem_of_find?_eq_some h, by simpa using find?_some h⟩

/-! ## Lookup -/

/-- Is `e` a query result of this name? -/
def IsSub (name : CorpusName) (e : CorpusEntry α) : Prop := e.type = .sub ∧ e.name = name

theorem loadedLoop_cons (guess : Option CorpusName) (name : CorpusName) (type : Option CorpusType)
    (qualifier : Option CorpusName) (corp : CorpusEntry α) (rest : List (CorpusEntry α)) :
    loadedLoop guess name type qualifier (corp :: rest) =
      if (type = some corp.type ∨ (type = none ∧ corp.type ≠ .temp)) ∧ corp.name = name then
        match qualifier with
        | none =>
          if corp.type = .sub then
            match guess with
            | some mother =>
              if corp.motherName = mother then some corp else loadedLoop guess name type (some mother) rest
            | none => some corp
          else some corp
        | some qualifier =>
          if (corp.type = .system ∧ corp.registry = qualifier) ∨ (corp.type = .sub ∧ corp.motherName = qualifier) then
            some corp
          else none
      else loadedLoop guess name type qualifier rest := by
  cases qualifier with
  | none => rfl
  | some q => rfl

theorem loadedLoop_none (h : ∀ e ∈ l, ¬IsSub name e) : loadedLoop guess name (some .sub) qualifier l = none := by
  induction l with
  | nil => rfl
  | cons e l ih =>
    have he := h e mem_cons_self
    rw [loadedLoop_cons, if_neg]
    · exact ih fun e' he' => h e' (mem_cons_of_mem e he')
    · intro hc
      refine he ⟨?_, hc.2⟩
      obtain ht | ⟨hn, -⟩ := hc.1
      · exact (Option.some.inj ht).symm
      · cases hn

/-- With unique names the qualifier, given or guessed, only has to be that of the entry. -/
theorem loadedLoop_some (hl : l.Pairwise CorpusEntry.Apart) (he : e ∈ l) (hsub : IsSub name e) :
    loadedLoop guess name (some .sub) qualifier l =
      if ∀ mother, qualifier.or guess = some mother → e.motherName = mother then some e else none := by
  induction l with
  | nil => cases he
  | cons c l ih =>
    obtain ⟨hc, hl'⟩ := pairwise_cons.mp hl
    obtain rfl | he := mem_cons.mp he
    · have hrest : ∀ q, loadedLoop guess name (some .sub) q l = none := fun q =>
        loadedLoop_none fun e' he' hsub' => (hc e' he').names hsub.1 hsub'.1 (hsub.2.trans hsub'.2.symm)
      rw [loadedLoop_cons, if_pos ⟨.inl (congrArg some hsub.1.symm), hsub.2⟩]
      cases qualifier with
      | none =>
        simp only [if_pos hsub.1, Option.none_or]
        cases guess with
        | none => simp
        | some mother =>
          simp only [hrest, Option.some.injEq, forall_eq']
      | some q => simp [hsub.1]
    · rw [loadedLoop_cons, if_neg, ih hl' he]
      intro hcond
      obtain ht | ⟨hn, -⟩ := hcond.1
      · exact (hc e he).names (Option.some.inj ht).symm hsub.1 (hcond.2.trans hsub.2.symm)
      · cases hn

/-- A search for any type also finds the query result, which no system corpus precedes. -/
theorem loadedLoop_undef (hl : l.Pairwise CorpusEntry.Apart)
    (he : e ∈ l) (hsub : IsSub name e) : loadedLoop guess name none (some e.motherName) l = some e := by
  induction l with
  | nil => cases he
  | cons c l ih =>
    obtain ⟨hc, hl'⟩ := pairwise_cons.mp hl
    obtain rfl | he := mem_cons.mp he
    · rw [loadedLoop_cons, if_pos ⟨.inr ⟨rfl, by rw [hsub.1]; decide⟩, hsub.2⟩]
      simp [hsub.1]
    · rw [loadedLoop_cons, if_neg, ih hl' he]
      intro hcond
      obtain ht | ⟨-, htype⟩ := hcond.1
      · cases ht
      · have hap := hc e he
        cases hct : c.type with
        | system => exact absurd ((hap.system hct).symm.trans hsub.1) (by decide)
        | sub => exact hap.names hct hsub.1 (hcond.2.trans hsub.2.symm)
        | temp => exact htype hct

theorem Inv.loadedCorpus_some (h : st.Inv)
    (hl : st.loadedCorpus name qualifier (some .sub) = some e) : e ∈ st.corpuslist ∧ IsSub name e := by
  by_cases hex : ∃ e' ∈ st.corpuslist, IsSub name e'
  · obtain ⟨e', he', hsub⟩ := hex
    rw [loadedCorpus, loadedLoop_some h.apart he' hsub] at hl
    split_ifs at hl
    cases hl
    exact ⟨he', hsub⟩
  · rw [loadedCorpus, loadedLoop_none fun e' he' hsub => hex ⟨e', he', hsub⟩] at hl
    cases hl

theorem parseName_local (h : ':' ∉ name) (type : Option CorpusType) : parseName name type = (none, name) := by
  rw [parseName, splitAtFirst_eq_none.mpr h]
  split_ifs
  · rfl
  · rfl

theorem parseName_qualified {mother : CorpusName} (hne : mother ≠ []) (h : ':' ∉ mother) {type : Option CorpusType}
    (htype : type ≠ some .system) : parseName (mother ++ ':' :: name) type = (some mother, name) := by
  rw [parseName, if_neg htype, splitAtFirst_append h]
  simp [hne]

/-! ## Entries -/

theorem mem_modify {f : CorpusEntry α → CorpusEntry α} :
    e ∈ (st.modify p f).corpuslist ↔ ∃ a ∈ st.corpuslist, (if a.id = p then f a else a) = e := by
  rw [modify]
  exact mem_map

/-- An entry may change its contents, and a temporary corpus may become a result of a new name. -/
theorem Inv.modify (h : st.Inv) {f : CorpusEntry α → CorpusEntry α} (hid : ∀ e, (f e).id = e.id)
    (hf : ∀ e ∈ st.corpuslist, e.id = p → ((f e).type = e.type ∧ (e.type = .sub → (f e).name = e.name)) ∨
      (e.type = .temp ∧ (f e).type = .sub ∧ ∀ e' ∈ st.corpuslist, ¬IsSub (f e).name e')) : (st.modify p f).Inv where
  apart := by
    rw [QueryStore.modify]
    apply pairwise_map.mpr
    apply h.apart.imp_of_mem
    intro a b ha hb hab
    have hids := hab.ids
    split_ifs with hap hbp hbp
    · exact absurd (hap.trans hbp.symm) hids
    · refine ⟨by rw [hid]; exact hids, fun hat hbt hname => ?_, fun hat => ?_⟩
      · obtain ⟨htype, hkeep⟩ | ⟨-, -, hnew⟩ := hf a ha hap
        · rw [htype] at hat
          exact hab.names hat hbt (by rw [← hkeep hat]; exact hname)
        · exact hnew b hb ⟨hbt, hname.symm⟩
      · obtain ⟨htype, -⟩ | ⟨-, hsub, -⟩ := hf a ha hap
        · exact hab.system (htype.symm.trans hat)
        · rw [hsub] at hat
          cases hat
    · refine ⟨by rw [hid]; exact hids, fun hat hbt hname => ?_, fun hat => ?_⟩
      · obtain ⟨htype, hkeep⟩ | ⟨-, -, hnew⟩ := hf b hb hbp
        · rw [htype] at hbt
          exact hab.names hat hbt (by rw [← hkeep hbt]; exact hname)
        · exact hnew a ha ⟨hat, hname⟩
      · have hbs := hab.system hat
        obtain ⟨htype, -⟩ | ⟨htemp, -⟩ := hf b hb hbp
        · rw [htype]
          exact hbs
        · rw [hbs] at htemp
          cases htemp
    · exact hab
  below := by
    intro e he
    obtain ⟨a, ha, rfl⟩ := mem_modify.mp he
    have hlt := h.below a ha
    split_ifs
    · rw [hid]
      exact hlt
    · exact hlt

theorem Inv.filter (h : st.Inv) (hl : l.Sublist st.corpuslist) (current : Option ℕ) :
    ({ st with corpuslist := l, current } : QueryStore α).Inv where
  apart := h.apart.sublist hl
  below := fun e he => h.below e (hl.subset he)

theorem Inv.insert (h : st.Inv) {type : CorpusType} (htype : type ≠ .system)
    (hnew : type = .sub → ∀ e ∈ st.corpuslist, ¬IsSub name e) (mother registry : CorpusName) (data : α) :
    (st.insert type name mother registry data).Inv where
  apart := by
    apply pairwise_cons.mpr
    refine ⟨fun e he => ⟨(h.below e he).ne', fun ht ht' hname => hnew ht e he ⟨ht', hname.symm⟩, fun ht => absurd ht htype⟩, h.apart⟩
  below := by
    intro e he
    obtain rfl | he := mem_cons.mp he
    · exact Nat.lt_succ_self _
    · exact (h.below e he).trans (Nat.lt_succ_self _)

theorem mem_dropcorpus : e ∈ (st.dropcorpus p).corpuslist ↔ e ∈ st.corpuslist ∧ e.id ≠ p := by
  rw [dropcorpus]
  simp

theorem Inv.dropcorpus (h : st.Inv) (p : ℕ) : (st.dropcorpus p).Inv :=
  h.filter filter_sublist _

/-! ## What an assignment does -/

/-- The query results of the list, by mother corpus and name. -/
def Represents (st : QueryStore α) (last : CorpusName → CorpusName → Option α) : Prop :=
  ∀ mother name data, last mother name = some data ↔
    ∃ e ∈ st.corpuslist, IsSub name e ∧ e.motherName = mother ∧ e.data = data

/-- The result of this name is as assigned, and the others are as before. -/
structure Assigned (st st' : QueryStore α) (mother name : CorpusName) (data : Option α) : Prop where
  inv : st'.Inv
  others : ∀ e : CorpusEntry α, e.type = .sub → e.name ≠ name → (e ∈ st'.corpuslist ↔ e ∈ st.corpuslist)
  here : ∀ d, data = some d ↔ ∃ e ∈ st'.corpuslist, IsSub name e ∧ e.motherName = mother ∧ e.data = d
  only : ∀ e ∈ st'.corpuslist, IsSub name e → e.motherName = mother

theorem Assigned.represents {mother : CorpusName} {data : Option α} (h : Assigned st st' mother name data)
    (hbefore : ∀ e ∈ st.corpuslist, IsSub name e → e.motherName = mother) {last : CorpusName → CorpusName → Option α}
    (hr : st.Represents last) :
    st'.Represents fun m n => if mother = m ∧ name = n then data else last m n := by
  intro m n d
  beta_reduce
  by_cases hname : name = n
  · subst hname
    by_cases hmother : mother = m
    · subst hmother
      rw [if_pos ⟨rfl, rfl⟩]
      exact h.here d
    · rw [if_neg fun hc => hmother hc.1, hr]
      constructor
      · intro hex
        obtain ⟨e, he, hsub, hm, -⟩ := hex
        exact absurd ((hbefore e he hsub).symm.trans hm) hmother
      · intro hex
        obtain ⟨e, he, hsub, hm, -⟩ := hex
        exact absurd ((h.only e he hsub).symm.trans hm) hmother
  · rw [if_neg fun hc => hname hc.2, hr]
    have hiff : ∀ e : CorpusEntry α, IsSub n e → (e ∈ st'.corpuslist ↔ e ∈ st.corpuslist) := fun e hsub =>
      h.others e hsub.1 fun heq => hname (heq.symm.trans hsub.2)
    constructor
    · intro hex
      obtain ⟨e, he, hsub, hm, hd⟩ := hex
      exact ⟨e, (hiff e hsub).mpr he, hsub, hm, hd⟩
    · intro hex
      obtain ⟨e, he, hsub, hm, hd⟩ := hex
      exact ⟨e, (hiff e hsub).mp he, hsub, hm, hd⟩

theorem Assigned.frame {a : Assignment α} (h : Assigned a.before a.after a.mother a.name a.data)
    (hbefore : ∀ e ∈ a.before.corpuslist, IsSub a.name e → e.motherName = a.mother) : a.Frame := by
  intro e hsub hne
  by_cases hname : e.name = a.name
  · have hmother : e.motherName ≠ a.mother := fun hm => hne (Prod.ext hm hname)
    exact ⟨fun he => absurd (h.only e he ⟨hsub, hname⟩) hmother, fun he => absurd (hbefore e he ⟨hsub, hname⟩) hmother⟩
  · exact h.others e hsub hname

/-- A list with one entry of this name, the others being those of `st`. -/
theorem assigned_of_entry {mother : CorpusName} {d : α} (hinv : st'.Inv) (he : e ∈ st'.corpuslist)
    (hsub : IsSub name e) (hm : e.motherName = mother) (hd : e.data = d)
    (hothers : ∀ e : CorpusEntry α, e.type = .sub → e.name ≠ name → (e ∈ st'.corpuslist ↔ e ∈ st.corpuslist)) :
    Assigned st st' mother name (some d) where
  inv := hinv
  others := hothers
  here := fun d' => by
    constructor
    · intro heq
      cases heq
      exact ⟨e, he, hsub, hm, hd⟩
    · intro hex
      obtain ⟨e', he', hsub', -, rfl⟩ := hex
      rw [hinv.eq_of_name he' he hsub'.1 hsub.1 (hsub'.2.trans hsub.2.symm), hd]
  only := fun e' he' hsub' => by
    rw [hinv.eq_of_name he' he hsub'.1 hsub.1 (hsub'.2.trans hsub.2.symm)]
    exact hm

/-- An old result `c` of this name is overwritten. -/
theorem overwritten (cl : CorpusEntry α) {c : CorpusEntry α} (h : st.Inv) (hc : c ∈ st.corpuslist) (hsub : IsSub name c) :
    Assigned st (st.modify c.id fun e => ⟨e.id, .sub, name, cl.motherName, cl.registry, cl.data⟩) cl.motherName name
      (some cl.data) := by
  have hinv : (st.modify c.id fun e => ⟨e.id, .sub, name, cl.motherName, cl.registry, cl.data⟩).Inv := by
    refine h.modify (fun _ => ?_) fun e he hid => ?_
    · rfl
    · rw [h.eq_of_id he hc hid]
      exact .inl ⟨hsub.1.symm, fun _ => hsub.2.symm⟩
  refine assigned_of_entry (e := ⟨c.id, .sub, name, cl.motherName, cl.registry, cl.data⟩) hinv
    (mem_modify.mpr ⟨c, hc, if_pos rfl⟩) ⟨rfl, rfl⟩ rfl rfl fun e ht hne => ?_
  rw [mem_modify]
  constructor
  · intro hex
    obtain ⟨a, ha, rfl⟩ := hex
    split_ifs at ht hne ⊢ with hid
    · exact absurd rfl hne
    · exact ha
  · intro he
    refine ⟨e, he, if_neg fun hid => hne ?_⟩
    rw [h.eq_of_id he hc hid]
    exact hsub.2

theorem duplicate_assigned {cl : CorpusEntry α} (h : st.Inv) (htype : cl.type ≠ .system)
    (hself : ∀ e ∈ st.corpuslist, e.id = cl.id → IsSub name e → e = cl)
    (hbefore : ∀ e ∈ st.corpuslist, IsSub name e → e.motherName = cl.motherName) :
    Assigned st (st.duplicateCorpus cl name).1 cl.motherName name (some cl.data) ∧
      ∃ e ∈ (st.duplicateCorpus cl name).1.corpuslist, e.id = (st.duplicateCorpus cl name).2 ∧ e.type = .sub := by
  rw [duplicateCorpus, if_neg htype]
  cases hl : st.loadedCorpus name (some cl.motherName) (some .sub) with
  | none =>
    have hnew : ∀ e ∈ st.corpuslist, ¬IsSub name e := by
      intro e he hsub
      rw [loadedCorpus, loadedLoop_some h.apart he hsub, if_pos] at hl
      · cases hl
      · intro mother hm
        cases hm
        exact hbefore e he hsub
    refine ⟨assigned_of_entry (e := ⟨st.nextId, .sub, name, cl.motherName, cl.registry, cl.data⟩)
      (h.insert (by decide) (fun _ => hnew) _ _ _) mem_cons_self ⟨rfl, rfl⟩ rfl rfl fun e ht hne => ?_,
      _, mem_cons_self, rfl, rfl⟩
    rw [insert, mem_cons]
    exact ⟨fun he => he.resolve_left fun heq => hne (by rw [heq]), .inr⟩
  | some newc =>
    obtain ⟨hmem, hsub⟩ := h.loadedCorpus_some hl
    simp only
    split_ifs with hid
    · have heq := hself newc hmem hid hsub
      rw [heq] at hmem hsub
      exact ⟨assigned_of_entry h hmem hsub rfl rfl fun _ _ _ => Iff.rfl, cl, hmem, rfl, hsub.1⟩
    · exact ⟨overwritten cl h hmem hsub, _, mem_modify.mpr ⟨newc, hmem, if_pos rfl⟩, rfl, rfl⟩

theorem assignTemp_assigned {tmp : CorpusEntry α} (h : st.Inv) (htmp : tmp ∈ st.corpuslist) (htemp : tmp.type = .temp)
    (hlocal : ':' ∉ name) (hbefore : ∀ e ∈ st.corpuslist, IsSub name e → e.motherName = tmp.motherName)
    (hguess : ∀ e ∈ st.corpuslist, IsSub name e →
      '^' ∉ name ∧ ∀ mother, st.currentMother = some mother → mother = tmp.motherName) :
    Assigned st (st.assignTempToSub tmp name).1 tmp.motherName name (some tmp.data) ∧
      ∃ e ∈ (st.assignTempToSub tmp name).1.corpuslist, e.id = (st.assignTempToSub tmp name).2 ∧ e.type = .sub := by
  rw [assignTempToSub]
  have hfind : st.findLoaded name (some .sub) = if '^' ∈ name then none else st.loadedCorpus name none (some .sub) := by
    rw [findLoaded, parseName_local hlocal]
  cases hl : st.findLoaded name (some .sub) with
  | none =>
    have hnew : ∀ e ∈ st.corpuslist, ¬IsSub name e := by
      intro e he hsub
      obtain ⟨hexp, hmother⟩ := hguess e he hsub
      rw [hfind, if_neg hexp, loadedCorpus, loadedLoop_some h.apart he hsub, if_pos] at hl
      · cases hl
      · intro mother hm
        rw [Option.none_or] at hm
        rw [hmother mother hm]
        exact hbefore e he hsub
    have hinv : (st.modify tmp.id fun e => ⟨e.id, .sub, name, e.motherName, e.registry, e.data⟩).Inv := by
      refine h.modify (fun _ => ?_) fun e he hid => ?_
      · rfl
      · rw [h.eq_of_id he htmp hid]
        exact .inr ⟨htemp, rfl, hnew⟩
    have hmem : (⟨tmp.id, .sub, name, tmp.motherName, tmp.registry, tmp.data⟩ : CorpusEntry α) ∈
        (st.modify tmp.id fun e => ⟨e.id, .sub, name, e.motherName, e.registry, e.data⟩).corpuslist :=
      mem_modify.mpr ⟨tmp, htmp, if_pos rfl⟩
    refine ⟨assigned_of_entry hinv hmem ⟨rfl, rfl⟩ rfl rfl fun e ht hne => ?_, _, hmem, rfl, rfl⟩
    rw [mem_modify]
    constructor
    · intro hex
      obtain ⟨a, ha, rfl⟩ := hex
      split_ifs at ht hne ⊢ with hid
      · exact absurd rfl hne
      · exact ha
    · intro he
      refine ⟨e, he, if_neg fun hid => ?_⟩
      rw [h.eq_of_id he htmp hid, htemp] at ht
      cases ht
  | some cl =>
    rw [hfind] at hl
    split_ifs at hl
    obtain ⟨hmem, hsub⟩ := h.loadedCorpus_some hl
    have hover := overwritten tmp h hmem hsub
    have hids : cl.id ≠ tmp.id := fun hid => by
      rw [h.eq_of_id hmem htmp hid, IsSub, htemp] at hsub
      cases hsub.1
    have hnew : (⟨cl.id, .sub, name, tmp.motherName, tmp.registry, tmp.data⟩ : CorpusEntry α) ∈
        ((st.modify cl.id fun e => ⟨e.id, .sub, name, tmp.motherName, tmp.registry, tmp.data⟩).dropcorpus tmp.id).corpuslist :=
      mem_dropcorpus.mpr ⟨mem_modify.mpr ⟨cl, hmem, if_pos rfl⟩, hids⟩
    refine ⟨assigned_of_entry (hover.inv.dropcorpus _) hnew ⟨rfl, rfl⟩ rfl rfl fun e ht hne => ?_, _, hnew, rfl, rfl⟩
    rw [mem_dropcorpus, hover.others e ht hne]
    refine ⟨fun he => he.1, fun he => ⟨he, fun hid => ?_⟩⟩
    rw [h.eq_of_id he htmp hid, htemp] at ht
    cases ht

end QueryStore

end CWB
