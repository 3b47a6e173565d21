import CWB.Library.Block
import CWB.Proofs.ClAccess
import CWB.Spec.CqiHandlers

/-! Requests to the CQi server and their replies. A request is answered as the protocol has it if
one reply is sent, which is an error exactly if the operation failed, and nothing of the request is
left on the connection. For each command there is a condition under which this is the case. -/

namespace CWB.Cqi

open List Option

/-! ## Replies -/

/-- One message of the protocol. The announced length of a list is the number of its elements. -/
inductive OneReply : List CqiValue → Prop
  | status : OneReply [sentWord .statusOk]
  | error {w : CqiWord} (h : w.isError = true) : OneReply [sentWord w]
  | bool (b : Bool) : OneReply [sentWord .dataBool, .bool b]
  | int (n : CInt) : OneReply [sentWord .dataInt, .int n]
  | intInt (n m : CInt) : OneReply [sentWord .dataIntInt, .int n, .int m]
  | intIntIntInt (n m k l : CInt) : OneReply [sentWord .dataIntIntIntInt, .int n, .int m, .int k, .int l]
  | intList {n : CInt} {elems : List CInt} (h : n.toInt = elems.length) :
      OneReply (sentWord .dataIntList :: .int n :: elems.map .int)
  | stringList {n : CInt} {elems : List CString} (h : n.toInt = elems.length) :
      OneReply (sentWord .dataStringList :: .int n :: elems.map .string)
  | intTable {rows cols : CInt} {elems : List CInt} (h : rows.toInt * cols.toInt = elems.length) :
      OneReply (sentWord .dataIntTable :: .int rows :: .int cols :: elems.map .int)

def IsErrorReply (reply : List CqiValue) : Prop := ∃ w : CqiWord, w.isError = true ∧ reply = [sentWord w]

/-- One reply is sent, which is an error exactly if the operation fails. -/
def Handler.Answers (handler : Handler) (st : CqiServer) (succeeds : Prop) : Prop :=
  ∃ reply st', handler st = some (reply, st') ∧ OneReply reply ∧ (IsErrorReply reply ↔ ¬succeeds)

variable {env : CqiEnv} {st : CqiServer} {succeeds : Prop}

theorem isError_congr {w w' : CqiWord} (h : w.toWord = w'.toWord) : w.isError = w'.isError := by
  rw [CqiWord.isError, h, CqiWord.isError]

variable {st' : CqiServer}

theorem answers_congr {handler handler' : Handler} (h : handler st = handler' st') :
    handler.Answers st succeeds ↔ handler'.Answers st' succeeds := by
  unfold Handler.Answers
  rw [h]

theorem answers_iff {handler : Handler} {reply : List CqiValue} (h : handler st = some (reply, st'))
    (hone : OneReply reply) : handler.Answers st succeeds ↔ (IsErrorReply reply ↔ ¬succeeds) := by
  refine ⟨?_, fun hiff => ⟨reply, st', h, hone, hiff⟩⟩
  rintro ⟨reply', st'', h', -, hiff⟩
  obtain ⟨rfl, -⟩ := Prod.mk.inj (some.inj (h.symm.trans h'))
  exact hiff

theorem answers_error {handler : Handler} {w : CqiWord} (h : handler st = some ([sentWord w], st'))
    (hw : w.isError = true) : handler.Answers st succeeds ↔ ¬succeeds := by
  rw [answers_iff h (.error hw)]
  exact ⟨fun hiff => hiff.mp ⟨w, hw, rfl⟩, fun hfail => ⟨fun _ => hfail, fun _ => ⟨w, hw, rfl⟩⟩⟩

/-- A reply that is no error. -/
theorem answers_data {handler : Handler} {reply : List CqiValue} (h : handler st = some (reply, st'))
    (hone : OneReply reply) (hdata : ¬IsErrorReply reply) : handler.Answers st succeeds ↔ succeeds := by
  rw [answers_iff h hone]
  refine ⟨fun hiff => ?_, fun hs => ⟨fun herr => absurd herr hdata, fun hfail => absurd hs hfail⟩⟩
  by_contra hfail
  exact hdata (hiff.mpr hfail)

theorem not_answers_of_none {handler : Handler} (h : handler st = none) : ¬handler.Answers st succeeds := by
  rintro ⟨reply, st', h', -⟩
  rw [h] at h'
  cases h'

theorem not_isErrorReply_cons {v v' : CqiValue} {rest : List CqiValue} : ¬IsErrorReply (v :: v' :: rest) := by
  rintro ⟨w, -, h⟩
  cases h

theorem answers_statusOk : (cqiCommand .statusOk).Answers st succeeds ↔ succeeds := by
  apply answers_data rfl .status
  rintro ⟨w, hw, h⟩
  have hword : CqiWord.statusOk.toWord = w.toWord := by
    have := head_eq_of_cons_eq h
    unfold sentWord at this
    exact CqiValue.word.inj this
  rw [← isError_congr hword] at hw
  exact absurd hw (by decide)

theorem answers_cqiCommand {w : CqiWord} (hw : w.isError = true) : (cqiCommand w).Answers st succeeds ↔ ¬succeeds :=
  answers_error rfl hw

theorem answers_cqiDataInt (n : ℤ) : (cqiDataInt n).Answers st succeeds ↔ succeeds :=
  answers_data rfl (.int _) not_isErrorReply_cons

theorem answers_cqiDataBool (b : Bool) : (cqiDataBool b).Answers st succeeds ↔ succeeds :=
  answers_data rfl (.bool b) not_isErrorReply_cons

theorem answers_cqiDataIntList {list : List ℕ} (hlen : list.length < 2 ^ 31) :
    (cqiDataIntList list).Answers st succeeds ↔ succeeds := by
  apply answers_data rfl _ not_isErrorReply_cons
  have hmap : (list.map fun n => CqiValue.int (BitVec.ofNat 32 n)) = (list.map fun n => BitVec.ofNat 32 n).map .int := by
    rw [List.map_map]
    rfl
  rw [hmap]
  apply OneReply.intList
  rw [length_map]
  exact Block.toInt_count hlen

theorem answers_sendClError : sendClError.Answers st succeeds ↔ st.clErrno.mapped = true ∧ ¬succeeds := by
  by_cases hm : st.clErrno.mapped = true
  · have hsent : ∃ w : CqiWord, w.isError = true ∧ sendClError st = some ([sentWord w], st) := by
      unfold sendClError
      revert hm
      cases st.clErrno <;> intro hm <;> first | exact ⟨_, rfl, rfl⟩ | cases hm
    obtain ⟨w, hw, h⟩ := hsent
    rw [answers_error h hw, and_iff_right hm]
  · have hnone : sendClError st = none := by
      unfold sendClError
      revert hm
      cases st.clErrno <;> intro hm <;> first | rfl | exact absurd rfl hm
    exact ⟨fun ha => absurd ha (not_answers_of_none hnone), fun ha => absurd ha.1 hm⟩

/-! ## Look-up -/

variable {type : AttType}

section Lookup

/-- What `cqi_lookup_attribute` opens for a name that it has not seen before. -/
def openAttribute (env : CqiEnv) (st : CqiServer) (name : CString) (type : AttType) : Option ClAttribute :=
  match splitAttributeSpec env (nameOf name) with
  | none => none
  | some (corpusName, attributeName) =>
    match (st.store.findLoaded corpusName (some .system)).filter env.accessCorpus with
    | none => none
    | some cl => (clNewAttribute cl.data.corpus attributeName type).map Subtype.val

/-- The attribute that an earlier look-up has left. -/
def cachedAttribute (st : CqiServer) (name : CString) : Option ClAttribute :=
  (attBucket st.attHash name).bind fun p => (st.attHash.getD p none).bind AttBucket.att

def attributeOf (env : CqiEnv) (st : CqiServer) (name : CString) (type : AttType) : Option ClAttribute :=
  match cachedAttribute st name with
  | some a => if a.type = type then some a else none
  | none => openAttribute env st name type

/-- The hash of attributes has a bucket for the name. -/
def HasBucket (st : CqiServer) (name : CString) : Prop := attBucket st.attHash name ≠ none

variable {name : CString}

theorem attributeOf_type {a : ClAttribute} (h : attributeOf env st name type = some a) :
    a.type = type := by
  unfold attributeOf at h
  split at h
  · obtain ⟨htype, ha⟩ := ite_none_right_eq_some.mp h
    obtain rfl := some.inj ha
    exact htype
  · unfold openAttribute at h
    split at h
    · cases h
    · split at h
      · cases h
      · obtain ⟨a', -, rfl⟩ := map_eq_some_iff.mp h
        exact a'.2

theorem probe_eq (space : List (Option AttBucket)) (str : CString) (i p : ℕ) :
    probe space str i p = OpenAddressing.probe AttBucket.string space str i p := by
  induction i generalizing p with
  | zero => rfl
  | succ i ih =>
    simp only [probe, OpenAddressing.probe, ih]
    generalize space[if p ≥ space.length then 0 else p]? = bucket
    cases bucket with
    | none => rfl
    | some bucket =>
      cases bucket with
      | none => rfl
      | some b => rfl

theorem probe_found {space : List (Option AttBucket)} {str : CString} {i p₀ p : ℕ} (h : probe space str i p₀ = some p) :
    p < space.length ∧ ∀ b, space.getD p none = some b → b.string = str := by
  rw [probe_eq] at h
  have hstop := OpenAddressing.probe_stops h
  exact ⟨hstop.lt_length, fun b hb => hstop.key_eq hb⟩

theorem attBucket_set {space : List (Option AttBucket)} {str : CString} {p : ℕ} (h : attBucket space str = some p)
    {b : AttBucket} (hb : b.string = str) : attBucket (space.set p (some b)) str = some p := by
  unfold attBucket at h ⊢
  rw [length_set]
  rw [probe_eq] at h ⊢
  exact OpenAddressing.probe_set h hb

/-- The bucket of a name, initialised if it was not. -/
def nameBucket (st : CqiServer) (name : CString) (p : ℕ) : AttBucket :=
  (st.attHash.getD p none).getD ⟨name, none, .none, AttBucket.type_none⟩

theorem nameBucket_string {p : ℕ} (hp : attBucket st.attHash name = some p) :
    (nameBucket st name p).string = name := by
  unfold nameBucket
  cases hb : st.attHash.getD p none with
  | none => rfl
  | some b => exact (probe_found hp).2 b hb

theorem cachedAttribute_eq {p : ℕ} (hp : attBucket st.attHash name = some p) :
    cachedAttribute st name = (nameBucket st name p).att := by
  unfold cachedAttribute nameBucket
  rw [hp, bind_some]
  cases st.attHash.getD p none <;> rfl

/-- Further look-ups are not affected by a bucket that has been initialised. -/
theorem attributeOf_initialised {p : ℕ} (hp : attBucket st.attHash name = some p)
    (hhash : st'.attHash = st.attHash.set p (some (nameBucket st name p))) (hstore : st'.store = st.store) :
    HasBucket st' name ∧ ∀ type, attributeOf env st' name type = attributeOf env st name type := by
  have hp' : attBucket st'.attHash name = some p := by
    rw [hhash]
    exact attBucket_set hp (nameBucket_string hp)
  have hcached : cachedAttribute st' name = cachedAttribute st name := by
    rw [cachedAttribute_eq hp, cachedAttribute_eq hp', nameBucket, hhash, getD_eq_getElem?_getD,
      getElem?_set_self (probe_found hp).1]
    rfl
  refine ⟨by simp [HasBucket, hp'], fun type => ?_⟩
  unfold attributeOf openAttribute
  rw [hcached, hstore]

/-- The result of a look-up. If it fails, the error is set, and further look-ups are not affected. -/
theorem cqiLookupAttribute_spec (h : HasBucket st name) :
    ∃ st', cqiLookupAttribute env name type st = some (attributeOf env st name type, st') ∧
      (attributeOf env st name type = none → st'.cqiErrno.isError = true ∧ HasBucket st' name ∧
        ∀ type', attributeOf env st' name type' = attributeOf env st name type') := by
  obtain ⟨p, hp⟩ := ne_none_iff_exists'.mp h
  have hcached := cachedAttribute_eq hp
  have hbucket : (st.attHash.getD p none).getD ⟨name, none, .none, by simp⟩ = nameBucket st name p := rfl
  have hfound : ∀ {a st'}, attributeOf env st name type = some a →
      cqiLookupAttribute env name type st = some (some a, st') →
      ∃ st', cqiLookupAttribute env name type st = some (attributeOf env st name type, st') ∧
        (attributeOf env st name type = none → st'.cqiErrno.isError = true ∧ HasBucket st' name ∧
          ∀ type', attributeOf env st' name type' = attributeOf env st name type') := by
    intro a st' hof hlookup
    exact ⟨st', hlookup.trans (by rw [hof]), fun hnone => absurd (hof.symm.trans hnone) (by simp)⟩
  have hfail : ∀ w : CqiWord, w.isError = true →
      let st' := { st with attHash := st.attHash.set p (some (nameBucket st name p)), cqiErrno := w }
      st'.cqiErrno.isError = true ∧ HasBucket st' name ∧
        ∀ type', attributeOf env st' name type' = attributeOf env st name type' :=
    fun w hw => ⟨hw, attributeOf_initialised hp rfl rfl⟩
  cases hatt : (nameBucket st name p).att with
  | some a =>
    have htype := (nameBucket st name p).type_eq a hatt
    rw [hatt] at hcached
    by_cases ht : a.type = type
    · have hof : attributeOf env st name type = some a := by simp only [attributeOf, hcached, if_pos ht]
      apply hfound hof
      simp only [cqiLookupAttribute, hp, hbucket, hatt, ← htype, ht, ne_eq, not_true_eq_false, if_false]
      rfl
    · have hof : attributeOf env st name type = none := by simp only [attributeOf, hcached, if_neg ht]
      refine ⟨_, ?_, fun _ => hfail .clWrongAttributeType rfl⟩
      simp only [cqiLookupAttribute, hp, hbucket, hatt, ← htype, ht, ne_eq, not_false_eq_true, if_true, hof]
  | none =>
    rw [hatt] at hcached
    have hof : attributeOf env st name type = openAttribute env st name type := by simp only [attributeOf, hcached]
    cases hsplit : splitAttributeSpec env (nameOf name) with
    | none =>
      have hopen : openAttribute env st name type = none := by simp only [openAttribute, hsplit]
      refine ⟨_, ?_, fun _ => hfail .syntaxError rfl⟩
      simp only [cqiLookupAttribute, hp, hbucket, hatt, hsplit, hof, hopen]
    | some names =>
      obtain ⟨corpusName, attributeName⟩ := names
      cases hcl : (st.store.findLoaded corpusName (some .system)).filter env.accessCorpus with
      | none =>
        have hopen : openAttribute env st name type = none := by simp only [openAttribute, hsplit, hcl]
        refine ⟨_, ?_, fun _ => hfail .cqpNoSuchCorpus rfl⟩
        simp only [cqiLookupAttribute, hp, hbucket, hatt, hsplit, hcl, hof, hopen]
      | some cl =>
        cases hnew : clNewAttribute cl.data.corpus attributeName type with
        | none =>
          have hopen : openAttribute env st name type = none := by
            simp only [openAttribute, hsplit, hcl, hnew, map_none]
          refine ⟨_, ?_, fun _ => hfail .clNoSuchAttribute rfl⟩
          simp only [cqiLookupAttribute, hp, hbucket, hatt, hsplit, hcl, hnew, hof, hopen]
        | some a =>
          have hopen : openAttribute env st name type = some a.1 := by
            simp only [openAttribute, hsplit, hcl, hnew, map_some]
          apply hfound (hof.trans hopen)
          simp only [cqiLookupAttribute, hp, hbucket, hatt, hsplit, hcl, hnew]
          rfl

theorem cqiLookupAttribute_eq_none (h : ¬HasBucket st name) :
    cqiLookupAttribute env name type st = none := by
  unfold cqiLookupAttribute
  rw [not_ne_iff.mp h]

end Lookup

/-! ## Attributes

What a name refers to, and what a handler does with it. -/

variable {α : Type} {f : α → Option (CqiValue × Cda)} {list : List α}

section Attributes

variable (env st) (name : CString)

def FindsPos (p : PosAttribute → Prop) : Prop := ∃ a, attributeOf env st name .pos = some (.pos a) ∧ p a

def FindsStruc (p : StrucAttribute → Prop) : Prop := ∃ a, attributeOf env st name .struc = some (.struc a) ∧ p a

def FindsAlign (p : AlignAttribute → Prop) : Prop := ∃ a, attributeOf env st name .align = some (.align a) ∧ p a

def IfPos (p : PosAttribute → Prop) : Prop := ∀ a, attributeOf env st name .pos = some (.pos a) → p a

def IfStruc (p : StrucAttribute → Prop) : Prop := ∀ a, attributeOf env st name .struc = some (.struc a) → p a

def IfAlign (p : AlignAttribute → Prop) : Prop := ∀ a, attributeOf env st name .align = some (.align a) → p a

variable {env st} {name}

theorem exists_pos_of_type {att : ClAttribute} (h : att.type = .pos) : ∃ p, att = .pos p := by
  cases att with
  | pos p => exact ⟨p, rfl⟩
  | struc s => cases h
  | align al => cases h

theorem exists_struc_of_type {att : ClAttribute} (h : att.type = .struc) : ∃ s, att = .struc s := by
  cases att with
  | pos p => cases h
  | struc s => exact ⟨s, rfl⟩
  | align al => cases h

theorem exists_align_of_type {att : ClAttribute} (h : att.type = .align) : ∃ al, att = .align al := by
  cases att with
  | pos p => cases h
  | struc s => cases h
  | align al => exact ⟨al, rfl⟩

theorem answers_withAttribute (mk : α → ClAttribute) (hinj : Function.Injective mk)
    (hkind : ∀ att : ClAttribute, att.type = type → ∃ x, att = mk x) {handler : ClAttribute → Handler}
    {ok safe : α → Prop}
    (h : ∀ x st', (handler (mk x)).Answers st' (ok x) ↔ safe x) :
    (withAttribute env name type handler).Answers st (∃ x, attributeOf env st name type = some (mk x) ∧ ok x) ↔
      HasBucket st name ∧ ∀ x, attributeOf env st name type = some (mk x) → safe x := by
  by_cases hb : HasBucket st name
  · obtain ⟨st', hlookup, hnone⟩ := @cqiLookupAttribute_spec env st type name hb
    rw [and_iff_right hb]
    cases hof : attributeOf env st name type with
    | none =>
      rw [hof] at hlookup
      have hrun : withAttribute env name type handler st = some ([sentWord st'.cqiErrno], st') := by
        simp only [withAttribute, hlookup, cqiErrnoCommand, cqiCommand]
      rw [answers_error hrun (hnone hof).1]
      simp
    | some att =>
      obtain ⟨x, rfl⟩ := hkind att (attributeOf_type hof)
      rw [hof] at hlookup
      have hrun : withAttribute env name type handler st = handler (mk x) st' := by
        simp only [withAttribute, hlookup]
      have hok : (∃ x', some (mk x) = some (mk x') ∧ ok x') ↔ ok x := by
        refine ⟨?_, fun hx => ⟨x, rfl, hx⟩⟩
        rintro ⟨x', heq, hx'⟩
        rwa [hinj (some.inj heq)]
      rw [answers_congr hrun, hok, h x st']
      refine ⟨fun hsafe x' heq => ?_, fun hall => hall x rfl⟩
      rwa [← hinj (some.inj heq)]
  · have hrun : withAttribute env name type handler st = none := by
      simp only [withAttribute, cqiLookupAttribute_eq_none hb]
    exact ⟨fun ha => absurd ha (not_answers_of_none hrun), fun ha => absurd ha.1 hb⟩

section

variable {handler : ClAttribute → Handler}

theorem answers_withPos {ok safe : PosAttribute → Prop} (h : ∀ x st', (handler (.pos x)).Answers st' (ok x) ↔ safe x) :
    (withAttribute env name .pos handler).Answers st (FindsPos env st name ok) ↔
      HasBucket st name ∧ IfPos env st name safe :=
  answers_withAttribute ClAttribute.pos (fun _ _ => ClAttribute.pos.inj) (fun _ => exists_pos_of_type) h

theorem answers_withStruc {ok safe : StrucAttribute → Prop}
    (h : ∀ x st', (handler (.struc x)).Answers st' (ok x) ↔ safe x) :
    (withAttribute env name .struc handler).Answers st (FindsStruc env st name ok) ↔
      HasBucket st name ∧ IfStruc env st name safe :=
  answers_withAttribute ClAttribute.struc (fun _ _ => ClAttribute.struc.inj) (fun _ => exists_struc_of_type) h

theorem answers_withAlign {ok safe : AlignAttribute → Prop}
    (h : ∀ x st', (handler (.align x)).Answers st' (ok x) ↔ safe x) :
    (withAttribute env name .align handler).Answers st (FindsAlign env st name ok) ↔
      HasBucket st name ∧ IfAlign env st name safe :=
  answers_withAttribute ClAttribute.align (fun _ _ => ClAttribute.align.inj) (fun _ => exists_align_of_type) h

theorem answers_withPos_always {ok : PosAttribute → Prop} (h : ∀ x st', (handler (.pos x)).Answers st' (ok x)) :
    (withAttribute env name .pos handler).Answers st (FindsPos env st name ok) ↔ HasBucket st name :=
  (answers_withPos fun x st' => iff_true_intro (h x st')).trans (and_iff_left fun _ _ => trivial)

theorem answers_withStruc_always {ok : StrucAttribute → Prop} (h : ∀ x st', (handler (.struc x)).Answers st' (ok x)) :
    (withAttribute env name .struc handler).Answers st (FindsStruc env st name ok) ↔ HasBucket st name :=
  (answers_withStruc fun x st' => iff_true_intro (h x st')).trans (and_iff_left fun _ _ => trivial)

theorem answers_withAlign_always {ok : AlignAttribute → Prop} (h : ∀ x st', (handler (.align x)).Answers st' (ok x)) :
    (withAttribute env name .align handler).Answers st (FindsAlign env st name ok) ↔ HasBucket st name :=
  (answers_withAlign fun x st' => iff_true_intro (h x st')).trans (and_iff_left fun _ _ => trivial)

end

/-! What the handlers make of the results of the access functions. -/

theorem answers_intOrError_of_nonneg {size : ℤ × Cda} (h : 0 ≤ size.1) :
    (intOrError size).Answers st succeeds ↔ succeeds := by
  have hrun : intOrError size st = cqiDataInt size.1 { st with clErrno := size.2 } := if_neg (not_lt.mpr h)
  rw [answers_congr hrun, answers_cqiDataInt]

theorem answers_intOrError_of_neg {size : ℤ × Cda} (h : size.1 < 0) :
    (intOrError size).Answers st succeeds ↔ size.2.mapped = true ∧ ¬succeeds := by
  have hrun : intOrError size st = sendClError { st with clErrno := size.2 } := if_pos h
  rw [answers_congr hrun, answers_sendClError]

theorem answers_listOrError_none {errno : Cda} :
    (listOrError (none, errno)).Answers st succeeds ↔ errno.mapped = true ∧ ¬succeeds := by
  have hrun : listOrError (none, errno) st = sendClError { st with clErrno := errno } := rfl
  rw [answers_congr hrun, answers_sendClError]

theorem answers_listOrError_some {list : List ℕ} (hlen : list.length < 2 ^ 31) {errno : Cda} :
    (listOrError (some list, errno)).Answers st succeeds ↔ succeeds := by
  have hrun : listOrError (some list, errno) st = cqiDataIntList list { st with clErrno := errno } := rfl
  rw [answers_congr hrun, answers_cqiDataIntList hlen]

/-- The values that are sent for the elements of a list. -/
theorem mapM_values {β : Type} (mk : β → CqiValue) (hf : ∀ x ∈ list, ∃ v errno, f x = some (mk v, errno)) :
    ∃ results : List (CqiValue × Cda), ∃ values : List β, list.mapM f = some results ∧
      results.map Prod.fst = values.map mk ∧ values.length = list.length := by
  induction list with
  | nil => exact ⟨[], [], rfl, rfl, rfl⟩
  | cons x list ih =>
    obtain ⟨v, errno, hx⟩ := hf x (by simp)
    obtain ⟨results, values, hmap, hvalues, hlen⟩ := ih fun y hy => hf y (by simp [hy])
    refine ⟨(mk v, errno) :: results, v :: values, ?_, ?_, ?_⟩
    · rw [mapM_cons, hx, hmap]
      rfl
    · rw [map_cons, map_cons, hvalues]
    · rw [length_cons, length_cons, hlen]

theorem answers_eachElement {β : Type} {word : CqiWord} (mk : β → CqiValue)
    (hone : ∀ {n : CInt} {elems : List β}, n.toInt = elems.length →
      OneReply (sentWord word :: .int n :: elems.map mk))
    (hlen : list.length < 2 ^ 31)
    (hf : ∀ x ∈ list, ∃ v errno, f x = some (mk v, errno)) :
    (eachElement word list f).Answers st succeeds ↔ succeeds := by
  obtain ⟨results, values, hmap, hvalues, hlength⟩ := mapM_values mk hf
  have hrun : ∃ st', eachElement word list f st =
      some (sentWord word :: .int (BitVec.ofNat 32 list.length) :: values.map mk, st') := by
    unfold eachElement
    rw [hmap, ← hvalues]
    exact ⟨_, rfl⟩
  obtain ⟨st', hrun⟩ := hrun
  apply answers_data hrun _ not_isErrorReply_cons
  apply hone
  rw [hlength]
  exact Block.toInt_count hlen

theorem answers_eachInt (hlen : list.length < 2 ^ 31) (hf : ∀ x ∈ list, ∃ n errno, f x = some (.int n, errno)) :
    (eachElement .dataIntList list f).Answers st succeeds ↔ succeeds :=
  answers_eachElement .int .intList hlen hf

theorem answers_eachString (hlen : list.length < 2 ^ 31)
    (hf : ∀ x ∈ list, ∃ str errno, f x = some (.string str, errno)) :
    (eachElement .dataStringList list f).Answers st succeeds ↔ succeeds :=
  answers_eachElement .string .stringList hlen hf

end Attributes

end CWB.Cqi
