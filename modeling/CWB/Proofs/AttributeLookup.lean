import CWB.Proofs.CqiAnswers
import CWB.Spec.CqiNames

/-! Attribute look-ups in the CQi server. The hash of attributes is keyed by the name alone, so a look-up
returns what it would return without the earlier ones exactly if no earlier one has opened an
attribute of the same name and another type, and if the names have left a bucket for it. -/

namespace CWB.Cqi

open Option List OpenAddressing

variable {env : CqiEnv} {st st' : CqiServer} {name : CString} {type : AttType} {p : ℕ}

/-! ## Corpora -/

theorem clNewAttribute_some {corpus : Corpus} {attName : CorpusName} {a : {a : ClAttribute // a.type = type}}
    (h : clNewAttribute corpus attName type = some a) : (attName, a.1) ∈ corpus.attributes := by
  obtain ⟨d, hd, hsome⟩ := exists_of_findSome?_eq_some h
  split_ifs at hsome with hmatch
  cases hsome
  obtain ⟨rfl, -⟩ := hmatch
  exact hd

theorem clNewAttribute_isSome {corpus : Corpus} {attName : CorpusName} :
    (clNewAttribute corpus attName type).isSome ↔ ∃ a, (attName, a) ∈ corpus.attributes ∧ a.type = type := by
  constructor
  · intro h
    obtain ⟨a, ha⟩ := isSome_iff_exists.mp h
    exact ⟨a.1, clNewAttribute_some ha, a.2⟩
  · rintro ⟨a, hmem, htype⟩
    rw [clNewAttribute, findSome?_isSome_iff]
    exact ⟨_, hmem, by simp [htype]⟩

/-! ## Look-ups without a history -/

theorem freshLookup_named {store : QueryStore CorpusData} {a : ClAttribute} (h : (freshLookup env store name type).1 = some a) :
    AttributeNamed env store name type a := by
  rw [freshLookup] at h
  split at h
  · cases h
  · rename_i corpusName attributeName hsplit
    split at h
    · cases h
    · rename_i cl hcl
      split at h
      · cases h
      · rename_i a' hnew
        cases h
        obtain ⟨hfound, haccess⟩ := filter_eq_some_iff.mp hcl
        exact ⟨corpusName, attributeName, cl, hsplit, hfound, haccess, clNewAttribute_some hnew, a'.2⟩

/-- A fresh look-up succeeds exactly if there is an attribute of the name and the type. -/
theorem freshLookup_isSome_iff {store : QueryStore CorpusData} :
    (freshLookup env store name type).1.isSome ↔ ∃ a, AttributeNamed env store name type a := by
  constructor
  · intro h
    obtain ⟨a, ha⟩ := isSome_iff_exists.mp h
    exact ⟨a, freshLookup_named ha⟩
  · rintro ⟨a, corpusName, attName, cl, hsplit, hfound, haccess, hmem, htype⟩
    have hcl : (store.findLoaded corpusName (some .system)).filter env.accessCorpus = some cl :=
      filter_eq_some_iff.mpr ⟨hfound, haccess⟩
    obtain ⟨a', ha'⟩ := isSome_iff_exists.mp (clNewAttribute_isSome.mpr ⟨a, hmem, htype⟩)
    simp [freshLookup, hsplit, hcl, ha']

/-- The error code belongs to the result. -/
theorem freshLookup_errno (env : CqiEnv) (store : QueryStore CorpusData) (name : CString) (type : AttType) :
    ((freshLookup env store name type).1.isSome ↔ (freshLookup env store name type).2 = .statusOk) ∧
      (freshLookup env store name type).2 ≠ .clWrongAttributeType := by
  rw [freshLookup]
  split
  · simp
  · split
    · simp
    · split
      · simp
      · simp

/-! ## One look-up -/

/-- What a look-up does: it finds a bucket for the name and fills it. -/
structure LookedUp (env : CqiEnv) (st : CqiServer) (name : CString) (type : AttType) (p : ℕ) (result : Option ClAttribute)
    (st' : CqiServer) (bucket : AttBucket) : Prop where
  store : st'.store = st.store
  hash : st'.attHash = st.attHash.set p (some bucket)
  string : bucket.string = name
  /-- an attribute in the bucket stays -/
  cached : ∀ a, cachedAttribute st name = some a → bucket.att = some a ∧
    (result, st'.cqiErrno) = if a.type = type then (some a, .statusOk) else (none, .clWrongAttributeType)
  opened : cachedAttribute st name = none → bucket.att = (freshLookup env st.store name type).1 ∧
    (result, st'.cqiErrno) = freshLookup env st.store name type

theorem cqiLookupAttribute_cases (type : AttType) (hp : attBucket st.attHash name = some p) :
    ∃ result st' bucket, cqiLookupAttribute env name type st = some (result, st') ∧
      LookedUp env st name type p result st' bucket := by
  have hcached := cachedAttribute_eq hp
  have hstring := nameBucket_string hp
  have hbucket : (st.attHash.getD p none).getD ⟨name, none, .none, by simp⟩ = nameBucket st name p := rfl
  cases hatt : (nameBucket st name p).att with
  | some a =>
    have htype := (nameBucket st name p).type_eq a hatt
    rw [hatt] at hcached
    have hno : cachedAttribute st name ≠ none := by simp [hcached]
    by_cases ht : a.type = type
    · refine ⟨some a, { st with attHash := st.attHash.set p (some (nameBucket st name p)), cqiErrno := .statusOk },
        nameBucket st name p, ?_, rfl, rfl, hstring, fun a' ha' => ?_, fun h => absurd h hno⟩
      · simp only [cqiLookupAttribute, hp, hbucket, hatt, ← htype, ht, ne_eq, not_true_eq_false, if_false]
      · rw [hcached] at ha'
        cases ha'
        exact ⟨hatt, (if_pos ht).symm⟩
    · refine ⟨none, { st with attHash := st.attHash.set p (some (nameBucket st name p)), cqiErrno := .clWrongAttributeType },
        nameBucket st name p, ?_, rfl, rfl, hstring, fun a' ha' => ?_, fun h => absurd h hno⟩
      · simp only [cqiLookupAttribute, hp, hbucket, hatt, ← htype, ht, ne_eq, not_false_eq_true, if_true]
      · rw [hcached] at ha'
        cases ha'
        exact ⟨hatt, (if_neg ht).symm⟩
  | none =>
    rw [hatt] at hcached
    have hno : ∀ a, cachedAttribute st name ≠ some a := by simp [hcached]
    -- the bucket stays empty unless an attribute is opened
    have hfail : ∀ w, freshLookup env st.store name type = (none, w) →
        LookedUp env st name type p none { st with attHash := st.attHash.set p (some (nameBucket st name p)), cqiErrno := w }
          (nameBucket st name p) := fun w hw =>
      ⟨rfl, rfl, hstring, fun a ha => absurd ha (hno a), fun _ => ⟨by rw [hw, hatt], hw.symm⟩⟩
    cases hsplit : splitAttributeSpec env (nameOf name) with
    | none =>
      refine ⟨_, _, _, ?_, hfail .syntaxError (by simp only [freshLookup, hsplit])⟩
      simp only [cqiLookupAttribute, hp, hbucket, hatt, hsplit]
    | some names =>
      obtain ⟨corpusName, attributeName⟩ := names
      cases hcl : (st.store.findLoaded corpusName (some .system)).filter env.accessCorpus with
      | none =>
        refine ⟨_, _, _, ?_, hfail .cqpNoSuchCorpus (by simp only [freshLookup, hsplit, hcl])⟩
        simp only [cqiLookupAttribute, hp, hbucket, hatt, hsplit, hcl]
      | some cl =>
        cases hnew : clNewAttribute cl.data.corpus attributeName type with
        | none =>
          refine ⟨_, _, _, ?_, hfail .clNoSuchAttribute (by simp only [freshLookup, hsplit, hcl, hnew])⟩
          simp only [cqiLookupAttribute, hp, hbucket, hatt, hsplit, hcl, hnew]
        | some a =>
          have hfresh : freshLookup env st.store name type = (some a.1, .statusOk) := by
            simp only [freshLookup, hsplit, hcl, hnew]
          let bucket : AttBucket := ⟨(nameBucket st name p).string, some a.1, type, by rintro _ ⟨⟩; exact a.2⟩
          refine ⟨some a.1, { st with attHash := (st.attHash.set p (some (nameBucket st name p))).set p (some bucket), cqiErrno := .statusOk },
            bucket, ?_, rfl, set_set .., hstring, fun a ha => absurd ha (hno a), fun _ => ⟨by rw [hfresh], hfresh.symm⟩⟩
          simp only [cqiLookupAttribute, hp, hbucket, hatt, hsplit, hcl, hnew]
          rfl

/-! ## The hash of attributes -/

/-- Every bucket is found for its name, and holds what a fresh look-up has found. -/
structure AttHashInv (env : CqiEnv) (st : CqiServer) : Prop where
  found : ∀ (q : ℕ) (b : AttBucket), st.attHash[q]? = some (some b) → attBucket st.attHash b.string = some q
  opened : ∀ (q : ℕ) (b : AttBucket) (a : ClAttribute), st.attHash[q]? = some (some b) → b.att = some a → (freshLookup env st.store b.string a.type).1 = some a

theorem attHashInv_make (env : CqiEnv) (size : ℕ) (st : CqiServer) : AttHashInv env (makeAttributeHash size st) := by
  have hfree : ∀ (q : ℕ) (b : AttBucket), (makeAttributeHash size st).attHash[q]? ≠ some (some b) := by
    intro q b h
    have hmem := mem_of_getElem? h
    simp [makeAttributeHash] at hmem
  exact ⟨fun q b h => absurd h (hfree q b), fun q b _ h => absurd h (hfree q b)⟩

theorem attBucket_stops (hp : attBucket st.attHash name = some p) : StopsAt AttBucket.string st.attHash name p := by
  rw [attBucket, probe_eq] at hp
  exact probe_stops hp

theorem attBucket_set_other {space : List (Option AttBucket)} {str : CString} {q : ℕ} {b : AttBucket}
    (h : attBucket space str = some p) (hne : q ≠ p) (hb : b.string ≠ str) : attBucket (space.set q (some b)) str = some p := by
  unfold attBucket at h ⊢
  rw [length_set]
  rw [probe_eq] at h ⊢
  exact probe_set_other h hne hb

theorem attBucket_ne_none_iff {space : List (Option AttBucket)} {str : CString} : attBucket space str ≠ none ↔
    ∃ j < space.length / 5, StopsAt AttBucket.string space str
      ((hashString (str.bytes.map UInt8.ofBitVec) % space.length + j) % space.length) := by
  rw [attBucket, probe_eq]
  by_cases hlen : space.length = 0
  · simp [hlen, OpenAddressing.probe]
  · exact probe_ne_none_iff hlen (Nat.mod_lt _ (Nat.pos_of_ne_zero hlen)).le

section Step

variable {result : Option ClAttribute} {bucket : AttBucket}

/-- A bucket after a look-up was there before, or is the one that has been filled. -/
theorem LookedUp.getElem? (h : LookedUp env st name type p result st' bucket) (hp : attBucket st.attHash name = some p) (q : ℕ) :
    st'.attHash[q]? = if q = p then some (some bucket) else st.attHash[q]? := by
  rw [h.hash]
  split_ifs with hq
  · rw [hq, getElem?_set_self (attBucket_stops hp).lt_length]
  · rw [getElem?_set_ne (Ne.symm hq)]

/-- What is cached for a name is in its bucket. -/
theorem mem_of_cachedAttribute {a : ClAttribute} (hp : attBucket st.attHash name = some p)
    (h : cachedAttribute st name = some a) : ∃ b, st.attHash[p]? = some (some b) ∧ b.string = name ∧ b.att = some a := by
  rw [cachedAttribute, hp, bind_some] at h
  obtain ⟨b, hb, hatt⟩ := bind_eq_some_iff.mp h
  have hstring := (attBucket_stops hp).key_eq hb
  rw [getD_eq_getElem?_getD] at hb
  obtain ⟨cell, hcell, rfl⟩ : ∃ cell, st.attHash[p]? = some cell ∧ cell = some b := by
    cases hget : st.attHash[p]? with
    | none =>
      rw [hget] at hb
      cases hb
    | some cell =>
      rw [hget] at hb
      exact ⟨cell, rfl, hb⟩
  exact ⟨b, hcell, hstring, hatt⟩

/-- What has been filled is cached for the next look-up. -/
theorem LookedUp.cachedAttribute_eq (h : LookedUp env st name type p result st' bucket) (hp : attBucket st.attHash name = some p) :
    cachedAttribute st' name = bucket.att := by
  have hp' : attBucket st'.attHash name = some p := by
    rw [h.hash]
    exact attBucket_set hp h.string
  rw [cachedAttribute, hp', bind_some, getD_eq_getElem?_getD, h.getElem? hp, if_pos rfl]
  rfl

theorem LookedUp.attHashInv (h : LookedUp env st name type p result st' bucket) (hp : attBucket st.attHash name = some p)
    (hinv : AttHashInv env st) : AttHashInv env st' := by
  refine ⟨fun q b hb => ?_, fun q b a hb hatt => ?_⟩
  · rw [h.getElem? hp] at hb
    rw [h.hash]
    split_ifs at hb with hq
    · cases hb
      rw [hq, h.string]
      exact attBucket_set hp h.string
    · have hfound := hinv.found q b hb
      refine attBucket_set_other hfound (Ne.symm hq) fun hsame => ?_
      rw [← hsame, h.string, hp] at hfound
      exact hq (some.inj hfound).symm
  · rw [h.store]
    rw [h.getElem? hp] at hb
    split_ifs at hb with hq
    · cases hb
      rw [h.string]
      cases hcached : cachedAttribute st name with
      | some a' =>
        obtain ⟨hatt', -⟩ := h.cached a' hcached
        cases hatt.symm.trans hatt'
        obtain ⟨b, hb, hstring, hb'⟩ := mem_of_cachedAttribute hp hcached
        have hopened := hinv.opened p b a hb hb'
        rwa [hstring] at hopened
      | none =>
        obtain ⟨hfresh, -⟩ := h.opened hcached
        rw [hatt] at hfresh
        obtain ⟨-, -, -, -, -, -, -, htype⟩ := freshLookup_named hfresh.symm
        rw [htype]
        exact hfresh.symm
    · exact hinv.opened q b a hb hatt

/-- Buckets keep their names. -/
theorem LookedUp.placed (h : LookedUp env st name type p result st' bucket) (hp : attBucket st.attHash name = some p)
    {name' : CString} {q : ℕ} (hq : Placed AttBucket.string st.attHash name' q) : Placed AttBucket.string st'.attHash name' q := by
  obtain ⟨b, hb, hstring⟩ := hq
  by_cases hqp : q = p
  · refine ⟨bucket, by rw [h.getElem? hp, if_pos hqp], ?_⟩
    have hkey : b.string = name := by
      apply (attBucket_stops hp).key_eq
      rw [getD_eq_getElem?_getD, ← hqp, hb]
      rfl
    rw [h.string, ← hkey, hstring]
  · exact ⟨b, by rw [h.getElem? hp, if_neg hqp, hb], hstring⟩

/-- The look-up returns what a fresh one does exactly if no attribute of another type is in the bucket. -/
theorem LookedUp.fresh_iff (h : LookedUp env st name type p result st' bucket) (hp : attBucket st.attHash name = some p)
    (hinv : AttHashInv env st) : (result, st'.cqiErrno) = freshLookup env st.store name type ↔
      ∀ a, cachedAttribute st name = some a → a.type = type := by
  cases hcached : cachedAttribute st name with
  | none =>
    refine iff_of_true (h.opened hcached).2 fun a ha => ?_
    cases ha
  | some a =>
    have hresult := (h.cached a hcached).2
    have herrno := freshLookup_errno env st.store name type
    by_cases ht : a.type = type
    · rw [hresult, if_pos ht]
      refine iff_of_true ?_ fun a' ha' => ?_
      · obtain ⟨b, hb, hstring, hatt⟩ := mem_of_cachedAttribute hp hcached
        have hopened := hinv.opened p b a hb hatt
        rw [hstring, ht] at hopened
        exact (Prod.ext hopened (herrno.1.mp (by rw [hopened]; rfl))).symm
      · cases ha'
        exact ht
    · rw [hresult, if_neg ht]
      refine iff_of_false (fun hsame => ?_) fun hall => ht (hall a rfl)
      exact herrno.2 (congrArg Prod.snd hsame).symm

end Step

/-! ## Runs -/

theorem lookupReady_iff (hinv : AttHashInv env st) : LookupReady st name type ↔
    attBucket st.attHash name ≠ none ∧ ∀ a, cachedAttribute st name = some a → a.type = type := by
  have hsame : (∀ a, cachedAttribute st name = some a → a.type = type) ↔
      ∀ b, some b ∈ st.attHash → b.string = name → ∀ a ∈ b.att, a.type = type := by
    constructor
    · intro h b hb hstring a ha
      obtain ⟨q, hq⟩ := mem_iff_getElem?.mp hb
      have hfound := hinv.found q b hq
      rw [hstring] at hfound
      apply h
      rw [cachedAttribute, hfound, bind_some, getD_eq_getElem?_getD, hq]
      exact ha
    · intro h a ha
      obtain ⟨p, hp⟩ : ∃ p, attBucket st.attHash name = some p := by
        cases hp : attBucket st.attHash name with
        | none =>
          rw [cachedAttribute, hp] at ha
          cases ha
        | some p => exact ⟨p, rfl⟩
      obtain ⟨b, hb, hstring, hatt⟩ := mem_of_cachedAttribute hp ha
      exact h b (mem_of_getElem? hb) hstring a hatt
  rw [attBucket_ne_none_iff, hsame]
  exact ⟨fun h => ⟨h.bucket, h.sameType⟩, fun h => ⟨h.1, h.2⟩⟩

theorem allFresh_iff (requests : List (CString × AttType)) (hinv : AttHashInv env st) :
    AllFresh env requests st ↔ AllReady env requests st := by
  induction requests generalizing st with
  | nil => exact Iff.rfl
  | cons r requests ih =>
    obtain ⟨name, type⟩ := r
    rw [AllFresh, AllReady, lookupReady_iff hinv]
    cases hp : attBucket st.attHash name with
    | none =>
      refine iff_of_false ?_ fun h => h.1.1 rfl
      rintro ⟨st', hlook, -⟩
      rw [cqiLookupAttribute, hp] at hlook
      cases hlook
    | some p =>
      obtain ⟨result, st', bucket, hlook, hdone⟩ := @cqiLookupAttribute_cases env st name p type hp
      have hinv' := hdone.attHashInv hp hinv
      rw [← hdone.fresh_iff hp hinv, hlook]
      constructor
      · rintro ⟨st'', hsome, herrno, hrest⟩
        cases hsome
        refine ⟨⟨some_ne_none _, Prod.ext rfl herrno⟩, fun result' st'' hsome => ?_⟩
        cases hsome
        exact (ih hinv').mp hrest
      · rintro ⟨⟨-, hsame⟩, hrest⟩
        refine ⟨st', by rw [← hsame], by rw [← hsame], (ih hinv').mpr (hrest _ _ rfl)⟩

variable {requests : List (CString × AttType)}

theorem lookUps_cons {r : CString × AttType} (h : lookUps env (r :: requests) st = some st') :
    ∃ p result st₁ bucket, attBucket st.attHash r.1 = some p ∧ LookedUp env st r.1 r.2 p result st₁ bucket ∧
      lookUps env requests st₁ = some st' := by
  rw [lookUps, foldlM_cons] at h
  obtain ⟨st₁, hlook, hrest⟩ := bind_eq_some_iff.mp h
  obtain ⟨found, hfound, rfl⟩ := map_eq_some_iff.mp hlook
  cases hp : attBucket st.attHash r.1 with
  | none =>
    rw [cqiLookupAttribute, hp] at hfound
    cases hfound
  | some p =>
    obtain ⟨result, st₁, bucket, hlook', hdone⟩ := @cqiLookupAttribute_cases env st r.1 p r.2 hp
    cases hfound.symm.trans hlook'
    exact ⟨p, result, st₁, bucket, rfl, hdone, hrest⟩

/-- What a run of look-ups keeps. -/
theorem lookUps_spec (hinv : AttHashInv env st) (h : lookUps env requests st = some st') :
    AttHashInv env st' ∧
      (∀ name p, Placed AttBucket.string st.attHash name p → Placed AttBucket.string st'.attHash name p) ∧
      ∀ r ∈ requests, ∃ p, Placed AttBucket.string st'.attHash r.1 p := by
  induction requests generalizing st with
  | nil =>
    cases h
    exact ⟨hinv, fun _ _ h => h, fun r hr => by cases hr⟩
  | cons r requests ih =>
    obtain ⟨p, result, st₁, bucket, hp, hdone, hrest⟩ := lookUps_cons h
    obtain ⟨hinv', hkept, hplaced⟩ := ih (hdone.attHashInv hp hinv) hrest
    refine ⟨hinv', fun name q hq => hkept name q (hdone.placed hp hq), fun r' hr' => ?_⟩
    obtain rfl | hmem := mem_cons.mp hr'
    · exact ⟨p, hkept _ _ ⟨bucket, by rw [hdone.getElem? hp, if_pos rfl], hdone.string⟩⟩
    · exact hplaced r' hmem

theorem attBucket_of_placed (hinv : AttHashInv env st) (h : Placed AttBucket.string st.attHash name p) :
    attBucket st.attHash name = some p := by
  obtain ⟨b, hb, rfl⟩ := h
  exact hinv.found p b hb

theorem bucketsKept_of_lookUps (hinv : AttHashInv env st)
    (h : lookUps env requests st = some st') : BucketsKept env requests st' := by
  obtain ⟨hinv', -, hplaced⟩ := lookUps_spec hinv h
  refine ⟨hplaced, fun more st'' hmore name p hp => ?_, fun name name' p hp hp' => ?_⟩
  · obtain ⟨hinv'', hkept, -⟩ := lookUps_spec hinv' hmore
    exact attBucket_of_placed hinv'' (hkept name p hp)
  · obtain hempty | hplaced := attBucket_stops hp
    · obtain ⟨b, hb, -⟩ := hp'
      rw [hempty] at hb
      cases hb
    · exact hplaced.unique hp'

/-- In every run from a new hash on, all look-ups return what fresh ones do exactly if the condition is
met before each of them, and names have buckets of their own; a fresh look-up finds an attribute of
its name and type exactly if there is one. -/
theorem attributeLookup_fresh_iff (env : CqiEnv) (size : ℕ) (st : CqiServer) (requests : List (CString × AttType)) :
    (AllFresh env requests (makeAttributeHash size st) ↔ AllReady env requests (makeAttributeHash size st)) ∧
      (∀ st', lookUps env requests (makeAttributeHash size st) = some st' → BucketsKept env requests st') ∧
      ∀ name type, ((freshLookup env st.store name type).1.isSome ↔ ∃ a, AttributeNamed env st.store name type a) ∧
        ∀ a, (freshLookup env st.store name type).1 = some a → AttributeNamed env st.store name type a :=
  ⟨allFresh_iff requests (attHashInv_make env size st), fun _ => bucketsKept_of_lookUps (attHashInv_make env size st),
    fun _ _ => ⟨freshLookup_isSome_iff, fun _ => freshLookup_named⟩⟩

/-! A corpus `A` with a positional and a structural attribute `x`. -/

theorem noNull_x : (0 : CqiByte) ∉ [0x61] := by decide

def xPos : PosAttribute where
  ids := [0]
  lexicon := [⟨[0x61], noNull_x⟩]
  lexsrt := [0]
  ids_lt := by decide
  occurs := by decide
  length_lt := by decide
  ensureComponent _ := true

def xStruc : StrucAttribute := ⟨[(0, 0)], none, true, false⟩

def axServer : CqiServer :=
  { emptyServer with
    store :=
      { corpuslist :=
          [{ id := 0
             type := .system
             name := ['A']
             motherName := []
             registry := []
             data :=
              { corpus := setupCorpus 0 [(['x'], .pos xPos), (['x'], .struc xStruc)]
                range := []
                targets := none
                keywords := none
                targets_length := by simp
                keywords_length := by simp
                size_lt := by decide } }]
        nextId := 1 } }

/-- The name `A.x`. -/
def axName : CString := ⟨[0x41, 0x2E, 0x78], by decide⟩

theorem freshLookup_ax : (freshLookup emptyEnv axServer.store axName .pos).1 = some (.pos xPos) ∧
    (freshLookup emptyEnv axServer.store axName .struc).1 = some (.struc xStruc) := by
  have hname : nameOf axName = ['A', '.', 'x'] := by decide +kernel
  have hsplit : splitAttributeSpec emptyEnv ['A', '.', 'x'] = some (['A'], ['x']) := by
    simp only [splitAttributeSpec, checkCorpusName, checkAttributeName, idUcFirst_eq, idUc_eq, idLcFirst_eq, idLc_eq]
    rfl
  simp only [freshLookup, hname, hsplit]
  exact ⟨rfl, rfl⟩

/-- After the positional attribute the structural one is not found any more. -/
theorem ax_not_fresh : (freshLookup emptyEnv axServer.store axName .struc).1 = some (.struc xStruc) ∧
    ¬AllFresh emptyEnv [(axName, .pos), (axName, .struc)] (makeAttributeHash ATTHASHSIZE axServer) := by
  refine ⟨freshLookup_ax.2, fun h => ?_⟩
  have hinv := attHashInv_make emptyEnv ATTHASHSIZE axServer
  obtain ⟨hready, hrest⟩ := (allFresh_iff _ hinv).mp h
  obtain ⟨p, hp⟩ := ne_none_iff_exists'.mp ((lookupReady_iff hinv).mp hready).1
  obtain ⟨result, st', bucket, hlook, hdone⟩ := @cqiLookupAttribute_cases emptyEnv _ axName p .pos hp
  have hnew : cachedAttribute (makeAttributeHash ATTHASHSIZE axServer) axName = none := by
    by_contra hne
    obtain ⟨a, ha⟩ := ne_none_iff_exists'.mp hne
    obtain ⟨b, hb, -⟩ := mem_of_cachedAttribute hp ha
    have hmem := mem_of_getElem? hb
    simp [makeAttributeHash] at hmem
  have hcached : cachedAttribute st' axName = some (.pos xPos) := by
    rw [hdone.cachedAttribute_eq hp, (hdone.opened hnew).1]
    exact freshLookup_ax.1
  have hsame := ((lookupReady_iff (hdone.attHashInv hp hinv)).mp (hrest _ _ hlook).1).2 _ hcached
  cases hsame

end CWB.Cqi
