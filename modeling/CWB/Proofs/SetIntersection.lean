import CWB.Library.BagMerge
import CWB.Proofs.MakeSet
import CWB.Spec.SetIntersection

/-! `cl_set_intersection` on values in normal form. An empty feature is never copied into a buffer, so that it is
compared as whatever the buffer holds; the merge itself is that of two sorted lists. -/

namespace CWB.FeatureSets

open Option List Cqi Separated

/-! ## The buffers -/

namespace FeatureBuffer

variable {b : FeatureBuffer} {e : CString} {done old behind s : List CqiByte} {c : CqiByte}

/-- In every state the last byte of a buffer is null, and there is no separator in it. -/
structure Terminated (b : FeatureBuffer) : Prop where
  last : b.bytes.getLast? = some 0
  noBar : bar ∉ b.bytes

theorem copyFeature_bar (p : ℕ) (s : List CqiByte) :
    b.copyFeature p (bar :: s) = (b.put p 0).map fun b => (b, some (bar :: s)) := if_pos rfl

theorem copyFeature_cons (h : c ≠ bar) (p : ℕ) (s : List CqiByte) :
    b.copyFeature p (c :: s) = (b.put p c).bind fun b => b.copyFeature (p + 1) s := if_neg h

theorem put_eq (h : b.bytes = done ++ c :: behind) (x : CqiByte) :
    ∃ b', b.put done.length x = some b' ∧ b'.bytes = done ++ x :: behind := by
  have hlt : done.length < CL_DYN_STRING_SIZE := by
    rw [← b.length_eq, h, length_append, length_cons]
    omega
  refine ⟨_, if_pos hlt, ?_⟩
  show b.bytes.set done.length x = _
  rw [h, set_append_right _ _ le_rfl, Nat.sub_self, set_cons_zero]

theorem copyFeature_closed (done : List CqiByte) {e : List CqiByte} (hbar : bar ∉ e) (s : List CqiByte)
    (h : b.bytes = done ++ (old ++ c :: behind)) (hlen : old.length = e.length) :
    ∃ b', b.copyFeature done.length (e ++ bar :: s) = some (b', some (bar :: s)) ∧ b'.bytes = done ++ (e ++ 0 :: behind) := by
  induction e generalizing b done old with
  | nil =>
    obtain rfl := eq_nil_of_length_eq_zero hlen
    obtain ⟨b', hput, hbytes⟩ := put_eq h 0
    exact ⟨b', by rw [nil_append, copyFeature_bar, hput]; rfl, hbytes⟩
  | cons x e ih =>
    obtain ⟨hx, he⟩ := not_or.mp (mt mem_cons.mpr hbar)
    obtain ⟨o, old, rfl⟩ := exists_cons_of_length_eq_add_one hlen
    obtain ⟨b', hput, hbytes⟩ := put_eq h x
    obtain ⟨b'', hcopy, hbytes'⟩ := ih (done ++ [x]) he (by simpa using hbytes) (Nat.succ.inj hlen)
    rw [length_append, length_singleton] at hcopy
    refine ⟨b'', ?_, by simpa using hbytes'⟩
    rw [cons_append, copyFeature_cons (Ne.symm hx), hput, bind_some, hcopy]

theorem copyFeature_open (done : List CqiByte) (hbar : bar ∉ s) (h : b.bytes = done ++ (old ++ behind)) (hlen : old.length = s.length) :
    ∃ b', b.copyFeature done.length s = some (b', none) ∧ b'.bytes = done ++ (s ++ behind) := by
  induction s generalizing b done old with
  | nil =>
    obtain rfl := eq_nil_of_length_eq_zero hlen
    exact ⟨b, rfl, h⟩
  | cons x s ih =>
    obtain ⟨hx, hs⟩ := not_or.mp (mt mem_cons.mpr hbar)
    obtain ⟨o, old, rfl⟩ := exists_cons_of_length_eq_add_one hlen
    obtain ⟨b', hput, hbytes⟩ := put_eq h x
    obtain ⟨b'', hcopy, hbytes'⟩ := ih (done ++ [x]) hs (by simpa using hbytes) (Nat.succ.inj hlen)
    rw [length_append, length_singleton] at hcopy
    refine ⟨b'', ?_, by simpa using hbytes'⟩
    rw [copyFeature_cons (Ne.symm hx), hput, bind_some, hcopy]

theorem Terminated.content (h : b.Terminated) : ∃ e, b.content = some e ∧ bar ∉ e.bytes :=
  ⟨_, if_pos (mem_of_getLast? h.last), fun hmem => h.noBar ((takeWhile_sublist _).subset hmem)⟩

theorem content_eq (h : b.bytes = e.bytes ++ 0 :: behind) : b.content = some e := by
  have hmem : 0 ∈ b.bytes := by rw [h]; exact mem_append_right _ mem_cons_self
  rw [content, if_pos hmem, h]
  congr 1
  exact CString.bytes_injective (ofBuffer_terminated e.noNull behind)

theorem exists_split (b : FeatureBuffer) {n : ℕ} (h : n < CL_DYN_STRING_SIZE) :
    ∃ old c behind, b.bytes = old ++ c :: behind ∧ old.length = n := by
  rw [← b.length_eq] at h
  refine ⟨b.bytes.take n, b.bytes[n], b.bytes.drop (n + 1), ?_, length_take_of_le h.le⟩
  rw [← drop_eq_getElem_cons h, take_append_drop]

theorem Terminated.of_front {b' : FeatureBuffer} {front : List CqiByte} {x y : CqiByte} (h : b.Terminated)
    (hb : b.bytes = old ++ x :: behind) (hb' : b'.bytes = front ++ y :: behind) (hy : y = 0 ∨ y = x) (hfront : bar ∉ front) :
    b'.Terminated := by
  obtain ⟨hlast, hnoBar⟩ := h
  rw [hb] at hlast hnoBar
  rw [getLast?_append_of_ne_nil _ (cons_ne_nil _ _)] at hlast
  obtain ⟨-, hx, hbehind⟩ : bar ∉ old ∧ bar ≠ x ∧ bar ∉ behind := by simpa using hnoBar
  have hbar : bar ≠ y := by
    obtain rfl | rfl := hy
    · decide
    · exact hx
  constructor
  · rw [hb', getLast?_append_of_ne_nil _ (cons_ne_nil _ _)]
    cases behind with
    | nil =>
      rw [getLast?_singleton, some.injEq] at hlast ⊢
      exact hy.elim id fun h => h.trans hlast
    | cons z behind =>
      rw [getLast?_cons_cons] at hlast ⊢
      exact hlast
  · rw [hb']
    simp [hfront, hbar, hbehind]

/-- The last byte is out of reach for a string that has passed the length check. -/
theorem Terminated.readFeature (h : b.Terminated) (hs : s.length < CL_DYN_STRING_SIZE) :
    ∃ b' r, b.readFeature s = some (b', r) ∧ b'.Terminated ∧ (r = none ∨ ∃ t, r = some (bar :: t) ∧ t.length < s.length) := by
  rw [FeatureBuffer.readFeature]
  split_ifs with hhead
  · by_cases hbar : bar ∈ s
    · obtain ⟨e, t, rfl, he⟩ := eq_append_cons_of_mem hbar
      rw [length_append, length_cons] at hs
      obtain ⟨old, c, behind, hbytes, hold⟩ := b.exists_split (n := e.length) (by omega)
      obtain ⟨b', hcopy, hbytes'⟩ := copyFeature_closed [] he t hbytes hold
      refine ⟨b', _, hcopy, h.of_front hbytes hbytes' (.inl rfl) he, .inr ⟨t, rfl, ?_⟩⟩
      rw [length_append, length_cons]
      omega
    · obtain ⟨old, c, behind, hbytes, hold⟩ := b.exists_split hs
      obtain ⟨b', hcopy, hbytes'⟩ := copyFeature_open [] hbar hbytes hold
      exact ⟨b', _, hcopy, h.of_front hbytes hbytes' (.inr rfl) hbar, .inl rfl⟩
  · obtain ⟨t, rfl⟩ := head?_eq_some_iff.mp (not_not.mp hhead)
    exact ⟨b, _, rfl, h, .inr ⟨t, rfl, Nat.lt_succ_self _⟩⟩

end FeatureBuffer

/-! ## The loop -/

section Loop

open FeatureBuffer

variable {st : Statics} {f1 f2 : FeatureBuffer} {e1 e2 u v : CString} {s1 s2 t1 t2 result : List CqiByte} {rounds : ℕ}

theorem intersectionLoop_end (h : s1 = [] ∨ s2 = []) : intersectionLoop (rounds + 1) st s1 s2 result =
    some { returned := true, errno := .ok, result := result ++ [0], statics := st } := if_pos h

/-- A round with two active features. -/
theorem intersectionLoop_round (h : ¬(s1 = [] ∨ s2 = [])) (h1 : st.f1.readFeature s1 = some (f1, some (bar :: t1)))
    (h2 : st.f2.readFeature s2 = some (f2, some (bar :: t2))) (hc1 : f1.content = some e1) (hc2 : f2.content = some e2) :
    intersectionLoop (rounds + 1) st s1 s2 result =
      if clStrcmp e1.bytes e2.bytes = 0 then intersectionLoop rounds ⟨f1, f2⟩ t1 t2 (result ++ (e1.bytes ++ [bar]))
      else if clStrcmp e1.bytes e2.bytes < 0 then intersectionLoop rounds ⟨f1, f2⟩ t1 (bar :: t2) result
      else intersectionLoop rounds ⟨f1, f2⟩ (bar :: t1) t2 result := by
  refine (if_neg h).trans ?_
  rw [h1, bind_eq_bind, bind_some]
  simp only [h2, bind_eq_bind, bind_some, hc1, hc2, tail_cons]

def Statics.Terminated (st : Statics) : Prop := st.f1.Terminated ∧ st.f2.Terminated

theorem Statics.Terminated.intersectionLoop (h : st.Terminated) (hs1 : s1.length < CL_DYN_STRING_SIZE)
    (hs2 : s2.length < CL_DYN_STRING_SIZE) (hrounds : s1.length + s2.length < rounds) :
    ∃ call, intersectionLoop rounds st s1 s2 result = some call ∧ call.statics.Terminated := by
  induction rounds generalizing st s1 s2 result with
  | zero => exact absurd hrounds (Nat.not_lt_zero _)
  | succ rounds ih =>
    by_cases hend : s1 = [] ∨ s2 = []
    · exact ⟨_, intersectionLoop_end hend, h⟩
    obtain ⟨f1, r1, hread1, hf1, rfl | ⟨t1, rfl, ht1⟩⟩ := h.1.readFeature hs1
    · refine ⟨⟨false, .efsetinv, result, { st with f1 }⟩, (if_neg hend).trans ?_, ⟨hf1, h.2⟩⟩
      rw [hread1]
      rfl
    obtain ⟨f2, r2, hread2, hf2, rfl | ⟨t2, rfl, ht2⟩⟩ := h.2.readFeature hs2
    · refine ⟨⟨false, .efsetinv, result, ⟨f1, f2⟩⟩, (if_neg hend).trans ?_, ⟨hf1, hf2⟩⟩
      rw [hread1, bind_eq_bind, bind_some]
      simp only [hread2, bind_eq_bind, bind_some]
    obtain ⟨e1, hc1, -⟩ := hf1.content
    obtain ⟨e2, hc2, -⟩ := hf2.content
    rw [intersectionLoop_round hend hread1 hread2 hc1 hc2]
    have hnext : Statics.Terminated ⟨f1, f2⟩ := ⟨hf1, hf2⟩
    have hlen1 : (bar :: t1).length = t1.length + 1 := rfl
    have hlen2 : (bar :: t2).length = t2.length + 1 := rfl
    split_ifs
    · exact ih hnext (by omega) (by omega) (by omega)
    · exact ih hnext (by omega) (by omega) (by omega)
    · exact ih hnext (by omega) (by omega) (by omega)

theorem Statics.Terminated.clSetIntersection (h : st.Terminated) (s1 s2 : CString) :
    ∃ call, clSetIntersection st s1 s2 = some call ∧ call.statics.Terminated := by
  rw [FeatureSets.clSetIntersection]
  split_ifs with hsyntax hlength
  · exact ⟨_, rfl, h⟩
  · exact ⟨_, rfl, h⟩
  · obtain ⟨hhead1, hhead2⟩ := not_or.mp hsyntax
    obtain ⟨hlen1, hlen2⟩ := not_or.mp hlength
    obtain ⟨t1, ht1⟩ := head?_eq_some_iff.mp (not_not.mp hhead1)
    obtain ⟨t2, ht2⟩ := head?_eq_some_iff.mp (not_not.mp hhead2)
    refine h.intersectionLoop (not_le.mp hlen1) (not_le.mp hlen2) ?_
    rw [ht1, ht2, tail_cons, tail_cons, length_cons, length_cons]
    omega

theorem initialStatics_terminated : initialStatics.Terminated := by
  have hzeros : (replicate CL_DYN_STRING_SIZE (0 : CqiByte)).getLast? = some 0 := by
    rw [getLast?_replicate, if_neg (by decide)]
  have hnoBar : bar ∉ replicate CL_DYN_STRING_SIZE (0 : CqiByte) := fun hmem =>
    absurd (eq_of_mem_replicate hmem) (by decide)
  exact ⟨⟨hzeros, hnoBar⟩, ⟨hzeros, hnoBar⟩⟩

/-- The buffers are strings after any calls. -/
theorem staticsAfter_terminated (calls : List (CString × CString)) : ∃ st, staticsAfter calls = some st ∧ st.Terminated := by
  have hrun : ∀ st : Statics, st.Terminated → ∃ st', calls.foldlM
      (fun st call => (clSetIntersection st call.1 call.2).map SetCall.statics) st = some st' ∧ st'.Terminated := by
    induction calls with
    | nil => exact fun st h => ⟨st, rfl, h⟩
    | cons call calls ih =>
      intro st h
      obtain ⟨result, hcall, hnext⟩ := h.clSetIntersection call.1 call.2
      obtain ⟨st', hrest, hst'⟩ := ih _ hnext
      refine ⟨st', ?_, hst'⟩
      rw [foldlM_cons, hcall]
      exact hrest
  exact hrun _ initialStatics_terminated

/-! ## Values in normal form -/

/-- The order of `cl_strcmp`. -/
abbrev featureOrder : LinearOrder CString where
  le s t := clStrcmp s.bytes t.bytes ≤ 0
  lt s t := clStrcmp s.bytes t.bytes < 0
  le_refl s := (clStrcmp_eq_zero_iff.mpr rfl).le
  le_trans s t u hst htu := by
    obtain hst | hst := lt_or_eq_of_le hst
    · obtain htu | htu := lt_or_eq_of_le htu
      · exact (clStrcmp_trans hst htu).le
      · rw [← clStrcmp_eq_zero_iff.mp htu]
        exact hst.le
    · rw [clStrcmp_eq_zero_iff.mp hst]
      exact htu
  lt_iff_le_not_ge s t := by
    have hswap := @clStrcmp_swap s t
    omega
  le_antisymm s t hst hts := by
    have hswap := @clStrcmp_swap s t
    exact clStrcmp_eq_zero_iff.mp (by omega)
  le_total s t := by
    have hswap := @clStrcmp_swap t s
    omega
  toDecidableLT s t := inferInstanceAs (Decidable (clStrcmp s.bytes t.bytes < 0))
  toDecidableLE s t := inferInstanceAs (Decidable (clStrcmp s.bytes t.bytes ≤ 0))
  toDecidableEq := inferInstance

attribute [local instance] featureOrder

variable {as bs : List CString} {a : CString} {b : FeatureBuffer}

/-- The rest of a value. -/
def rest (as : List CString) : List CqiByte := closed bar (as.map CString.bytes)

theorem rest_cons (a : CString) (as : List CString) : rest (a :: as) = a.bytes ++ bar :: rest as := closed_cons _ _

theorem rest_eq_nil : rest as = [] ↔ as = [] := by
  cases as with
  | nil => exact iff_of_true rfl rfl
  | cons a as => simp [rest_cons]

theorem length_le_rest (as : List CString) : as.length ≤ (rest as).length := by
  have hle := @length_le_closed _ bar (as.map CString.bytes)
  rwa [length_map] at hle

/-- The features that are left as they are compared. -/
def seen (buffer : CString) (as : List CString) : List CString := BagMerge.carry emptyFeature buffer as

theorem seen_nil (buffer : CString) : seen buffer [] = [] := rfl

theorem seen_empty (buffer : CString) (as : List CString) : seen buffer (emptyFeature :: as) = buffer :: seen buffer as :=
  BagMerge.carry_cons_self _ _ _

theorem seen_cons (h : a ≠ emptyFeature) (buffer : CString) (as : List CString) : seen buffer (a :: as) = a :: seen a as :=
  BagMerge.carry_cons_of_ne h _ _

theorem readFeature_rest (hb : b.Terminated) (hu : b.content = some u) (ha : bar ∉ a.bytes)
    (hlen : (rest (a :: as)).length < CL_DYN_STRING_SIZE) :
    ∃ b' d, b.readFeature (rest (a :: as)) = some (b', some (bar :: rest as)) ∧ b'.Terminated ∧ b'.content = some d ∧
      seen u (a :: as) = d :: seen d as := by
  by_cases hempty : a = emptyFeature
  · subst hempty
    exact ⟨b, u, rfl, hb, hu, seen_empty _ _⟩
  · obtain ⟨b', r, hread, hb', -⟩ := hb.readFeature hlen
    rw [rest_cons] at hlen hread ⊢
    have hhead : (a.bytes ++ bar :: rest as).head? ≠ some bar := by
      intro hhead
      cases hbytes : a.bytes with
      | nil => exact hempty (CString.bytes_injective hbytes)
      | cons c s =>
        rw [hbytes] at ha hhead
        exact ha (some.inj hhead ▸ mem_cons_self)
    rw [length_append, length_cons] at hlen
    obtain ⟨old, c, behind, hbytes, hold⟩ := b.exists_split (n := a.bytes.length) (by omega)
    obtain ⟨b'', hcopy, hbytes'⟩ := copyFeature_closed [] ha (rest as) hbytes hold
    have hread' : b.readFeature (a.bytes ++ bar :: rest as) = some (b'', some (bar :: rest as)) := (if_pos hhead).trans hcopy
    obtain ⟨rfl, -⟩ := Prod.mk.inj (some.inj (hread.symm.trans hread'))
    exact ⟨b', a, hread', hb', content_eq hbytes', seen_cons hempty _ _⟩

/-- The loop merges the features as they are compared. -/
theorem intersectionLoop_rest (as bs : List CString) (result : List CqiByte) (h : st.Terminated) (hu : st.f1.content = some u) (hv : st.f2.content = some v)
    (ha : ∀ a ∈ as, bar ∉ a.bytes) (hb : ∀ b ∈ bs, bar ∉ b.bytes) (hlen : (rest as).length < CL_DYN_STRING_SIZE)
    (hlen' : (rest bs).length < CL_DYN_STRING_SIZE) (hrounds : as.length + bs.length < rounds) :
    ∃ st', intersectionLoop rounds st (rest as) (rest bs) result =
      some ⟨true, .ok, result ++ rest (BagMerge.inter (seen u as) (seen v bs)) ++ [0], st'⟩ := by
  induction rounds generalizing st u v as bs result with
  | zero => exact absurd hrounds (Nat.not_lt_zero _)
  | succ rounds ih =>
    cases as with
    | nil =>
      refine ⟨st, ?_⟩
      rw [intersectionLoop_end (.inl (rest_eq_nil.mpr rfl)), seen_nil, BagMerge.inter_nil_left, rest_eq_nil.mpr rfl, append_nil]
    | cons a as =>
      cases bs with
      | nil =>
        refine ⟨st, ?_⟩
        rw [intersectionLoop_end (.inr (rest_eq_nil.mpr rfl)), seen_nil, BagMerge.inter_nil_right, rest_eq_nil.mpr rfl,
          append_nil]
      | cons b bs =>
        obtain ⟨ha0, has⟩ := forall_mem_cons.mp ha
        obtain ⟨hb0, hbs⟩ := forall_mem_cons.mp hb
        obtain ⟨f1, d1, hread1, hf1, hc1, hseen1⟩ := readFeature_rest h.1 hu ha0 hlen
        obtain ⟨f2, d2, hread2, hf2, hc2, hseen2⟩ := readFeature_rest h.2 hv hb0 hlen'
        have hend : ¬(rest (a :: as) = [] ∨ rest (b :: bs) = []) := by
          rw [rest_eq_nil, rest_eq_nil]
          simp
        rw [intersectionLoop_round hend hread1 hread2 hc1 hc2, hseen1, hseen2]
        rw [rest_cons, length_append, length_cons] at hlen hlen'
        rw [length_cons, length_cons] at hrounds
        have hnext : Statics.Terminated ⟨f1, f2⟩ := ⟨hf1, hf2⟩
        -- a feature that stays active is an empty one in front of the others
        have hactive : ∀ cs, bar :: rest cs = rest (emptyFeature :: cs) := fun cs => rfl
        have hnoBar : bar ∉ emptyFeature.bytes := not_mem_nil
        split_ifs with heq hlt
        · obtain rfl := clStrcmp_eq_zero_iff.mp heq
          obtain ⟨st', hloop⟩ := ih as bs (result ++ (d1.bytes ++ [bar])) hnext hc1 hc2 has hbs (by omega) (by omega) (by omega)
          refine ⟨st', ?_⟩
          rw [hloop, BagMerge.inter_cons_self, rest_cons]
          simp only [append_assoc, singleton_append]
        · have hlt : d1 < d2 := hlt
          rw [hactive bs]
          obtain ⟨st', hloop⟩ := ih as (emptyFeature :: bs) result hnext hc1 hc2 has
            (forall_mem_cons.mpr ⟨hnoBar, hbs⟩) (by omega) (by rw [← hactive, length_cons]; omega)
            (by rw [length_cons]; omega)
          refine ⟨st', ?_⟩
          rw [hloop, BagMerge.inter_of_lt hlt, seen_empty]
        · have hgt : d2 < d1 := lt_of_le_of_ne (not_lt.mp hlt) fun h => heq (clStrcmp_eq_zero_iff.mpr h.symm)
          rw [hactive as]
          obtain ⟨st', hloop⟩ := ih (emptyFeature :: as) bs result hnext hc1 hc2
            (forall_mem_cons.mpr ⟨hnoBar, has⟩) hbs (by rw [← hactive, length_cons]; omega) (by omega)
            (by rw [length_cons]; omega)
          refine ⟨st', ?_⟩
          rw [hloop, BagMerge.inter_of_gt hgt, seen_empty]

/-! ## The intersection -/

theorem noBar_seen {buffer : CString} (hbuffer : bar ∉ buffer.bytes) (has : ∀ a ∈ as, bar ∉ a.bytes) :
    ∀ a ∈ seen buffer as, bar ∉ a.bytes := by
  induction as generalizing buffer with
  | nil => exact fun a ha => absurd ha not_mem_nil
  | cons a as ih =>
    obtain ⟨ha, has⟩ := forall_mem_cons.mp has
    by_cases hempty : a = emptyFeature
    · rw [hempty, seen_empty]
      exact forall_mem_cons.mpr ⟨hbuffer, ih hbuffer has⟩
    · rw [seen_cons hempty]
      exact forall_mem_cons.mpr ⟨ha, ih ha has⟩

theorem rest_inj (has : ∀ a ∈ as, bar ∉ a.bytes) (hbs : ∀ b ∈ bs, bar ∉ b.bytes) : rest as = rest bs ↔ as = bs := by
  refine ⟨fun h => ?_, fun h => by rw [h]⟩
  have hsplit := congrArg (splitOn bar) h
  rw [rest, rest, splitOn_closed, splitOn_closed, flatMap_splitOn (forall_mem_map.mpr has),
    flatMap_splitOn (forall_mem_map.mpr hbs)] at hsplit
  exact map_injective_iff.mpr CString.bytes_injective (append_cancel_right hsplit)

variable {A B : FeatureSet}

theorem clSetIntersection_value (h : st.Terminated) (hu : st.f1.content = some u) (hv : st.f2.content = some v)
    (hA : A.text.length ≤ CL_DYN_STRING_SIZE) (hB : B.text.length ≤ CL_DYN_STRING_SIZE) :
    ∃ st', clSetIntersection st A.value B.value =
      some ⟨true, .ok, bar :: rest (BagMerge.inter (seen u A.features) (seen v B.features)) ++ [0], st'⟩ := by
  have htext : ∀ C : FeatureSet, C.value.bytes = bar :: rest C.features := fun C => rfl
  have hlength : ∀ C : FeatureSet, C.text.length ≤ CL_DYN_STRING_SIZE → (rest C.features).length < CL_DYN_STRING_SIZE := by
    intro C hC
    exact hC
  obtain ⟨st', hloop⟩ := intersectionLoop_rest A.features B.features [bar] h hu hv A.noBar B.noBar (hlength A hA) (hlength B hB)
    (show A.features.length + B.features.length < A.value.bytes.length + B.value.bytes.length by
      rw [htext, htext, length_cons, length_cons]
      have hcountA := length_le_rest A.features
      have hcountB := length_le_rest B.features
      omega)
  refine ⟨st', ?_⟩
  rw [clSetIntersection, if_neg, if_neg]
  · exact hloop
  · rw [htext, htext, tail_cons, tail_cons]
    exact not_or.mpr ⟨not_le.mpr (hlength A hA), not_le.mpr (hlength B hB)⟩
  · rw [htext, htext, head?_cons, head?_cons]
    simp

/-- The intersection is written exactly if the merge of the features as they are compared finds it. -/
theorem intersects_iff_inter (h : st.Terminated) (hu : st.f1.content = some u) (hv : st.f2.content = some v)
    (hA : A.text.length ≤ CL_DYN_STRING_SIZE) (hB : B.text.length ≤ CL_DYN_STRING_SIZE) :
    Intersects st A B ↔ BagMerge.inter (seen u A.features) (seen v B.features) = A.features.bagInter B.features := by
  obtain ⟨st', hcall⟩ := clSetIntersection_value h hu hv hA hB
  obtain ⟨u', hu', hnoBar⟩ := h.1.content
  obtain rfl := some.inj (hu'.symm.trans hu)
  have hinter : ∀ e ∈ BagMerge.inter (seen u' A.features) (seen v B.features), bar ∉ e.bytes := fun e he =>
    noBar_seen hnoBar A.noBar e ((BagMerge.inter_sublist _ _).1.subset he)
  rw [show A.features.bagInter B.features = (A.inter B).features from rfl, ← rest_inj hinter (A.inter B).noBar]
  constructor
  · rintro ⟨call, hcall', -, -, hresult⟩
    obtain rfl := some.inj (hcall.symm.trans hcall')
    exact (List.cons.inj (append_cancel_right hresult)).2
  · intro hrest
    exact ⟨_, hcall, rfl, rfl, congrArg (fun s => bar :: s ++ [0]) hrest⟩

theorem intersects_iff (h : st.Terminated) (hu : st.f1.content = some u) (hv : st.f2.content = some v)
    (hA : A.text.length ≤ CL_DYN_STRING_SIZE) (hB : B.text.length ≤ CL_DYN_STRING_SIZE) :
    Intersects st A B ↔ EmptyHarmless u v A B := by
  rw [intersects_iff_inter h hu hv hA hB]
  exact BagMerge.inter_carry_carry_iff A.sorted B.sorted

theorem inter_comm (A B : FeatureSet) : A.inter B = B.inter A := FeatureSet.ext (BagMerge.bagInter_comm A.sorted B.sorted)

theorem inter_self (A : FeatureSet) : A.inter A = A := FeatureSet.ext (BagMerge.bagInter_self A.sorted)

/-- After any calls, the intersection of two values is written exactly if no empty feature matters to the comparison. -/
theorem clSetIntersection_exact_iff (calls : List (CString × CString)) (A B : FeatureSet)
    (hA : A.text.length ≤ CL_DYN_STRING_SIZE) (hB : B.text.length ≤ CL_DYN_STRING_SIZE) :
    ∃ st u v, staticsAfter calls = some st ∧ st.f1.content = some u ∧ st.f2.content = some v ∧
      (Intersects st A B ↔ EmptyHarmless u v A B) ∧ A.inter B = B.inter A ∧ A.inter A = A := by
  obtain ⟨st, hst, hterminated⟩ := staticsAfter_terminated calls
  obtain ⟨u, hu, -⟩ := hterminated.1.content
  obtain ⟨v, hv, -⟩ := hterminated.2.content
  exact ⟨st, u, v, hst, hu, hv, intersects_iff hterminated hu hv hA hB, inter_comm A B, inter_self A⟩

def oneFeature (e : CString) (h : bar ∉ e.bytes := by decide) : FeatureSet :=
  ⟨[e], pairwise_singleton _ _, by simpa using h⟩

theorem noNull_letterA : (0 : CqiByte) ∉ [97] := by decide

def letterA : CString := ⟨[97], noNull_letterA⟩

theorem clSetIntersection_exact_iff_letterA :
    ∃ st u v, staticsAfter [] = some st ∧ st.f1.content = some u ∧ st.f2.content = some v ∧
      (Intersects st (oneFeature letterA) (oneFeature emptyFeature) ↔
        EmptyHarmless u v (oneFeature letterA) (oneFeature emptyFeature)) ∧
      (oneFeature letterA).inter (oneFeature emptyFeature) = (oneFeature emptyFeature).inter (oneFeature letterA) ∧
      (oneFeature letterA).inter (oneFeature letterA) = oneFeature letterA :=
  clSetIntersection_exact_iff [] _ _ (by decide) (by decide)

/-- With an umlaut in front of the empty feature, the empty one is not found in the other value: the second comparison is
with the umlaut again. -/
theorem clSetIntersection_not_exact : ¬∀ (calls : List (CString × CString)) (A B : FeatureSet),
    A.text.length ≤ CL_DYN_STRING_SIZE → B.text.length ≤ CL_DYN_STRING_SIZE →
      ∃ st, staticsAfter calls = some st ∧ Intersects st A B := by
  intro h
  obtain ⟨st, hst, hinter⟩ := h [] ⟨[⟨[0xE4], by decide⟩, emptyFeature], by decide, by decide⟩
    (oneFeature emptyFeature) (by decide) (by decide)
  obtain ⟨st', hst', hterminated⟩ := staticsAfter_terminated []
  obtain rfl := some.inj (hst.symm.trans hst')
  obtain ⟨u, hu, -⟩ := hterminated.1.content
  obtain ⟨v, hv, -⟩ := hterminated.2.content
  have hempty := ((intersects_iff hterminated hu hv (by decide) (by decide)).mp hinter).1 (by decide) (by decide)
  exact absurd hempty.1 (by simp [FeatureSet.standIn, emptyFeature, clStrcmp])

end Loop

end CWB.FeatureSets
