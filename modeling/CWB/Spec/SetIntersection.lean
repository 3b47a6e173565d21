import CWB.Spec.MakeSet

/-! `cl_set_intersection` of `cl/attributes.c`. Its two feature buffers are static, so that each call finds what the
earlier ones have left in them. A result is `none` where a buffer is left or read without terminator. -/

namespace CWB.FeatureSets

open List Cqi

def CL_DYN_STRING_SIZE : ℕ := 2048

structure FeatureBuffer where
  bytes : List CqiByte
  length_eq : bytes.length = CL_DYN_STRING_SIZE

namespace FeatureBuffer

variable (b : FeatureBuffer)

/-- `*p = c`, for the pointer to the place `p` of the buffer. -/
def put (p : ℕ) (c : CqiByte) : Option FeatureBuffer :=
  if p < CL_DYN_STRING_SIZE then some { bytes := b.bytes.set p c, length_eq := by rw [length_set, b.length_eq] }
  else none

def content : Option CString := if 0 ∈ b.bytes then some (CString.ofBuffer b.bytes) else none

/-- The loop that copies a feature to `p`, with the rest of the string from the separator on. -/
def copyFeature (b : FeatureBuffer) (p : ℕ) : List CqiByte → Option (FeatureBuffer × Option (List CqiByte))
  | [] => some (b, none)
  | c :: s =>
    if c = bar then (b.put p 0).map fun b => (b, some (c :: s))
    else (b.put p c).bind fun b => b.copyFeature (p + 1) s

/-- The next feature, if none is active. -/
def readFeature (s : List CqiByte) : Option (FeatureBuffer × Option (List CqiByte)) :=
  if s.head? ≠ some bar then b.copyFeature 0 s else some (b, some s)

end FeatureBuffer

structure Statics where
  f1 : FeatureBuffer
  f2 : FeatureBuffer

def initialStatics : Statics where
  f1 := ⟨replicate CL_DYN_STRING_SIZE 0, length_replicate⟩
  f2 := ⟨replicate CL_DYN_STRING_SIZE 0, length_replicate⟩

/-- What a call returns, and what it has written. -/
structure SetCall where
  returned : Bool
  errno : Cda
  result : List CqiByte
  statics : Statics

/-- `while (*s1 && *s2)`, with the rounds that are left. -/
def intersectionLoop : ℕ → Statics → List CqiByte → List CqiByte → List CqiByte → Option SetCall
  | 0, _, _, _, _ => none
  | rounds + 1, st, s1, s2, result =>
    if s1 = [] ∨ s2 = [] then some { returned := true, errno := .ok, result := result ++ [0], statics := st }
    else do
      let (f1, s1) ← st.f1.readFeature s1
      match s1 with
      | none => some { returned := false, errno := .efsetinv, result, statics := { st with f1 } }
      | some s1 =>
        let (f2, s2) ← st.f2.readFeature s2
        match s2 with
        | none => some { returned := false, errno := .efsetinv, result, statics := ⟨f1, f2⟩ }
        | some s2 =>
          let e1 ← f1.content
          let e2 ← f2.content
          let comparison := clStrcmp e1.bytes e2.bytes
          if comparison = 0 then intersectionLoop rounds ⟨f1, f2⟩ s1.tail s2.tail (result ++ (e1.bytes ++ [bar]))
          else if comparison < 0 then intersectionLoop rounds ⟨f1, f2⟩ s1.tail s2 result
          else intersectionLoop rounds ⟨f1, f2⟩ s1 s2.tail result

/-- `cl_set_intersection` -/
def clSetIntersection (st : Statics) (s1 s2 : CString) : Option SetCall :=
  if s1.bytes.head? ≠ some bar ∨ s2.bytes.head? ≠ some bar then
    some { returned := false, errno := .efsetinv, result := [], statics := st }
  else if s1.bytes.tail.length ≥ CL_DYN_STRING_SIZE ∨ s2.bytes.tail.length ≥ CL_DYN_STRING_SIZE then
    some { returned := false, errno := .ebuffer, result := [], statics := st }
  else intersectionLoop (s1.bytes.length + s2.bytes.length) st s1.bytes.tail s2.bytes.tail [bar]

/-- The buffers after some calls, with any strings. -/
def staticsAfter (calls : List (CString × CString)) : Option Statics :=
  calls.foldlM (fun st call => (clSetIntersection st call.1 call.2).map SetCall.statics) initialStatics

/-! ## Feature sets -/

/-- The features of a value in normal form. -/
structure FeatureSet where
  features : List CString
  sorted : features.Pairwise fun e e' => clStrcmp e.bytes e'.bytes ≤ 0
  noBar : ∀ e ∈ features, bar ∉ e.bytes

def emptyFeature : CString := ⟨[], CString.noNull_nil⟩

namespace FeatureSet

variable (A B : FeatureSet)

theorem ext {A B : FeatureSet} (h : A.features = B.features) : A = B := by
  cases A
  cases B
  cases h
  rfl

def text : List CqiByte := setText (A.features.map CString.bytes)

theorem text_noNull : 0 ∉ A.text := by
  rw [text, setText, mem_cons, not_or, Separated.closed]
  refine ⟨by decide, fun hmem => ?_⟩
  obtain ⟨e, he, hzero⟩ := mem_flatMap.mp hmem
  obtain ⟨f, -, rfl⟩ := mem_map.mp he
  obtain hzero | hzero := mem_append.mp hzero
  · exact f.noNull hzero
  · exact absurd (mem_singleton.mp hzero) (by decide)

def value : CString := ⟨A.text, A.text_noNull⟩

/-- The features that occur in both sets. -/
def inter : FeatureSet where
  features := A.features.bagInter B.features
  sorted := A.sorted.sublist bagInter_sublist_left
  noBar e he := A.noBar e (bagInter_sublist_left.subset he)

/-- What the empty features of a set are taken for: the feature in front of them, or what the buffer holds. -/
def standIn (buffer : CString) : CString := ((A.features.filter fun e => clStrcmp e.bytes [] < 0).getLast?).getD buffer

/-- The features behind the empty ones that both sets have do not come before `e`, and `B` has `e` no more often than `A`. -/
def Harmless (e : CString) : Prop :=
  (∀ x ∈ A.features, x ∈ B.features → clStrcmp [] x.bytes < 0 → clStrcmp e.bytes x.bytes ≤ 0) ∧
    B.features.count e ≤ A.features.count e

end FeatureSet

/-- No empty feature matters to the comparison: where both sets have one, they are taken for what they are, and where
only one has, what they are taken for does no harm. -/
def EmptyHarmless (f1 f2 : CString) (A B : FeatureSet) : Prop :=
  (emptyFeature ∈ A.features → emptyFeature ∈ B.features → A.standIn f1 = emptyFeature ∧ B.standIn f2 = emptyFeature) ∧
    (emptyFeature ∈ A.features → emptyFeature ∉ B.features → A.Harmless B (A.standIn f1)) ∧
    (emptyFeature ∉ A.features → emptyFeature ∈ B.features → B.Harmless A (B.standIn f2))

/-- A call writes the normal form of the intersection. -/
def Intersects (st : Statics) (A B : FeatureSet) : Prop :=
  ∃ call, clSetIntersection st A.value B.value = some call ∧ call.returned = true ∧ call.errno = .ok ∧
    call.result = (A.inter B).text ++ [0]

end CWB.FeatureSets
