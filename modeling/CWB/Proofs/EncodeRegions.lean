import CWB.Library.Nesting
import CWB.Library.Traverse
import CWB.Proofs.RegionFiles

/-! The region files of `cwb-encode`. Without its annotations an attribute is a `Nesting.Levels`,
and each of its element attributes is the same `Levels`; what holds of those holds of the
files, for every sequence of tags and tokens. -/

namespace CWB

open Nat Option List Nesting Traverse

def RangeFile.track (r : RangeFile) : Track := ⟨r.isOpen, r.startPos, r.rng⟩

def Nest.levels (n : Nest) : Levels := ⟨n.maxRecursion, n.recursionLevel, n.files.map RangeFile.track⟩

variable {opts : EncodeOptions} {fill : FillRate} {makeSet : MakeSet} {e line : ℤ} {annot : List UInt8}

/-! ## The code without annotations -/

variable {r : RangeFile}

theorem closeThis_track {r' : RangeFile} (h : r.closeThis fill e = some r') : r'.track = r.track.closeThis e := by
  simp only [RangeFile.closeThis] at h
  split_ifs at h with hle hstore
  · obtain ⟨values, -, hr⟩ := bind_eq_some_iff.mp h
    cases hr
    simp [RangeFile.track, Track.closeThis, hle]
  · cases h
    simp [RangeFile.track, Track.closeThis, hle]
  · cases h
    simp [RangeFile.track, Track.closeThis, hle]

theorem rangeClose_track {r' : RangeFile} (h : r.rangeClose fill e = some r') : r'.track = r.track.close e := by
  unfold RangeFile.rangeClose at h
  unfold Track.close
  have hopen : r.track.isOpen = r.isOpen := rfl
  split_ifs at h with ho
  · rw [if_pos (by rw [hopen]; exact ho)]
    exact closeThis_track h
  · cases h
    rw [if_neg (by rw [hopen]; exact ho)]

theorem openThis_track (r : RangeFile) : (r.openThis opts makeSet line annot).track = r.track.openThis line := rfl

theorem rangeOpen_track {r' : RangeFile} (h : r.rangeOpen opts fill makeSet line annot = some r') :
    r'.track = (r.track.close (line - 1)).openThis line := by
  obtain ⟨r1, h1, hr⟩ := bind_eq_some_iff.mp h
  cases hr
  rw [openThis_track, rangeClose_track h1]

theorem modifyAtM_map {α β : Type} {f : α → Option α} {g : α → β} {t : β → β}
    (hf : ∀ a a', f a = some a' → g a' = t (g a)) {k : ℕ} {l l' : List α} (h : modifyAtM f k l = some l') :
    l'.map g = (l.map g).modify k t := by
  induction k generalizing l l' with
  | zero =>
    cases l with
    | nil => cases h
    | cons a l =>
      obtain ⟨a', ha', rfl⟩ := map_eq_some_iff.mp h
      simp [hf a a' ha']
  | succ k ih =>
    cases l with
    | nil => cases h
    | cons a l =>
      obtain ⟨l1, hl1, rfl⟩ := map_eq_some_iff.mp h
      rw [map_cons, map_cons, modify_succ_cons, ih hl1]

variable {n : Nest}

theorem withFile_levels {n' : Nest} {level : ℕ} {f : RangeFile → Option RangeFile} {t : Track → Track}
    (hf : ∀ r r', f r = some r' → r'.track = t r.track) (h : n.withFile level f = some n') :
    n'.levels = { n.levels with tracks := n.levels.tracks.modify level t } := by
  obtain ⟨files, hfiles, hn⟩ := bind_eq_some_iff.mp h
  cases hn
  simp only [Nest.levels, modifyAtM_map hf hfiles]

theorem rangeClose_levels {n' : Nest} (h : n.rangeClose fill e = some n') : n'.levels = n.levels.close e := by
  rcases n with ⟨maxRecursion, level, dropped, files⟩
  unfold Nest.rangeClose at h
  cases maxRecursion with
  | none => exact withFile_levels (fun _ _ hr => rangeClose_track hr) h
  | some m =>
    cases level with
    | zero =>
      cases h
      rfl
    | succ level =>
      simp only at h
      split_ifs at h with hlt hpos
      · cases h
        simp [Nest.levels, Levels.close, hlt]
      · rw [withFile_levels (t := fun t => t.close e) (fun _ _ hr => rangeClose_track hr) h]
        simp [Nest.levels, Levels.close, hlt, hpos]
      · rw [withFile_levels (t := fun t => t.closeThis e) (fun _ _ hr => closeThis_track hr) h]
        have h0 : level = 0 := by omega
        subst h0
        simp [Nest.levels, Levels.close]

theorem rangeOpen_levels {n' : Nest} (h : n.rangeOpen opts fill makeSet line annot = some n') :
    n'.levels = n.levels.start line := by
  rcases n with ⟨maxRecursion, level, dropped, files⟩
  unfold Nest.rangeOpen at h
  cases maxRecursion with
  | none => exact withFile_levels (fun _ _ hr => rangeOpen_track hr) h
  | some m =>
    simp only at h
    split_ifs at h with hlt hpos
    · cases h
      simp [Nest.levels, Levels.start, hlt]
    · rw [withFile_levels (t := fun t => (t.close (line - 1)).openThis line) (fun _ _ hr => rangeOpen_track hr) h]
      simp [Nest.levels, Levels.start, hlt, hpos]
    · rw [withFile_levels (t := fun t => t.openThis line) (fun r r' hr => by cases hr; rfl) h]
      have h0 : level = 0 := by omega
      subst h0
      simp [Nest.levels, Levels.start]

/-- In a flat structure a start tag closes by itself what is open. -/
theorem start_close {n : Levels} (hflat : n.maxRecursion = none) : (n.close (line - 1)).start line = n.start line := by
  simp only [Levels.close, Levels.start, hflat, Levels.mk.injEq, true_and]
  cases n.tracks with
  | nil => rfl
  | cons t rest => simp

/-! ## Attributes with their children -/

/-- The element attributes are at the same levels, with the same regions. -/
def SAttr.Agree (a : SAttr) : Prop := ∀ c ∈ a.elAtts, c.2.levels = a.nest.levels

/-- What a step of the children does to their levels, when it keeps the names. -/
theorem children_step {f : List UInt8 × Nest → Option (List UInt8 × Nest)} {g : Levels → Levels} {l : Levels}
    {cs cs' : List (List UInt8 × Nest)} (hf : ∀ c c', f c = some c' → c'.1 = c.1 ∧ c'.2.levels = g c.2.levels)
    (h : cs.mapM f = some cs') (hcs : ∀ c ∈ cs, c.2.levels = l) :
    cs'.map Prod.fst = cs.map Prod.fst ∧ ∀ c ∈ cs', c.2.levels = g l := by
  have hall := forall₂_mapM h
  clear h
  induction hall with
  | nil => exact ⟨rfl, fun c hc => by cases hc⟩
  | @cons a b as bs hab _ ih =>
    obtain ⟨hname, hlevels⟩ := hf a b hab
    obtain ⟨hnames, hrest⟩ := ih fun c hc => hcs c (mem_cons_of_mem a hc)
    refine ⟨by rw [map_cons, map_cons, hname, hnames], fun c hc => ?_⟩
    obtain rfl | hc := mem_cons.mp hc
    · rw [hlevels, hcs a mem_cons_self]
    · exact hrest c hc

/-- The declaration, the levels and the agreement of the children, in one place. -/
structure SAttr.At (a : SAttr) (null : Bool) (names : List (List UInt8)) (l : Levels) : Prop where
  null : a.nullAttribute = null
  names : a.elAtts.map Prod.fst = names
  levels : a.nest.levels = l
  agree : a.Agree

variable {a a' : SAttr} {null : Bool} {names : List (List UInt8)} {l : Levels}

theorem SAttr.At.rangeClose (h : a.At null names l) (hclose : a.rangeClose fill e = some a') :
    a'.At null names (if null then l else l.close e) := by
  unfold SAttr.rangeClose at hclose
  rw [h.null] at hclose
  split_ifs at hclose ⊢
  · cases hclose
    exact h
  · obtain ⟨nest, hnest, hrest⟩ := bind_eq_some_iff.mp hclose
    obtain ⟨elAtts, helAtts, ha'⟩ := bind_eq_some_iff.mp hrest
    cases ha'
    have hlevels := rangeClose_levels hnest
    rw [h.levels] at hlevels
    obtain ⟨hnames, hchildren⟩ := children_step (g := fun l => l.close e) (fun c c' hc => by
      obtain ⟨child, hchild, hc'⟩ := bind_eq_some_iff.mp hc
      cases hc'
      exact ⟨rfl, rangeClose_levels hchild⟩) helAtts h.agree
    refine ⟨rfl, hnames.trans h.names, hlevels, fun c hc => ?_⟩
    rw [hchildren c hc, hlevels, h.levels]

theorem SAttr.At.openParsed (h : a.At null names l) (hopen : a.openParsed opts fill makeSet line annot = some a') :
    a'.At null names (l.start line) := by
  obtain ⟨nest, hnest, hrest⟩ := bind_eq_some_iff.mp hopen
  obtain ⟨elAtts, helAtts, ha'⟩ := bind_eq_some_iff.mp hrest
  cases ha'
  have hlevels := rangeOpen_levels hnest
  rw [h.levels] at hlevels
  obtain ⟨hnames, hchildren⟩ := children_step (g := fun l => l.start line) (fun c c' hc => by
    obtain ⟨child, hchild, hc'⟩ := bind_eq_some_iff.mp hc
    cases hc'
    exact ⟨rfl, rangeOpen_levels hchild⟩) helAtts h.agree
  refine ⟨h.null, hnames.trans h.names, hlevels, fun c hc => ?_⟩
  rw [hchildren c hc, h.levels, hlevels]

theorem SAttr.At.rangeOpen (h : a.At null names l) (hopen : a.rangeOpen opts fill makeSet line annot = some a') :
    a'.At null names (if null then l else l.start line) := by
  unfold SAttr.rangeOpen at hopen
  rw [h.null] at hopen
  split_ifs at hopen ⊢ with hnull himpl
  · cases hopen
    exact h
  · -- the implicit close is one that the start tag would make itself
    obtain ⟨a1, ha1, hopen⟩ := bind_eq_some_iff.mp hopen
    have hat := (h.rangeClose ha1).openParsed hopen
    rw [if_neg hnull, start_close (by rw [← h.levels]; exact himpl.1)] at hat
    exact hat
  · exact h.openParsed hopen

theorem isOpen_levels (a : SAttr) : a.isOpen = a.nest.levels.isOpen := by
  simp only [SAttr.isOpen, Nest.isOpen, Levels.isOpen, Nest.levels, head?_map, Option.map_map]
  rfl

theorem SAttr.At.closeLoop (h : a.At false names l) {fuel : ℕ} (hclose : a.closeLoop fill e fuel = some a') :
    a'.At false names (Levels.closeLoop e fuel l) := by
  induction fuel generalizing a l with
  | zero =>
    cases hclose
    exact h
  | succ fuel ih =>
    unfold SAttr.closeLoop at hclose
    unfold Levels.closeLoop
    rw [isOpen_levels, h.levels] at hclose
    split_ifs at hclose ⊢
    · obtain ⟨a1, ha1, hclose⟩ := bind_eq_some_iff.mp hclose
      exact ih (h.rangeClose ha1) hclose
    · cases hclose
      exact h

/-! ## The main loop -/

/-- What an event is for attribute `i`. -/
def TagEvent.tagFor {n : ℕ} (i : ℕ) : TagEvent n → Tag
  | .start j _ => if j = i then .start else .other
  | .stop j => if j = i then .stop else .other
  | .token => .token

/-- The levels of a declared attribute at the beginning. -/
def SAttrSpec.levels (spec : SAttrSpec) : Levels :=
  ⟨spec.maxRecursion, 0, replicate (spec.maxRecursion.getD 0 + 1) {}⟩

/-- The state of attribute `i` after the events: its own tags and the tokens have had their effect
on its levels, unless it is a null attribute. -/
def AttrAfter {n : ℕ} (spec : SAttrSpec) (i : ℕ) (evs : List (TagEvent n)) (a : SAttr) : Prop :=
  a.At spec.nullAttribute (spec.elAtts.map Prod.fst)
    (if spec.nullAttribute then spec.levels
      else (run CL_MAX_CORPUS_SIZE (spec.levels, 0) (evs.map (TagEvent.tagFor i))).1)

theorem newNest_levels (m : Option ℕ) (storeValues featureSet : Bool) :
    (newNest m storeValues featureSet).levels = ⟨m, 0, replicate (m.getD 0 + 1) {}⟩ := by
  simp [newNest, Nest.levels, RangeFile.track]

theorem attrAfter_nil {n : ℕ} (spec : SAttrSpec) (i : ℕ) : AttrAfter spec i ([] : List (TagEvent n)) (rangeDeclare spec) := by
  refine ⟨rfl, by simp [rangeDeclare], ?_, ?_⟩
  · rw [rangeDeclare, newNest_levels]
    split_ifs <;> rfl
  · intro c hc
    obtain ⟨x, -, rfl⟩ := mem_map.mp hc
    simp only [rangeDeclare, newNest_levels]

theorem modifyAtM_getElem? {α : Type} {f : α → Option α} {k : ℕ} {l l' : List α} (h : modifyAtM f k l = some l') {i : ℕ}
    {a' : α} (hi : l'[i]? = some a') : ∃ a, l[i]? = some a ∧ if i = k then f a = some a' else a = a' := by
  induction k generalizing l l' i with
  | zero =>
    cases l with
    | nil => cases h
    | cons a l =>
      obtain ⟨b, hb, rfl⟩ := map_eq_some_iff.mp h
      cases i with
      | zero =>
        cases hi
        exact ⟨a, rfl, by simpa using hb⟩
      | succ i => exact ⟨a', hi, by simp⟩
  | succ k ih =>
    cases l with
    | nil => cases h
    | cons a l =>
      obtain ⟨l1, hl1, rfl⟩ := map_eq_some_iff.mp h
      cases i with
      | zero => exact ⟨a', hi, by simp⟩
      | succ i =>
        obtain ⟨b, hb, hif⟩ := ih hl1 hi
        exact ⟨b, hb, by simpa using hif⟩

theorem modifyAtM_length {α : Type} {f : α → Option α} {k : ℕ} {l l' : List α} (h : modifyAtM f k l = some l') :
    l'.length = l.length := by
  induction k generalizing l l' with
  | zero =>
    cases l with
    | nil => cases h
    | cons a l =>
      obtain ⟨b, hb, rfl⟩ := map_eq_some_iff.mp h
      rfl
  | succ k ih =>
    cases l with
    | nil => cases h
    | cons a l =>
      obtain ⟨l1, hl1, rfl⟩ := map_eq_some_iff.mp h
      rw [length_cons, ih hl1, length_cons]

theorem run_snoc (limit : ℕ) (st : Levels × ℕ) (tags : List Tag) (tag : Tag) :
    run limit st (tags ++ [tag]) = Nesting.step limit (run limit st tags) tag := by
  rw [run, foldl_append]
  rfl

/-- The position depends on the tokens only. -/
theorem run_position (limit : ℕ) (l : Levels) (tags : List Tag) :
    (run limit (l, 0) tags).2 = min (tags.count .token) limit := by
  induction tags using reverseRecOn with
  | nil => simp [run]
  | append_singleton tags tag ih =>
    rw [run_snoc]
    unfold Nesting.step
    rw [count_append]
    split_ifs with hlim
    · rw [ih] at hlim ⊢
      omega
    · cases tag <;> (simp only [count_singleton, ih]; simp; try omega)

theorem count_tagFor {n : ℕ} (i : ℕ) (evs : List (TagEvent n)) :
    (evs.map (TagEvent.tagFor i)).count .token = evs.count .token := by
  induction evs with
  | nil => rfl
  | cons ev evs ih =>
    rw [map_cons, count_cons, count_cons, ih]
    congr 1
    cases ev with
    | start j annot =>
      simp only [TagEvent.tagFor]
      split_ifs <;> simp_all
    | stop j =>
      simp only [TagEvent.tagFor]
      split_ifs <;> simp_all
    | token => simp [TagEvent.tagFor]

variable {specs : List SAttrSpec} {evs : List (TagEvent specs.length)} {st : EncodeState}

/-- The levels after one more event. -/
theorem attrAfter_snoc {n : ℕ} {spec : SAttrSpec} {i : ℕ} {evs : List (TagEvent n)} {ev : TagEvent n} {a : SAttr} {l : Levels}
    (hstep : (Nesting.step CL_MAX_CORPUS_SIZE
      (run CL_MAX_CORPUS_SIZE (spec.levels, 0) (evs.map (TagEvent.tagFor i))) (ev.tagFor i)).1 = l)
    (hat : a.At spec.nullAttribute (spec.elAtts.map Prod.fst) (if spec.nullAttribute then spec.levels else l)) :
    AttrAfter spec i (evs ++ [ev]) a := by
  rw [AttrAfter, map_append, map_singleton, run_snoc, hstep]
  exact hat

/-- The attribute of a tag and the others. -/
theorem attrAfter_modify {n : ℕ} {j : Fin n} {ev : TagEvent n} {evs : List (TagEvent n)} {f : SAttr → Option SAttr}
    {g : Levels → Levels} {attrs attrs' : List SAttr} (hmod : modifyAtM f j attrs = some attrs')
    (htag : ∀ (spec : SAttrSpec) (i : ℕ), (Nesting.step CL_MAX_CORPUS_SIZE
      (run CL_MAX_CORPUS_SIZE (spec.levels, 0) (evs.map (TagEvent.tagFor i))) (ev.tagFor i)).1 =
        if j = i then g (run CL_MAX_CORPUS_SIZE (spec.levels, 0) (evs.map (TagEvent.tagFor i))).1
        else (run CL_MAX_CORPUS_SIZE (spec.levels, 0) (evs.map (TagEvent.tagFor i))).1)
    (hf : ∀ (a a' : SAttr) null names l, a.At null names l → f a = some a' → a'.At null names (if null then l else g l))
    {i : ℕ} {spec : SAttrSpec} (hattrs : ∀ a, attrs[i]? = some a → AttrAfter spec i evs a) {a : SAttr}
    (ha : attrs'[i]? = some a) : AttrAfter spec i (evs ++ [ev]) a := by
  obtain ⟨a1, ha1, hif⟩ := modifyAtM_getElem? hmod ha
  have hafter := hattrs a1 ha1
  apply attrAfter_snoc (htag spec i)
  by_cases hij : i = j
  · rw [if_pos hij] at hif
    have hat := hf _ _ _ _ _ hafter hif
    rw [if_pos hij.symm]
    cases hnull : spec.nullAttribute <;> simpa [hnull] using hat
  · rw [if_neg hij] at hif
    subst hif
    rw [if_neg (Ne.symm hij)]
    exact hafter

/-- What holds of the state after any sequence of tags and tokens. -/
theorem encodeEvents_after (h : encodeEvents opts fill makeSet specs evs = some st) :
    st.line = min (evs.count .token) CL_MAX_CORPUS_SIZE ∧ st.attrs.length = specs.length ∧
      ∀ i a spec, st.attrs[i]? = some a → specs[i]? = some spec → AttrAfter spec i evs a := by
  induction evs using reverseRecOn generalizing st with
  | nil =>
    cases h
    refine ⟨by simp, by simp, fun i a spec ha hspec => ?_⟩
    rw [getElem?_map, hspec] at ha
    cases ha
    exact attrAfter_nil spec i
  | append_singleton evs ev ih =>
    rw [encodeEvents, foldlM_append] at h
    obtain ⟨st1, hst1, h⟩ := bind_eq_some_iff.mp h
    have hstep : st1.step opts fill makeSet ev = some st := by simpa using h
    obtain ⟨hline, hlength, hattrs⟩ := ih hst1
    have hpos : ∀ (spec : SAttrSpec) (i : ℕ),
        (run CL_MAX_CORPUS_SIZE (spec.levels, 0) (evs.map (TagEvent.tagFor i))).2 = st1.line := by
      intro spec i
      rw [run_position, count_tagFor, hline]
    have hcount : (evs ++ [ev]).count .token = evs.count .token + if ev = .token then 1 else 0 := by
      rw [count_append, count_cons, count_nil]
      simp
    unfold EncodeState.step at hstep
    by_cases hfull : CL_MAX_CORPUS_SIZE ≤ st1.line
    · rw [if_pos hfull] at hstep
      cases hstep
      refine ⟨by rw [hcount]; omega, hlength, fun i a spec ha hspec => ?_⟩
      refine attrAfter_snoc ?_ (hattrs i a spec ha hspec)
      rw [Nesting.step.eq_def, if_pos (by rw [hpos spec i]; exact hfull)]
    · rw [if_neg hfull] at hstep
      have hgo : ∀ (spec : SAttrSpec) (i : ℕ), ¬CL_MAX_CORPUS_SIZE ≤
          (run CL_MAX_CORPUS_SIZE (spec.levels, 0) (evs.map (TagEvent.tagFor i))).2 := by
        intro spec i
        rw [hpos spec i]
        exact hfull
      cases ev with
      | token =>
        cases hstep
        refine ⟨by rw [hcount, if_pos rfl]; simp only; omega, hlength, fun i a spec ha hspec => ?_⟩
        refine attrAfter_snoc ?_ (hattrs i a spec ha hspec)
        rw [Nesting.step.eq_def, if_neg (hgo spec i)]
        rfl
      | start j annot =>
        obtain ⟨attrs, hmod, hst⟩ := bind_eq_some_iff.mp hstep
        cases hst
        refine ⟨by rw [hcount, if_neg (by simp)]; exact hline, (modifyAtM_length hmod).trans hlength,
          fun i a spec ha hspec => ?_⟩
        refine attrAfter_modify (g := fun l => l.start st1.line) hmod ?_
          (fun a a' null names l hat hopen => hat.rangeOpen hopen) (fun a ha => hattrs i a spec ha hspec) ha
        intro spec i
        rw [Nesting.step.eq_def, if_neg (hgo spec i), TagEvent.tagFor]
        by_cases hij : (j : ℕ) = i
        · simp only [if_pos hij, hpos spec i]
        · simp only [if_neg hij]
      | stop j =>
        obtain ⟨attrs, hmod, hst⟩ := bind_eq_some_iff.mp hstep
        cases hst
        refine ⟨by rw [hcount, if_neg (by simp)]; exact hline, (modifyAtM_length hmod).trans hlength,
          fun i a spec ha hspec => ?_⟩
        refine attrAfter_modify (g := fun l => l.close (st1.line - 1)) hmod ?_
          (fun a a' null names l hat hclose => hat.rangeClose hclose) (fun a ha => hattrs i a spec ha hspec) ha
        intro spec i
        rw [Nesting.step.eq_def, if_neg (hgo spec i), TagEvent.tagFor]
        by_cases hij : (j : ℕ) = i
        · simp only [if_pos hij, hpos spec i]
        · simp only [if_neg hij]

/-! ## Errors

The only call that can stop the program is the one that stores an annotation, when the offset
of the next one does not fit into an `int`. -/

/-- Hash and files of the annotations fit together. -/
def RangeFile.Stored (r : RangeFile) : Prop := ∃ annots, r.values.Holds annots ∧ r.num = annots.length

/-- The annotation of the open region can still be stored. -/
def RangeFile.Roomy (r : RangeFile) : Prop :=
  r.isOpen = true → r.storeValues = true → r.values.offset + (truncateValue (r.annot.getD [])).length + 1 < 2 ^ 31

theorem bytes_firstOccurrences_snoc {f : AnnotFiles} {annots : List (List UInt8)} (h : f.Holds annots) (a : List UInt8) :
    (StringTable.bytes (StringTable.firstOccurrences (annots ++ [a]))).length ≤ f.offset + a.length + 1 := by
  rw [StringTable.firstOccurrences_snoc, h.offset_eq]
  split_ifs
  · omega
  · rw [StringTable.bytes_snoc, length_append, length_append, length_singleton]
    omega

theorem closeThis_some (fill : FillRate) (h : r.Stored) (hroom : r.Roomy) (hopen : r.isOpen = true) (e : ℤ) :
    ∃ r', r.closeThis fill e = some r' ∧ r'.Stored ∧ r'.isOpen = false := by
  obtain ⟨annots, hvalues, hnum⟩ := h
  unfold RangeFile.closeThis
  split_ifs with hle hstore
  · obtain ⟨values, hvals, hholds⟩ := store_holds fill hvalues
      (lt_of_le_of_lt (bytes_firstOccurrences_snoc hvalues _) (hroom hopen hstore))
    rw [← hnum] at hvals
    refine ⟨_, by rw [hvals]; rfl, ⟨_, hholds, ?_⟩, rfl⟩
    rw [length_append, length_singleton, ← hnum]
  · exact ⟨_, rfl, ⟨annots, hvalues, hnum⟩, rfl⟩
  · exact ⟨_, rfl, ⟨annots, hvalues, hnum⟩, rfl⟩

theorem roomy_of_closed (h : r.isOpen = false) : r.Roomy := fun ho => by
  rw [h] at ho
  cases ho

theorem rangeClose_some (fill : FillRate) (h : r.Stored) (hroom : r.Roomy) (e : ℤ) :
    ∃ r', r.rangeClose fill e = some r' ∧ r'.Stored ∧ r'.Roomy := by
  unfold RangeFile.rangeClose
  split_ifs with hopen
  · obtain ⟨r', hr', hstored, hclosed⟩ := closeThis_some fill h hroom hopen e
    exact ⟨r', hr', hstored, roomy_of_closed hclosed⟩
  · exact ⟨r, rfl, h, hroom⟩

theorem rangeOpen_some (h : r.Stored) (hroom : r.Roomy) (line : ℤ) (annot : List UInt8) :
    ∃ r', r.rangeOpen opts fill makeSet line annot = some r' ∧ r'.Stored := by
  obtain ⟨r1, hr1, hstored, -⟩ := rangeClose_some fill h hroom (line - 1)
  exact ⟨r1.openThis opts makeSet line annot, by rw [RangeFile.rangeOpen, hr1]; rfl, hstored⟩

theorem modifyAtM_some {α : Type} {f : α → Option α} {k : ℕ} {l : List α} {a a' : α} (hk : l[k]? = some a)
    (hf : f a = some a') : modifyAtM f k l = some (l.set k a') := by
  induction k generalizing l with
  | zero =>
    cases l with
    | nil => cases hk
    | cons b l =>
      cases hk
      rw [modifyAtM, hf]
      rfl
  | succ k ih =>
    cases l with
    | nil => cases hk
    | cons b l =>
      rw [modifyAtM, ih hk]
      rfl

/-- A property of all files that one changed file keeps. -/
theorem withFile_some {P Q : RangeFile → Prop} {level : ℕ} {f : RangeFile → Option RangeFile}
    (hlevel : level < n.files.length) (hPQ : ∀ r, P r → Q r)
    (hf : ∀ r, n.files[level]? = some r → ∃ r', f r = some r' ∧ Q r') (h : ∀ r ∈ n.files, P r) :
    ∃ n', n.withFile level f = some n' ∧ ∀ r ∈ n'.files, Q r := by
  have hget : n.files[level]? = some n.files[level] := getElem?_eq_getElem hlevel
  obtain ⟨r', hr', hQ⟩ := hf _ hget
  refine ⟨{ n with files := n.files.set level r' }, ?_, fun r hr => ?_⟩
  · rw [Nest.withFile, modifyAtM_some hget hr']
    rfl
  · obtain hr | hr := mem_or_eq_of_mem_set hr
    · exact hPQ r (h r hr)
    · rw [hr]
      exact hQ

def Nest.Sound (n : Nest) : Prop := ∀ r ∈ n.files, r.Stored ∧ r.Roomy

def Nest.Stored (n : Nest) : Prop := ∀ r ∈ n.files, r.Stored

/-- The levels of a nest are as they should be, at some position. -/
def Nest.Ok (n : Nest) : Prop := ∃ line, n.levels.Ok line

theorem Nest.Ok.length (h : n.Ok) : n.files.length = n.maxRecursion.getD 0 + 1 := by
  obtain ⟨line, h⟩ := h
  have hlen := h.length
  rw [Nest.levels, length_map] at hlen
  exact hlen

theorem nest_rangeClose_some (fill : FillRate) (h : n.Sound) (hok : n.Ok) (e : ℤ) :
    ∃ n', n.rangeClose fill e = some n' ∧ n'.Sound := by
  have hlen := hok.length
  have hflat : ∀ r ∈ n.files, ∃ r', r.rangeClose fill e = some r' ∧ r'.Stored ∧ r'.Roomy :=
    fun r hr => rangeClose_some fill (h r hr).1 (h r hr).2 e
  rcases n with ⟨maxRecursion, level, dropped, files⟩
  unfold Nest.rangeClose
  cases maxRecursion with
  | none =>
    exact withFile_some (hlen.symm ▸ succ_pos _) (fun r hr => hr) (fun r hr => hflat r (mem_of_getElem? hr)) h
  | some m =>
    simp only [getD_some] at hlen
    cases level with
    | zero => exact ⟨_, rfl, h⟩
    | succ level =>
      simp only
      split_ifs with hlt hpos
      · exact ⟨_, rfl, h⟩
      · refine withFile_some (n := ⟨some m, level, dropped, files⟩) ?_ (fun r hr => hr)
          (fun r hr => hflat r (mem_of_getElem? hr)) h
        simp only
        omega
      · refine withFile_some (n := ⟨some m, level, dropped, files⟩) ?_ (fun r hr => hr) (fun r hr => ?_) h
        · simp only
          omega
        -- the attribute itself is open while its level is positive
        have hr : files[0]? = some r := hr
        have hopen : r.isOpen = true := by
          obtain ⟨line, hok⟩ := hok
          refine (hok.open_iff m rfl 0 r.track ?_).mpr (succ_pos level)
          rw [Nest.levels, getElem?_map, hr]
          rfl
        have hmem := h r (mem_of_getElem? hr)
        obtain ⟨r', hr', hstored, hclosed⟩ := closeThis_some fill hmem.1 hmem.2 hopen e
        exact ⟨r', hr', hstored, roomy_of_closed hclosed⟩

theorem nest_rangeOpen_some (opts : EncodeOptions) (fill : FillRate) (makeSet : MakeSet) (h : n.Sound)
    (hok : n.Ok) (line : ℤ) (annot : List UInt8) :
    ∃ n', n.rangeOpen opts fill makeSet line annot = some n' ∧ n'.Stored := by
  have hlen := hok.length
  have hflat : ∀ r ∈ n.files, ∃ r', r.rangeOpen opts fill makeSet line annot = some r' ∧ r'.Stored :=
    fun r hr => rangeOpen_some (h r hr).1 (h r hr).2 line annot
  rcases n with ⟨maxRecursion, level, dropped, files⟩
  unfold Nest.rangeOpen
  cases maxRecursion with
  | none =>
    exact withFile_some (hlen.symm ▸ succ_pos _) (fun r hr => hr.1) (fun r hr => hflat r (mem_of_getElem? hr)) h
  | some m =>
    simp only [getD_some] at hlen
    simp only
    split_ifs with hlt hpos
    · exact ⟨_, rfl, fun r hr => (h r hr).1⟩
    · refine withFile_some (n := ⟨some m, level + 1, dropped, files⟩) ?_ (fun r hr => hr.1)
        (fun r hr => hflat r (mem_of_getElem? hr)) h
      simp only
      omega
    · refine withFile_some (n := ⟨some m, level + 1, dropped, files⟩) ?_ (fun r hr => hr.1)
        (fun r hr => ⟨_, rfl, (h r (mem_of_getElem? hr)).1⟩) h
      simp only
      omega

/-- An attribute with its children. -/
structure SAttr.Sound (a : SAttr) : Prop where
  nest : a.nest.Sound
  children : ∀ c ∈ a.elAtts, c.2.Sound

structure SAttr.Stored (a : SAttr) : Prop where
  nest : a.nest.Stored
  children : ∀ c ∈ a.elAtts, c.2.Stored

theorem SAttr.ok_children {a : SAttr} (hagree : a.Agree) (hok : a.nest.Ok) : ∀ c ∈ a.elAtts, c.2.Ok := by
  obtain ⟨line, hok⟩ := hok
  intro c hc
  exact ⟨line, by rw [hagree c hc]; exact hok⟩

theorem sattr_rangeClose_some (fill : FillRate) {a : SAttr} (h : a.Sound) (hagree : a.Agree) (hok : a.nest.Ok) (e : ℤ) :
    ∃ a', a.rangeClose fill e = some a' ∧ a'.Sound := by
  unfold SAttr.rangeClose
  split_ifs
  · exact ⟨a, rfl, h⟩
  · obtain ⟨nest, hnest, hsound⟩ := nest_rangeClose_some fill h.nest hok e
    obtain ⟨elAtts, helAtts, hchildren⟩ := mapM_some (l := a.elAtts) (P := fun c : List UInt8 × Nest => c.2.Sound)
      (f := fun c => do
        let child ← c.2.rangeClose fill e
        pure (c.1, child)) fun c hc => by
      obtain ⟨child, hchild, hs⟩ := nest_rangeClose_some fill (h.children c hc)
        (SAttr.ok_children hagree hok c hc) e
      exact ⟨(c.1, child), by rw [hchild]; rfl, hs⟩
    refine ⟨{ a with nest := nest, elAtts := elAtts }, ?_, hsound, hchildren⟩
    rw [hnest]
    simp only [bind_eq_bind, bind_some] at helAtts ⊢
    rw [helAtts]
    rfl

theorem openParsed_some (opts : EncodeOptions) (fill : FillRate) (makeSet : MakeSet) {a : SAttr} (h : a.Sound)
    (hagree : a.Agree) (hok : a.nest.Ok) (line : ℤ) (annot : List UInt8) :
    ∃ a', a.openParsed opts fill makeSet line annot = some a' ∧ a'.Stored := by
  obtain ⟨nest, hnest, hstored⟩ := nest_rangeOpen_some opts fill makeSet h.nest hok line annot
  obtain ⟨elAtts, helAtts, hchildren⟩ := mapM_some (l := a.elAtts) (P := fun c : List UInt8 × Nest => c.2.Stored)
    (f := fun c => do
      let value := ((parseAttributes annot.length annot).lookup c.1).map clXmlEntityDecode
      let child ← c.2.rangeOpen opts fill makeSet line (value.getD [])
      pure (c.1, child)) fun c hc => by
    obtain ⟨child, hchild, hs⟩ := nest_rangeOpen_some opts fill makeSet (h.children c hc)
      (SAttr.ok_children hagree hok c hc) line
      ((((parseAttributes annot.length annot).lookup c.1).map clXmlEntityDecode).getD [])
    exact ⟨(c.1, child), by simp only [hchild]; rfl, hs⟩
  refine ⟨{ a with nest := nest, elAtts := elAtts }, ?_, hstored, hchildren⟩
  rw [SAttr.openParsed, hnest]
  simp only [bind_eq_bind, bind_some] at helAtts ⊢
  rw [helAtts]
  rfl

theorem sattr_rangeOpen_some {a : SAttr} (h : a.Sound) (hagree : a.Agree) (hok : a.nest.levels.Ok line) (annot : List UInt8) :
    ∃ a', a.rangeOpen opts fill makeSet line annot = some a' ∧ a'.Stored := by
  unfold SAttr.rangeOpen
  split_ifs with hnull himpl
  · exact ⟨a, rfl, fun r hr => (h.nest r hr).1, fun c hc r hr => (h.children c hc r hr).1⟩
  · obtain ⟨a1, ha1, hsound⟩ := sattr_rangeClose_some fill h hagree ⟨line, hok⟩ (line - 1)
    have hat := SAttr.At.rangeClose ⟨rfl, rfl, rfl, hagree⟩ ha1
    rw [if_neg hnull] at hat
    obtain ⟨a', ha', hstored⟩ := openParsed_some opts fill makeSet hsound hat.agree
      ⟨line, by rw [hat.levels]; exact hok.close⟩ line annot
    exact ⟨a', by rw [ha1]; exact ha', hstored⟩
  · exact openParsed_some opts fill makeSet h hagree ⟨line, hok⟩ line annot

theorem closeLoop_some (fill : FillRate) {a : SAttr} (h : a.Sound) (hat : a.At false names l) (hok : l.Ok line) (fuel : ℕ) :
    ∃ a', a.closeLoop fill (line - 1) fuel = some a' := by
  induction fuel generalizing a l with
  | zero => exact ⟨a, rfl⟩
  | succ fuel ih =>
    unfold SAttr.closeLoop
    split_ifs
    · obtain ⟨a1, ha1, hsound⟩ := sattr_rangeClose_some fill h hat.agree
        ⟨line, by rw [hat.levels]; exact hok⟩ (line - 1)
      obtain ⟨a', ha'⟩ := ih hsound (hat.rangeClose ha1) hok.close
      exact ⟨a', by rw [ha1]; exact ha'⟩
    · exact ⟨a, rfl⟩

/-- The annotations of all open regions can still be stored. -/
def EncodeState.Roomy (st : EncodeState) : Prop :=
  ∀ a ∈ st.attrs, (∀ r ∈ a.nest.files, r.Roomy) ∧ ∀ c ∈ a.elAtts, ∀ r ∈ c.2.files, r.Roomy

theorem sound_of_roomy {st : EncodeState} (hroom : st.Roomy) {a : SAttr} (ha : a ∈ st.attrs) (h : a.Stored) : a.Sound where
  nest := fun r hr => ⟨h.nest r hr, (hroom a ha).1 r hr⟩
  children := fun c hc r hr => ⟨h.children c hc r hr, (hroom a ha).2 c hc r hr⟩

theorem specLevels_ok (spec : SAttrSpec) : spec.levels.Ok 0 where
  length := by simp [SAttrSpec.levels]
  track := by
    intro t ht
    rw [SAttrSpec.levels] at ht
    rw [eq_of_mem_replicate ht]
    exact ⟨List.Pairwise.nil, fun r hr => (by cases hr), fun ho => (by cases ho)⟩
  open_iff := by
    intro m _ k t hk
    have ht := eq_of_mem_replicate (mem_of_getElem? hk)
    rw [ht]
    simp [SAttrSpec.levels]
  flat := fun _ => rfl

/-- The levels of an attribute after the events, at the position after them. -/
theorem levels_after {spec : SAttrSpec} {i : ℕ} {a : SAttr} (hafter : AttrAfter spec i evs a)
    (hline : st.line = min (evs.count .token) CL_MAX_CORPUS_SIZE) : a.nest.levels.Ok st.line := by
  rw [hafter.levels]
  split_ifs
  · exact (specLevels_ok spec).mono (Int.natCast_nonneg _)
  · have hrun := run_ok CL_MAX_CORPUS_SIZE (spec.levels, 0) (by exact_mod_cast specLevels_ok spec)
      (evs.map (TagEvent.tagFor i))
    rw [run_position, count_tagFor, ← hline] at hrun
    exact hrun

theorem stored_rangeDeclare (spec : SAttrSpec) : (rangeDeclare spec).Stored := by
  have hnew : ∀ m storeValues featureSet, (newNest m storeValues featureSet).Stored := by
    intro m storeValues featureSet r hr
    rw [eq_of_mem_replicate hr]
    exact ⟨[], AnnotFiles.holds_new 10000, rfl⟩
  refine ⟨hnew _ _ _, fun c hc => ?_⟩
  obtain ⟨x, -, rfl⟩ := mem_map.mp hc
  exact hnew _ _ _

/-- While the annotations of the open regions fit, the program goes on. -/
theorem encodeEvents_some (h : ∀ p st, p <+: evs → encodeEvents opts fill makeSet specs p = some st → st.Roomy) :
    ∃ st, encodeEvents opts fill makeSet specs evs = some st ∧ ∀ a ∈ st.attrs, a.Stored := by
  induction evs using reverseRecOn with
  | nil =>
    refine ⟨_, rfl, fun a ha => ?_⟩
    obtain ⟨spec, -, rfl⟩ := mem_map.mp ha
    exact stored_rangeDeclare spec
  | append_singleton evs ev ih =>
    obtain ⟨st, hst, hstored⟩ := ih fun p st hp => h p st (hp.trans (prefix_append _ _))
    have hroom := h evs st (prefix_append _ _) hst
    obtain ⟨hline, hlength, hattrs⟩ := encodeEvents_after hst
    have hrun : ∀ st', st.step opts fill makeSet ev = some st' →
        encodeEvents opts fill makeSet specs (evs ++ [ev]) = some st' := by
      intro st' hstep
      rw [encodeEvents] at hst ⊢
      rw [foldlM_append, hst]
      simpa using hstep
    -- one attribute is replaced by one that is stored again
    have hmodify : ∀ (f : SAttr → Option SAttr) (j : Fin specs.length),
        (∀ a, a.Sound → a.Agree → a.nest.levels.Ok st.line → ∃ a', f a = some a' ∧ a'.Stored) →
        ∃ attrs, modifyAtM f j st.attrs = some attrs ∧ ∀ a ∈ attrs, a.Stored := by
      intro f j hf
      have hlt : (j : ℕ) < st.attrs.length := by rw [hlength]; exact j.isLt
      have hget : st.attrs[(j : ℕ)]? = some st.attrs[(j : ℕ)] := getElem?_eq_getElem hlt
      have hmem := getElem_mem hlt
      have hafter := hattrs j _ specs[j] hget (getElem?_eq_getElem j.isLt)
      obtain ⟨a', ha', hs⟩ := hf _ (sound_of_roomy hroom hmem (hstored _ hmem)) hafter.agree (levels_after hafter hline)
      refine ⟨_, modifyAtM_some hget ha', fun a ha => ?_⟩
      obtain ha | ha := mem_or_eq_of_mem_set ha
      · exact hstored a ha
      · rw [ha]
        exact hs
    by_cases hfull : CL_MAX_CORPUS_SIZE ≤ st.line
    · exact ⟨st, hrun st (if_pos hfull), hstored⟩
    · cases ev with
      | token => exact ⟨_, hrun _ (if_neg hfull), hstored⟩
      | start j annot =>
        obtain ⟨attrs, hmod, hs⟩ := hmodify (fun a => a.rangeOpen opts fill makeSet st.line annot) j
          fun a hsound hagree hok => sattr_rangeOpen_some hsound hagree hok annot
        refine ⟨{ st with attrs := attrs }, hrun _ ?_, hs⟩
        rw [EncodeState.step, if_neg hfull]
        simp only [hmod]
        rfl
      | stop j =>
        obtain ⟨attrs, hmod, hs⟩ := hmodify (fun a => a.rangeClose fill (st.line - 1)) j fun a hsound hagree hok => by
          obtain ⟨a', ha', hsound'⟩ := sattr_rangeClose_some fill hsound hagree ⟨_, hok⟩ (st.line - 1)
          exact ⟨a', ha', fun r hr => (hsound'.nest r hr).1, fun c hc r hr => (hsound'.children c hc r hr).1⟩
        refine ⟨{ st with attrs := attrs }, hrun _ ?_, hs⟩
        rw [EncodeState.step, if_neg hfull]
        simp only [hmod]
        rfl

theorem encodeCorpus_some (h : ∀ p st, p <+: evs → encodeEvents opts fill makeSet specs p = some st → st.Roomy) :
    ∃ st, encodeCorpus opts fill makeSet specs evs = some st := by
  obtain ⟨st, hst, hstored⟩ := encodeEvents_some h
  have hroom := h evs st (prefix_refl _) hst
  obtain ⟨hline, hlength, hattrs⟩ := encodeEvents_after hst
  obtain ⟨attrs, hattrs', -⟩ := mapM_some (l := st.attrs) (P := fun _ => True)
    (f := fun a => if a.nullAttribute then some a else a.closeLoop fill (st.line - 1) (a.nest.recursionLevel + 1))
    fun a ha => by
      obtain ⟨i, hi⟩ := mem_iff_getElem?.mp ha
      obtain ⟨hlt, -⟩ := List.getElem?_eq_some_iff.mp hi
      have hafter := hattrs i a specs[i] hi (getElem?_eq_getElem (by omega))
      split_ifs with hnull
      · exact ⟨a, rfl, trivial⟩
      · obtain ⟨a', ha'⟩ := closeLoop_some fill (sound_of_roomy hroom ha (hstored a ha))
          ⟨by simpa using hnull, rfl, rfl, hafter.agree⟩ (levels_after hafter hline) (a.nest.recursionLevel + 1)
        exact ⟨a', ha', trivial⟩
  refine ⟨{ st with attrs := attrs }, ?_⟩
  rw [encodeCorpus, hst]
  simp only [bind_eq_bind, bind_some]
  rw [hattrs']
  rfl

/-! ## The files at the end -/

/-- A strictly ascending list of disjoint regions before position `line`. -/
def RegionsOk (rng : List (ℤ × ℤ)) (line : ℕ) : Prop :=
  (rng.Pairwise fun r r' => r.2 < r'.1) ∧ ∀ r ∈ rng, 0 ≤ r.1 ∧ r.1 ≤ r.2 ∧ r.2 < line

theorem regionsOk_of_levels {line : ℕ} (h : n.levels.Ok line) (hr : r ∈ n.files) :
    RegionsOk r.rng line := by
  have ht := h.track r.track (mem_map_of_mem hr)
  exact ⟨ht.sorted, ht.inside⟩

/-- After the cleanup nothing is open, and the levels are those of the events with the open
regions closed. -/
theorem encodeCorpus_after (h : encodeCorpus opts fill makeSet specs evs = some st) :
    st.line = min (evs.count .token) CL_MAX_CORPUS_SIZE ∧
      ∀ i a spec, st.attrs[i]? = some a → specs[i]? = some spec → a.Agree ∧ a.nest.levels.Ok st.line ∧ a.isOpen = false ∧
        (spec.nullAttribute = false → ∃ fuel, a.nest.levels = Levels.closeLoop ((st.line : ℤ) - 1) fuel
          (run CL_MAX_CORPUS_SIZE (spec.levels, 0) (evs.map (TagEvent.tagFor i))).1) := by
  obtain ⟨st0, hst0, h⟩ := bind_eq_some_iff.mp h
  obtain ⟨attrs, hmap, h⟩ := bind_eq_some_iff.mp h
  cases h
  obtain ⟨hline, hlength, hattrs⟩ := encodeEvents_after hst0
  refine ⟨hline, fun i a spec ha hspec => ?_⟩
  have hall := forall₂_mapM hmap
  obtain ⟨hlt, -⟩ := List.getElem?_eq_some_iff.mp ha
  have hlen := hall.length_eq
  have hi : i < st0.attrs.length := by simp only at hlt; omega
  have hget : st0.attrs[i]? = some st0.attrs[i] := getElem?_eq_getElem hi
  have hafter := hattrs i _ spec hget hspec
  have hclose := (forall₂_iff_get.mp hall).2 i hi hlt
  rw [get_eq_getElem, get_eq_getElem] at hclose
  have ha' : attrs[i] = a := by
    rw [getElem?_eq_getElem hlt] at ha
    exact some.inj ha
  rw [ha'] at hclose
  have hok := levels_after hafter hline
  split_ifs at hclose with hnull
  · cases hclose
    have hnull' : spec.nullAttribute = true := by rw [← hafter.null]; exact hnull
    refine ⟨hafter.agree, hok, ?_, fun hf => by rw [hnull'] at hf; cases hf⟩
    rw [isOpen_levels, hafter.levels, if_pos hnull']
    simp [SAttrSpec.levels, Levels.isOpen, replicate_succ]
  · have hnull' : spec.nullAttribute = false := by rw [← hafter.null]; simpa using hnull
    have hat : st0.attrs[i].At false (spec.elAtts.map Prod.fst) st0.attrs[i].nest.levels :=
      ⟨by rw [hafter.null, hnull'], hafter.names, rfl, hafter.agree⟩
    have hend := hat.closeLoop hclose
    refine ⟨hend.agree, ?_, ?_, fun _ => ⟨st0.attrs[i].nest.recursionLevel + 1, ?_⟩⟩
    · rw [hend.levels]
      exact hok.closeLoop _
    · rw [isOpen_levels, hend.levels]
      exact Levels.isOpen_closeLoop hok (lt_succ_self _)
    · rw [hend.levels, hafter.levels, hnull']
      rfl

theorem follows_spec (spec : SAttrSpec) : Follows spec.levels [] where
  length := (specLevels_ok spec).length
  level := fun _ _ => rfl
  fits := Nat.zero_le _
  track := by
    intro k t hk
    have ht := eq_of_mem_replicate (mem_of_getElem? hk)
    rw [ht]
    simp

/-- With nothing open there is nothing to close. -/
theorem closeLoop_of_follows {n : Levels} (h : Follows n []) (e : ℤ) (fuel : ℕ) : Levels.closeLoop e fuel n = n := by
  have hclosed : n.isOpen = false := by
    cases htracks : n.tracks with
    | nil => simp [Levels.isOpen, htracks]
    | cons t rest =>
      have ht := (h.track 0 t (by simp [htracks])).1
      simpa [Levels.isOpen, htracks] using ht
  cases fuel with
  | zero => rfl
  | succ fuel => rw [Levels.closeLoop, if_neg (by simp [hclosed])]

/-- An attribute `s` with one more level: `<s> w <s> w </s> w </s>`. -/
def sampleTags : List (TagEvent 1) := [.start 0 [], .token, .start 0 [], .token, .stop 0, .token, .stop 0]

end CWB
