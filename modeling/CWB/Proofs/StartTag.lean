import CWB.Spec.RangeFile

/-! A start tag that `cwb-decode -C` prints and `cwb-encode` reads again. The annotation stands
between the element name with a blank and `>`, so blanks at its beginning and a `/` at its end
are taken for a part of the tag. -/

namespace CWB

open List

variable {opts : EncodeOptions} {declared : List UInt8 → Bool} {name annot : List UInt8}

theorem parseElement_startTag {buf body a : List UInt8} {closing : Bool}
    (h : parseElement declared buf closing body = .startTag name a) :
    name ≠ [] ∧ ∀ c ∈ name, clXmlIsNameChar c = true := by
  simp only [parseElement] at h
  split at h
  · cases h
  · split_ifs at h with hcond
    injection h with hname
    subst hname
    exact ⟨hcond.1, fun c hc => mem_takeWhile_imp hc⟩

/-- The name that a tag is read with is an element name. -/
theorem parseTag_startTag {buf a : List UInt8} (h : parseTag declared buf = .startTag name a) :
    name ≠ [] ∧ ∀ c ∈ name, clXmlIsNameChar c = true := by
  unfold parseTag at h
  split_ifs at h
  · exact parseElement_startTag h
  · exact parseElement_startTag h

theorem dropWhile_append_singleton (p : UInt8 → Bool) (l : List UInt8) {c : UInt8} (hc : p c = false) :
    (l ++ [c]).dropWhile p = l.dropWhile p ++ [c] := by
  induction l with
  | nil => simp [hc]
  | cons b l ih =>
    rw [cons_append, dropWhile_cons, dropWhile_cons]
    split_ifs
    · exact ih
    · rfl

theorem rdropWhile_append_singleton (p : UInt8 → Bool) (l : List UInt8) {c : UInt8} (hc : p c = false) :
    (l ++ [c]).rdropWhile p = l ++ [c] :=
  rdropWhile_concat_neg p l c (by simp [hc])

/-- What is left of a printed annotation. -/
theorem tagAnnot_printed (annot : List UInt8) :
    tagAnnot 32 (annot ++ [62]) =
      if (annot.dropWhile isBlank).getLast? = some 47 then (annot.dropWhile isBlank).dropLast
      else annot.dropWhile isBlank := by
  have hgt : isBlank 62 = false := by decide
  have hne : ¬(32 : UInt8) = 62 := by decide
  simp only [tagAnnot, if_neg hne, dropWhile_append_singleton isBlank annot hgt,
    rdropWhile_append_singleton isBlank _ hgt, getLast?_append, getLast?_singleton, Option.some_or, if_true,
    dropLast_concat]

theorem parseTag_printed (hdecl : declared name = true) (hne : name ≠ [])
    (hname : ∀ c ∈ name, clXmlIsNameChar c = true) (rest : List UInt8) :
    parseTag declared (60 :: (name ++ 32 :: rest)) = .startTag name (tagAnnot 32 rest) := by
  have hblank : clXmlIsNameChar 32 = false := by decide
  have hhead : ¬(name ++ 32 :: rest).head? = some 47 := by
    obtain ⟨c, name', rfl⟩ := exists_cons_of_ne_nil hne
    intro h
    rw [cons_append, head?_cons, Option.some.injEq] at h
    have hc := hname c (by simp)
    rw [h] at hc
    exact absurd hc (by decide)
  have htake : (name ++ 32 :: rest).takeWhile clXmlIsNameChar = name := by
    rw [takeWhile_append_of_pos hname, takeWhile_cons_of_neg (by simp [hblank]), append_nil]
  have hdrop : (name ++ 32 :: rest).dropWhile clXmlIsNameChar = 32 :: rest := by
    rw [dropWhile_append_of_pos hname, dropWhile_cons_of_neg (by simp [hblank])]
  rw [parseTag, tail_cons, if_neg hhead, parseElement, htake, hdrop]
  simp only [hne, hdecl, ne_eq, not_false_eq_true, true_or, and_self, if_true, Bool.false_eq_true, if_false]

/-- The printed line after `cl_string_chomp`. -/
theorem parseLine_printed (opts : EncodeOptions) (declared : List UInt8 → Bool) (name annot : List UInt8) :
    parseLine opts declared (printStartTag name (some annot)) =
      if opts.xmlAware = true ∧ ((name ++ 32 :: (annot ++ [62])).head? = some 63 ∨
          (name ++ 32 :: (annot ++ [62])).head? = some 33) then .skipped
      else parseTag declared (60 :: (name ++ 32 :: (annot ++ [62]))) := by
  have hline : printStartTag name (some annot) = (60 :: (name ++ 32 :: (annot ++ [62]))) ++ [10] := by
    simp [printStartTag]
  have hlast : 60 :: (name ++ 32 :: (annot ++ [62])) = (60 :: (name ++ 32 :: annot)) ++ [62] := by simp
  have hchomp : clStringChomp (printStartTag name (some annot)) = 60 :: (name ++ 32 :: (annot ++ [62])) := by
    rw [hline, clStringChomp, rdropWhile_concat_pos _ _ _ (by decide), hlast]
    exact rdropWhile_append_singleton _ _ (by decide)
  have hstrip : (if opts.stripBlanks then (60 :: (name ++ 32 :: (annot ++ [62]))).dropWhile (· = 32)
      else 60 :: (name ++ 32 :: (annot ++ [62]))) = 60 :: (name ++ 32 :: (annot ++ [62])) := by
    split_ifs
    · exact dropWhile_cons_of_neg (by decide)
    · rfl
  simp only [parseLine, hchomp, hstrip, cons_ne_nil, and_false, if_false, head?_cons, tail_cons, true_and,
    if_true]

theorem blank_of_noTab {c : UInt8} (hc : c ≠ 9) : isBlank c = true ↔ c = 32 := by simp [isBlank, hc]

/-- When the annotation that is left is the one that was printed. -/
theorem tagAnnot_eq_iff (htab : 9 ∉ annot) :
    tagAnnot 32 (annot ++ [62]) = annot ↔ annot.head? ≠ some 32 ∧ annot.getLast? ≠ some 47 := by
  rw [tagAnnot_printed]
  cases annot with
  | nil => simp
  | cons c rest =>
    have hc : c ≠ 9 := fun h => htab (by rw [h]; exact mem_cons_self)
    have hshort := (dropWhile_suffix isBlank (l := rest)).length_le
    by_cases h32 : c = 32
    · subst h32
      rw [dropWhile_cons_of_pos (by decide)]
      constructor
      · intro h
        have hlen := congrArg List.length h
        split_ifs at hlen
        · rw [length_dropLast, length_cons] at hlen
          omega
        · rw [length_cons] at hlen
          omega
      · rintro ⟨h, -⟩
        exact absurd rfl h
    · rw [dropWhile_cons_of_neg (by rw [blank_of_noTab hc]; exact h32)]
      constructor
      · intro h
        refine ⟨by simpa using h32, fun hlast => ?_⟩
        rw [if_pos hlast] at h
        have hlen := congrArg List.length h
        rw [length_dropLast, length_cons] at hlen
        omega
      · rintro ⟨-, hlast⟩
        rw [if_neg hlast]

theorem length_tagAnnot (annot : List UInt8) : (tagAnnot 32 (annot ++ [62])).length ≤ annot.length := by
  have hshort := (dropWhile_suffix isBlank (l := annot)).length_le
  rw [tagAnnot_printed]
  split_ifs
  · rw [length_dropLast]
    omega
  · exact hshort

theorem rdropWhile_blank_eq_iff (htab : 9 ∉ annot) : annot.rdropWhile isBlank = annot ↔ annot.getLast? ≠ some 32 := by
  rw [rdropWhile_eq_self_iff]
  constructor
  · intro h hlast
    obtain ⟨rest, rfl⟩ := getLast?_eq_some_iff.mp hlast
    exact h (by simp) (by rw [getLast_append_singleton]; decide)
  · intro h hne hblank
    have hmem := getLast_mem hne
    rw [blank_of_noTab fun h9 => htab (by rw [← h9]; exact hmem)] at hblank
    exact h (by rw [getLast?_eq_some_getLast hne, hblank])

/-- A file of an attribute that is declared with `-V`. -/
def annotated : RangeFile := { storeValues := true, values := { lh := clNewLexhash 10000 } }

end CWB
