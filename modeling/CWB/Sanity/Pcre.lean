import CWB.Spec.Pcre

/-! The meaning of a regular expression is unique: the rules read it in one way only, from left to
right. -/

namespace CWB.Pcre

open Option List

variable {M : CharMeaning} {i j k r r' : List Char} {L L' : Language Char}

/-! ## What is left is a suffix -/

theorem braced_suffix {isName : Char → Bool} {name : List Char} (h : braced isName i = some (name, r)) : r <:+ i := by
  rw [braced, span_eq_takeWhile_dropWhile] at h
  split at h
  · next heq =>
    obtain ⟨-, hdrop⟩ := Prod.mk.inj heq
    obtain ⟨-, rfl⟩ := Prod.mk.inj (some.inj h)
    have hsuf := dropWhile_suffix (l := i) isName
    rw [hdrop] at hsuf
    exact (suffix_cons _ _).trans hsuf
  · simp at h

theorem escapeSeq_suffix {seq : List Char} (h : escapeSeq i = some (seq, r)) : r <:+ i := by
  unfold escapeSeq at h
  split at h
  · next c i =>
    have hcons : ∀ {x : List Char}, x <:+ i → x <:+ '\\' :: c :: i := fun hx =>
      hx.trans ((suffix_cons c i).trans (suffix_cons _ _))
    split_ifs at h with hx ho htype hp
    · split at h
      · simp only [map_eq_some_iff, Prod.mk.injEq, Prod.exists] at h
        obtain ⟨code, r', hcode, -, rfl⟩ := h
        exact hcons ((braced_suffix hcode).trans (suffix_cons _ _))
      · split_ifs at h with hhex
        obtain ⟨-, rfl⟩ := Prod.mk.inj (some.inj h)
        exact hcons ((suffix_cons _ _).trans (suffix_cons _ _))
      · simp at h
    · split at h
      · simp only [map_eq_some_iff, Prod.mk.injEq, Prod.exists] at h
        obtain ⟨code, r', hcode, -, rfl⟩ := h
        exact hcons ((braced_suffix hcode).trans (suffix_cons _ _))
      · simp only [map_eq_some_iff, Prod.mk.injEq, Prod.exists] at h
        obtain ⟨code, r', hcode, -, rfl⟩ := h
        exact hcons ((braced_suffix hcode).trans (suffix_cons _ _))
      · simp at h
    · obtain ⟨-, rfl⟩ := Prod.mk.inj (some.inj h)
      exact hcons suffix_rfl
    · split at h
      · simp only [map_eq_some_iff, Prod.mk.injEq, Prod.exists] at h
        obtain ⟨name, r', hname, -, rfl⟩ := h
        exact hcons ((braced_suffix hname).trans (suffix_cons _ _))
      · split_ifs at h with hupper
        obtain ⟨-, rfl⟩ := Prod.mk.inj (some.inj h)
        exact hcons (suffix_cons _ _)
      · simp at h
  · simp at h

def numberOrComma (c : Char) : Bool := '0' ≤ c && c ≤ '9' || c = ','

theorem numberOrComma_of_isDigit {c : Char} (h : c.isDigit = true) : numberOrComma c = true := Bool.or_eq_true_iff.mpr (.inl h)

theorem dropWhile_numberOrComma (i : List Char) :
    i.dropWhile numberOrComma = (i.dropWhile Char.isDigit).dropWhile numberOrComma := by
  induction i with
  | nil => rfl
  | cons c i ih =>
    by_cases hc : c.isDigit = true
    · rw [dropWhile_cons_of_pos (numberOrComma_of_isDigit hc), dropWhile_cons_of_pos hc, ih]
    · rw [dropWhile_cons_of_neg hc]

/-- A quantifier in braces ends where `read_kleene` takes it to end. -/
theorem quantifier_brace {n : ℕ} {m : Option ℕ} (h : quantifier ('{' :: i) = some (n, m, r)) :
    i.dropWhile numberOrComma = '}' :: r ∧ n = decimal (i.takeWhile Char.isDigit) := by
  rw [dropWhile_numberOrComma]
  simp only [quantifier, span_eq_takeWhile_dropWhile] at h
  generalize hrest : i.dropWhile Char.isDigit = rest at h
  generalize hds : i.takeWhile Char.isDigit = ds at h
  split at h
  · simp at h
  · next n' r' _ heq =>
    obtain ⟨rfl, rfl⟩ := Prod.mk.inj heq
    simp only [some.injEq, Prod.mk.injEq] at h
    obtain ⟨rfl, -, rfl⟩ := h
    exact ⟨rfl, rfl⟩
  · next n' j _ heq =>
    obtain ⟨rfl, rfl⟩ := Prod.mk.inj heq
    rw [dropWhile_cons_of_pos (show numberOrComma ',' = true by decide), dropWhile_numberOrComma]
    split at h
    · next r' heq =>
      obtain ⟨-, hdrop⟩ := Prod.mk.inj heq
      simp only [some.injEq, Prod.mk.injEq] at h
      obtain ⟨rfl, -, rfl⟩ := h
      rw [hdrop]
      exact ⟨rfl, rfl⟩
    · next m' r' _ heq =>
      obtain ⟨-, hdrop⟩ := Prod.mk.inj heq
      simp only [some.injEq, Prod.mk.injEq] at h
      obtain ⟨rfl, -, rfl⟩ := h
      rw [hdrop]
      exact ⟨rfl, rfl⟩
    · simp at h
  · simp at h

theorem quantifier_suffix {n : ℕ} {m : Option ℕ} (h : quantifier i = some (n, m, r)) : r <:+ i := by
  have hcopy := h
  unfold quantifier at h
  split at h
  · obtain ⟨-, -, rfl⟩ := by simpa using h
    exact suffix_cons _ _
  · obtain ⟨-, -, rfl⟩ := by simpa using h
    exact suffix_cons _ _
  · obtain ⟨-, -, rfl⟩ := by simpa using h
    exact suffix_cons _ _
  · next i =>
    have hsuf := dropWhile_suffix (l := i) numberOrComma
    rw [(quantifier_brace hcopy).1] at hsuf
    exact (suffix_cons _ _).trans (hsuf.trans (suffix_cons _ _))
  · simp at h

theorem modifier_suffix (i : List Char) : modifier i <:+ i := by
  unfold modifier
  split
  · exact suffix_cons _ _
  · exact suffix_cons _ _
  · exact suffix_rfl

theorem repeated_suffix (L : Language Char) (i : List Char) : (repeated L i).1 <:+ i := by
  unfold repeated
  split
  · next hq => exact (modifier_suffix _).trans (quantifier_suffix hq)
  · exact suffix_rfl

theorem SetBody.suffix {ts : List SetToken} (h : SetBody i r ts) : r <:+ i := by
  induction h with
  | close => exact suffix_cons _ _
  | char _ _ ih => exact ih.trans (suffix_cons _ _)
  | bracket _ _ ih => exact ih.trans (suffix_cons _ _)
  | quoted _ _ ih => exact ih.trans ((suffix_cons _ _).trans (suffix_cons _ _))
  | escape hseq _ ih => exact ih.trans (escapeSeq_suffix hseq)

mutual

theorem Atom.suffix {i r : List Char} {L : Language Char} : Atom M i r L → r <:+ i
  | .dot => suffix_cons _ _
  | .char _ => suffix_cons _ _
  | .brace _ => suffix_cons _ _
  | .quoted _ => (suffix_cons _ _).trans (suffix_cons _ _)
  | .escape hseq => escapeSeq_suffix hseq
  | .set _ h => h.suffix.trans (suffix_cons _ _)
  | .setBracket h => h.suffix.trans ((suffix_cons _ _).trans (suffix_cons _ _))
  | .negated _ h => h.suffix.trans ((suffix_cons _ _).trans (suffix_cons _ _))
  | .negatedBracket h =>
    h.suffix.trans ((suffix_cons _ _).trans ((suffix_cons _ _).trans (suffix_cons _ _)))
  | .group _ h => (suffix_cons _ _).trans (h.suffix.trans (suffix_cons _ _))
  | .nonCapturing h => (suffix_cons _ _).trans
      (h.suffix.trans ((suffix_cons _ _).trans ((suffix_cons _ _).trans (suffix_cons _ _))))

theorem Branch.suffix {i r : List Char} {L : Language Char} : Branch M i r L → r <:+ i
  | .nil => suffix_rfl
  | .cons h hrest => hrest.suffix.trans ((repeated_suffix _ _).trans h.suffix)

theorem Alternation.suffix {i r : List Char} {L : Language Char} : Alternation M i r L → r <:+ i
  | .last h => h.suffix
  | .bar h hrest => hrest.suffix.trans ((suffix_cons _ _).trans h.suffix)

end

/-! ## Only one reading -/

theorem escapeSeq_not_alphanum {c : Char} (hc : ¬c.isAlphanum) : escapeSeq ('\\' :: c :: i) = none := by
  have hne : ∀ d : Char, d.isAlphanum → c ≠ d := fun d hd heq => hc (heq ▸ hd)
  unfold escapeSeq
  simp only
  rw [if_neg (hne 'x' (by decide)), if_neg (hne 'o' (by decide)), if_neg, if_neg]
  · rintro (rfl | rfl) <;> exact hc (by decide)
  · intro htype
    have hall : ['w', 'W', 'd', 'D', 's', 'S', 'X'].all Char.isAlphanum = true := by decide
    exact hc (all_eq_true.mp hall c (contains_iff_mem.mp htype))

theorem head_of_escapeSeq {seq : List Char} (h : escapeSeq i = some (seq, r)) : i.head? = some '\\' := by
  unfold escapeSeq at h
  split at h
  · rfl
  · simp at h

theorem SetBody.unique {ts ts' : List SetToken} (h : SetBody i r ts) (h' : SetBody i r' ts') : r = r' ∧ ts = ts' := by
  induction h generalizing r' ts' with
  | close =>
    cases h' with
    | close => exact ⟨rfl, rfl⟩
    | char hc _ => simp at hc
    | escape hseq _ => simpa using head_of_escapeSeq hseq
  | char hc _ ih =>
    cases h' with
    | close => simp at hc
    | char _ h' =>
      obtain ⟨rfl, rfl⟩ := ih h'
      exact ⟨rfl, rfl⟩
    | bracket _ _ => simp at hc
    | quoted _ _ => simp at hc
    | escape hseq _ =>
      obtain rfl := some.inj (head_of_escapeSeq hseq)
      simp at hc
  | bracket _ _ ih =>
    cases h' with
    | char hc _ => simp at hc
    | bracket _ h' =>
      obtain ⟨rfl, rfl⟩ := ih h'
      exact ⟨rfl, rfl⟩
    | escape hseq _ => simpa using head_of_escapeSeq hseq
  | quoted hc _ ih =>
    cases h' with
    | char hc _ => simp at hc
    | quoted _ h' =>
      obtain ⟨rfl, rfl⟩ := ih h'
      exact ⟨rfl, rfl⟩
    | escape hseq _ => simp [escapeSeq_not_alphanum hc] at hseq
  | escape hseq _ ih =>
    cases h' with
    | close => simpa using head_of_escapeSeq hseq
    | char hc _ =>
      obtain rfl := some.inj (head_of_escapeSeq hseq)
      simp at hc
    | bracket _ _ => simpa using head_of_escapeSeq hseq
    | quoted hc _ => simp [escapeSeq_not_alphanum hc] at hseq
    | escape hseq' h' =>
      obtain ⟨rfl, rfl⟩ := Prod.mk.inj (some.inj (hseq.symm.trans hseq'))
      obtain ⟨rfl, rfl⟩ := ih h'
      exact ⟨rfl, rfl⟩

/-- The ends of an alternative. -/
def Closes (r : List Char) : Prop := r = [] ∨ r.head? = some ')' ∨ r.head? = some '|'

theorem Atom.not_closes (h : Atom M i r L) : ¬Closes i := by
  cases h with
  | char hc =>
    rintro (hnil | hhead | hhead)
    · simp at hnil
    · obtain rfl := some.inj hhead
      exact hc (by decide)
    · obtain rfl := some.inj hhead
      exact hc (by decide)
  | escape hseq =>
    rintro (rfl | hhead | hhead)
    · simp [escapeSeq] at hseq
    · simp [head_of_escapeSeq hseq] at hhead
    · simp [head_of_escapeSeq hseq] at hhead
  | _ => simp [Closes]

/-- The ends of the last alternative. -/
def ClosesAll (r : List Char) : Prop := r.head? ∈ [none, some ')']

theorem ClosesAll.closes (h : ClosesAll r) : Closes r := by
  rcases mem_pair.mp h with hnone | hparen
  · exact .inl (head?_eq_none_iff.mp hnone)
  · exact .inr (.inl hparen)

mutual

theorem Atom.unique {i r r' : List Char} {L L' : Language Char} :
    Atom M i r L → Atom M i r' L' → r = r' ∧ L = L'
  | .dot, h' => by
    cases h' with
    | dot => exact ⟨rfl, rfl⟩
    | char hc => exact absurd (by decide) hc
    | escape hseq => simpa using head_of_escapeSeq hseq
  | .char hc, h' => by
    cases h' with
    | char _ => exact ⟨rfl, rfl⟩
    | escape hseq =>
      obtain rfl := some.inj (head_of_escapeSeq hseq)
      exact absurd (by decide) hc
    | _ => exact absurd (by decide) hc
  | .brace hr, h' => by
    cases h' with
    | char hc => exact absurd (by decide) hc
    | brace _ => exact ⟨rfl, rfl⟩
    | escape hseq => simpa using head_of_escapeSeq hseq
  | .quoted hc, h' => by
    cases h' with
    | char hc => exact absurd (by decide) hc
    | quoted _ => exact ⟨rfl, rfl⟩
    | escape hseq => simp [escapeSeq_not_alphanum hc] at hseq
  | .escape hseq, h' => by
    cases h' with
    | char hc =>
      obtain rfl := some.inj (head_of_escapeSeq hseq)
      exact absurd (by decide) hc
    | quoted hc => simp [escapeSeq_not_alphanum hc] at hseq
    | escape hseq' =>
      obtain ⟨rfl, rfl⟩ := Prod.mk.inj (some.inj (hseq.symm.trans hseq'))
      exact ⟨rfl, rfl⟩
    | _ => simpa using head_of_escapeSeq hseq
  | .set hi h, h' => by
    cases h' with
    | char hc => exact absurd (by decide) hc
    | escape hseq => simpa using head_of_escapeSeq hseq
    | set _ h' =>
      obtain ⟨rfl, rfl⟩ := h.unique h'
      exact ⟨rfl, rfl⟩
    | _ => simp at hi
  | .setBracket h, h' => by
    cases h' with
    | char hc => exact absurd (by decide) hc
    | escape hseq => simpa using head_of_escapeSeq hseq
    | set hi _ => simp at hi
    | setBracket h' =>
      obtain ⟨rfl, rfl⟩ := h.unique h'
      exact ⟨rfl, rfl⟩
  | .negated hi h, h' => by
    cases h' with
    | char hc => exact absurd (by decide) hc
    | escape hseq => simpa using head_of_escapeSeq hseq
    | set hi _ => simp at hi
    | negated _ h' =>
      obtain ⟨rfl, rfl⟩ := h.unique h'
      exact ⟨rfl, rfl⟩
    | negatedBracket _ => simp at hi
  | .negatedBracket h, h' => by
    cases h' with
    | char hc => exact absurd (by decide) hc
    | escape hseq => simpa using head_of_escapeSeq hseq
    | set hi _ => simp at hi
    | negated hi _ => simp at hi
    | negatedBracket h' =>
      obtain ⟨rfl, rfl⟩ := h.unique h'
      exact ⟨rfl, rfl⟩
  | .group hi h, h' => by
    cases h' with
    | char hc => exact absurd (by decide) hc
    | escape hseq => simpa using head_of_escapeSeq hseq
    | group _ h' =>
      obtain ⟨heq, rfl⟩ := h.unique (by simp [ClosesAll]) h' (by simp [ClosesAll])
      exact ⟨(List.cons.inj heq).2, rfl⟩
    | nonCapturing _ => simp at hi
  | .nonCapturing h, h' => by
    cases h' with
    | char hc => exact absurd (by decide) hc
    | escape hseq => simpa using head_of_escapeSeq hseq
    | group hi _ => simp at hi
    | nonCapturing h' =>
      obtain ⟨heq, rfl⟩ := h.unique (by simp [ClosesAll]) h' (by simp [ClosesAll])
      exact ⟨(List.cons.inj heq).2, rfl⟩

theorem Branch.unique {i r r' : List Char} {L L' : Language Char} :
    Branch M i r L → Closes r → Branch M i r' L' → Closes r' → r = r' ∧ L = L'
  | .nil, hr, h', _ => by
    cases h' with
    | nil => exact ⟨rfl, rfl⟩
    | cons h' _ => exact absurd hr h'.not_closes
  | .cons h hrest, hr, h', hr' => by
    cases h' with
    | nil => exact absurd hr' h.not_closes
    | cons h' hrest' =>
      obtain ⟨rfl, rfl⟩ := h.unique h'
      obtain ⟨rfl, rfl⟩ := hrest.unique hr hrest' hr'
      exact ⟨rfl, rfl⟩

theorem Alternation.unique {i r r' : List Char} {L L' : Language Char} :
    Alternation M i r L → ClosesAll r → Alternation M i r' L' → ClosesAll r' → r = r' ∧ L = L'
  | .last h, hr, h', hr' => by
    cases h' with
    | last h' => exact h.unique hr.closes h' hr'.closes
    | bar h' _ =>
      obtain ⟨rfl, -⟩ := h.unique hr.closes h' (.inr (.inr rfl))
      simp [ClosesAll] at hr
  | .bar h hrest, hr, h', hr' => by
    cases h' with
    | last h' =>
      obtain ⟨rfl, -⟩ := h.unique (.inr (.inr rfl)) h' hr'.closes
      simp [ClosesAll] at hr'
    | bar h' hrest' =>
      obtain ⟨heq, rfl⟩ := h.unique (.inr (.inr rfl)) h' (.inr (.inr rfl))
      obtain rfl := (List.cons.inj heq).2
      obtain ⟨rfl, rfl⟩ := hrest.unique hr hrest' hr'
      exact ⟨rfl, rfl⟩

end

theorem Denotes.unique {regex : List Char} (h : Denotes M regex L) (h' : Denotes M regex L') : L = L' :=
  (Alternation.unique h (by simp [ClosesAll]) h' (by simp [ClosesAll])).2

open Classical in
/-- What is documented, and nothing else: an expression compiles if it has a meaning, and every string of
its language is found. -/
noncomputable def reference (M : CharMeaning) (newline : List Char) : CWB.Pcre where
  meaning := M
  newline := newline
  compiles regex := ∃ L, Denotes M regex L
  exec regex s := decide (∃ L, Denotes M regex L ∧ (s ∈ L ∨ ∃ t ∈ L, s = t ++ newline))
  documented regex L s _ hL hexec := by
    obtain ⟨L', hL', hs⟩ := of_decide_eq_true hexec
    rwa [hL.unique hL']

open Classical in
theorem reference_exec {newline regex s : List Char} (hL : Denotes M regex L) (hs : s ∈ L) :
    (reference M newline).exec regex s = true := decide_eq_true ⟨L, hL, .inl hs⟩

end CWB.Pcre
