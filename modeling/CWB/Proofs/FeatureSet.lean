import CWB.Library.Separated
import CWB.Sanity.Pcre
import CWB.Spec.XmlTag

/-! The text of a tree is read as the tree. -/

namespace CWB.RegexTree

open List Pcre

variable {M : CharMeaning} {r : List Char}

/-! ## Quantifiers -/

/-- No quantifier starts here. -/
def Unquantified (r : List Char) : Prop := ∀ c ∈ r.head?, c ∉ ['?', '*', '+', '{']

theorem unquantified_cons {c : Char} (h : c ∉ ['?', '*', '+', '{']) : Unquantified (c :: r) := by
  intro d hd
  obtain rfl := Option.some.inj hd
  exact h

theorem Unquantified.quantifier (h : Unquantified r) : quantifier r = none := by
  unfold Pcre.quantifier
  split
  · exact absurd (h '?' rfl) (by decide)
  · exact absurd (h '*' rfl) (by decide)
  · exact absurd (h '+' rfl) (by decide)
  · exact absurd (h '{' rfl) (by decide)
  · rfl

theorem Unquantified.modifier (h : Unquantified r) : modifier r = r := by
  unfold Pcre.modifier
  split
  · exact absurd (h '?' rfl) (by decide)
  · exact absurd (h '+' rfl) (by decide)
  · rfl

theorem span_digits (n : Digits) {c : Char} (hc : c.isDigit = false) :
    (n.chars ++ c :: r).span Char.isDigit = (n.chars, c :: r) := by
  rw [span_eq_takeWhile_dropWhile, takeWhile_append_of_pos n.digits, dropWhile_append_of_pos n.digits]
  simp [hc]

theorem quantifier_text (q : Quantity) (r : List Char) : quantifier (q.text ++ r) = some (q.bounds.1, q.bounds.2, r) := by
  have hcons : ∀ n : Digits, ∃ d ds, n.chars = d :: ds := fun n => exists_cons_of_ne_nil n.nonempty
  cases q with
  | opt | star | plus => rfl
  | exactly n =>
    obtain ⟨d, ds, hn⟩ := hcons n
    have hspan := span_digits (r := r) n (show ('}' : Char).isDigit = false by decide)
    rw [hn] at hspan
    simp only [Quantity.text, cons_append, append_assoc, nil_append, Quantity.bounds, quantifier, hn]
    rw [cons_append] at hspan
    rw [hspan]
    rfl
  | atLeast n =>
    obtain ⟨d, ds, hn⟩ := hcons n
    have hspan := span_digits (r := '}' :: r) n (show (',' : Char).isDigit = false by decide)
    rw [hn] at hspan
    simp only [Quantity.text, cons_append, append_assoc, nil_append, Quantity.bounds, quantifier, hn]
    rw [cons_append] at hspan
    rw [hspan]
    rfl
  | between n m =>
    obtain ⟨d, ds, hn⟩ := hcons n
    obtain ⟨e, es, hm⟩ := hcons m
    have hspan := span_digits (r := m.chars ++ '}' :: r) n (show (',' : Char).isDigit = false by decide)
    have hspan' := span_digits (r := r) m (show ('}' : Char).isDigit = false by decide)
    rw [hn] at hspan
    rw [hm] at hspan hspan'
    simp only [Quantity.text, cons_append, append_assoc, nil_append, Quantity.bounds, quantifier, hn, hm]
    rw [cons_append, cons_append] at hspan
    rw [cons_append] at hspan'
    rw [hspan]
    simp only [hspan']

theorem repeated_text (L : Language Char) (q : Option Quantifier) (h : Unquantified r) :
    repeated L (quantifierText q ++ r) = (r, quantified L q) := by
  rw [repeated]
  cases q with
  | none =>
    rw [quantifierText, nil_append, h.quantifier]
    rfl
  | some q =>
    obtain ⟨quantity, isLazy⟩ := q
    rw [quantifierText, Quantifier.text, append_assoc, quantifier_text]
    cases isLazy with
    | false =>
      simp only [Bool.false_eq_true, if_false, nil_append, h.modifier]
      rfl
    | true => rfl

/-! ## Bracket sets -/

theorem SetItem.text_ne_nil (i : SetItem) : i.text ≠ [] := by
  cases i <;> simp [text]

theorem setBody_items {items : List SetItem}
    (h : items.IsChain fun a b => a.text = ['['] → ∀ c ∈ b.text.head?, c ∉ [':', '.', '=']) :
    SetBody (items.flatMap SetItem.text ++ ']' :: r) r (items.map SetItem.token) := by
  induction items with
  | nil => exact .close
  | cons i items ih =>
    have hrest := ih h.of_cons
    cases i with
    | quoted c hc => exact .quoted (by simp [hc]) hrest
    | plain c hc =>
      by_cases hbracket : c = '['
      · subst hbracket
        have hi : (items.flatMap SetItem.text ++ ']' :: r).head? ∉ [some ':', some '.', some '='] := by
          cases items with
          | nil => simp
          | cons j items =>
            have hj := (isChain_cons_cons.mp h).1 rfl
            obtain ⟨x, xs, hx⟩ := exists_cons_of_ne_nil j.text_ne_nil
            rw [hx] at hj
            have := hj x rfl
            rw [flatMap_cons, hx]
            simpa using this
        exact .bracket hi hrest
      · exact .char (by simp [hc.1, hc.2, hbracket]) hrest

theorem BracketSet.text_append (b : BracketSet) (r : List Char) : b.text ++ r =
    '[' :: ((if b.negated then ['^'] else []) ++ ((if b.bracketFirst then [']'] else []) ++ (b.body ++ ']' :: r))) := by
  simp [text]

theorem BracketSet.denotes (b : BracketSet) (r : List Char) : Pcre.Atom M (b.text ++ r) r (M.set b.negated b.tokens) := by
  have hbody : SetBody (b.body ++ ']' :: r) r (b.items.map SetItem.token) := setBody_items b.noClass
  have hhead : b.bracketFirst = false → ∃ i items, b.items = i :: items :=
    fun hb => exists_cons_of_ne_nil (b.nonempty hb)
  have hclose : ∀ (i : SetItem) (x : List Char), (i.text ++ x).head? ≠ some ']' := fun i x => by
    cases i with
    | plain c hc => simpa [SetItem.text] using hc.1
    | quoted c hc => simp [SetItem.text]
  have hcaret := b.notCaret
  rw [text_append, tokens]
  cases hneg : b.negated with
  | false =>
    cases hfirst : b.bracketFirst with
    | false =>
      obtain ⟨i, items, hitems⟩ := hhead hfirst
      refine .set ?_ hbody
      have hne := hcaret hneg hfirst
      simp only [body, hitems, flatMap_cons, append_assoc, nil_append, Bool.false_eq_true, if_false] at hne ⊢
      obtain ⟨x, xs, hx⟩ := exists_cons_of_ne_nil i.text_ne_nil
      have hi := hclose i []
      rw [hx] at hne hi ⊢
      simpa using ⟨hne x rfl, by simpa using hi⟩
    | true => exact .setBracket hbody
  | true =>
    cases hfirst : b.bracketFirst with
    | false =>
      obtain ⟨i, items, hitems⟩ := hhead hfirst
      refine .negated ?_ hbody
      simp only [body, hitems, flatMap_cons, append_assoc, nil_append, Bool.false_eq_true, if_false]
      exact hclose i _
    | true => exact .negatedBracket hbody

/-! ## Trees -/

theorem Atom.unquantified (a : Atom) (r : List Char) : Unquantified (a.text ++ r) := by
  cases a with
  | dot => exact unquantified_cons (by decide)
  | char c hc =>
    refine unquantified_cons fun hmem => hc ?_
    simp only [mem_cons, not_mem_nil, or_false] at hmem
    rcases hmem with rfl | rfl | rfl | rfl <;> decide
  | quoted c hc => exact unquantified_cons (by decide)
  | set b =>
    rw [Atom.text, BracketSet.text_append]
    exact unquantified_cons (by decide)
  | group capturing e => cases capturing <;> exact unquantified_cons (by decide)

theorem Branch.unquantified (b : Branch) (h : Unquantified r) : Unquantified (b.text ++ r) := by
  cases b with
  | nil => exact h
  | cons a q b =>
    rw [Branch.text, append_assoc, append_assoc]
    exact a.unquantified _

theorem Alternatives.unquantified (e : Alternatives) (h : Unquantified r) : Unquantified (e.text ++ r) := by
  cases e with
  | last b => exact b.unquantified h
  | bar b e =>
    rw [Alternatives.text, append_assoc]
    exact b.unquantified (unquantified_cons (by decide))

theorem Alternatives.text_head_ne (e : Alternatives) (r : List Char) : (e.text ++ ')' :: r).head? ≠ some '?' := fun h =>
  absurd (e.unquantified (unquantified_cons (by decide)) '?' h) (by decide)

mutual

theorem Atom.denotes (M : CharMeaning) : ∀ (a : Atom) (r : List Char), Pcre.Atom M (a.text ++ r) r (a.lang M)
  | .dot, _ => .dot
  | .char _ hc, _ => .char hc
  | .quoted _ hc, _ => .quoted (by simp [hc])
  | .set b, r => b.denotes r
  | .group true e, r => by
    have h := e.denotes M (')' :: r) (unquantified_cons (by decide))
    simp only [Atom.text, cons_append, append_assoc, nil_append]
    exact .group (e.text_head_ne r) h
  | .group false e, r => by
    have h := e.denotes M (')' :: r) (unquantified_cons (by decide))
    simp only [Atom.text, cons_append, append_assoc, nil_append]
    exact .nonCapturing h

theorem Branch.denotes (M : CharMeaning) : ∀ (b : Branch) (r : List Char), Unquantified r →
    Pcre.Branch M (b.text ++ r) r (b.lang M)
  | .nil, _, _ => .nil
  | .cons a q b, r, h => by
    have hatom := a.denotes M (quantifierText q ++ (b.text ++ r))
    have hrepeated := repeated_text (a.lang M) q (b.unquantified h)
    have hrest := b.denotes M r h
    rw [Branch.text, append_assoc, append_assoc]
    have hcons := Pcre.Branch.cons hatom (by rw [hrepeated]; exact hrest)
    rw [hrepeated] at hcons
    exact hcons

theorem Alternatives.denotes (M : CharMeaning) : ∀ (e : Alternatives) (r : List Char), Unquantified r →
    Alternation M (e.text ++ r) r (e.lang M)
  | .last b, r, h => .last (b.denotes M r h)
  | .bar b e, r, h => by
    rw [Alternatives.text, append_assoc]
    exact .bar (b.denotes M ('|' :: (e.text ++ r)) (unquantified_cons (by decide))) (e.denotes M r h)

end

theorem denotes_text (M : CharMeaning) (e : Alternatives) : Denotes M e.text (e.lang M) := by
  have h := e.denotes M [] (fun c hc => absurd hc (by simp))
  rwa [append_nil] at h

end CWB.RegexTree

/-! What `contains` and `matches` mean on feature sets. The text rewriting replaces the `.` of an
expression by a set that does not match the separator; everything else in the expression that matches
the separator can still match across features. -/

namespace CWB.RegexTree

open Pcre

/-! ## The rewritten expression -/

/-- `[^|]` -/
def notBar : BracketSet where
  negated := true
  bracketFirst := false
  items := [.plain '|' (by decide)]
  nonempty := fun _ => by simp
  notCaret := fun h => absurd h (by decide)
  noClass := by simp

mutual

/-- No `.` stands in a bracket set. -/
def Atom.DotsOutside : Atom → Prop
  | .dot | .char _ _ | .quoted _ _ => True
  | .set b => '.' ∉ b.body
  | .group _ e => e.DotsOutside

def Branch.DotsOutside : Branch → Prop
  | .nil => True
  | .cons a _ b => a.DotsOutside ∧ b.DotsOutside

def Alternatives.DotsOutside : Alternatives → Prop
  | .last b => b.DotsOutside
  | .bar b e => b.DotsOutside ∧ e.DotsOutside

end

mutual

/-- The tree with `[^|]` in place of each `.`. -/
def Atom.undot : Atom → Atom
  | .dot => .set notBar
  | .char c hc => .char c hc
  | .quoted c hc => .quoted c hc
  | .set b => .set b
  | .group capturing e => .group capturing e.undot

def Branch.undot : Branch → Branch
  | .nil => .nil
  | .cons a q b => .cons a.undot q b.undot

def Alternatives.undot : Alternatives → Alternatives
  | .last b => .last b.undot
  | .bar b e => .bar b.undot e.undot

end

/-- The text `t` is rewritten to `t'`, whatever follows. -/
def Converts (t t' : List Char) : Prop := ∀ x, mvalStringConversion (t ++ x) = (mvalStringConversion x).map (t' ++ ·)

theorem Converts.append {t t' u u' : List Char} (h : Converts t t') (h' : Converts u u') : Converts (t ++ u) (t' ++ u') := by
  intro x
  rw [List.append_assoc, h, h', Option.map_map]
  congr 1
  funext y
  simp

theorem converts_nil : Converts [] [] := fun x => by simp

theorem converts_dot : Converts ['.'] ['[', '^', '|', ']'] := fun x => by
  rw [List.singleton_append, mvalStringConversion]
  cases mvalStringConversion x <;> rfl

theorem converts_escape (c : Char) : Converts ['\\', c] ['\\', c] := fun x => by
  rw [List.cons_append, List.singleton_append, mvalStringConversion]
  cases mvalStringConversion x <;> rfl

theorem converts_char {c : Char} (h : c ≠ '.' ∧ c ≠ '\\') : Converts [c] [c] := fun x => by
  rw [List.singleton_append]
  rw [mvalStringConversion.eq_def]
  split
  · next heq => exact absurd heq (by simp)
  · next heq => exact absurd (List.cons.inj heq).1 h.2
  · next heq => exact absurd (List.cons.inj heq).1 h.2
  · next heq => exact absurd (List.cons.inj heq).1 h.1
  · next heq =>
    obtain ⟨rfl, rfl⟩ := List.cons.inj heq
    cases mvalStringConversion x <;> rfl

theorem converts_plain {t : List Char} (h : ∀ c ∈ t, c ≠ '.' ∧ c ≠ '\\') : Converts t t := by
  induction t with
  | nil => exact converts_nil
  | cons c t ih =>
    obtain ⟨hc, ht⟩ := List.forall_mem_cons.mp h
    exact (converts_char hc).append (ih ht)

theorem converts_digits (n : Digits) : Converts n.chars n.chars :=
  converts_plain fun c hc => by
    have := n.digits c hc
    refine ⟨?_, ?_⟩
    · rintro rfl
      exact absurd this (by decide)
    · rintro rfl
      exact absurd this (by decide)

theorem converts_quantity (q : Quantity) : Converts q.text q.text := by
  have hbrace : Converts ['{'] ['{'] := converts_char (by decide)
  cases q with
  | opt | star | plus => exact converts_char (by decide)
  | exactly n => exact hbrace.append ((converts_digits n).append (converts_char (by decide)))
  | atLeast n => exact hbrace.append ((converts_digits n).append (converts_plain (by simp)))
  | between n m =>
    exact hbrace.append ((converts_digits n).append ((converts_char (c := ',') (by decide)).append
      ((converts_digits m).append (converts_char (by decide)))))

theorem converts_quantifier (q : Option Quantifier) : Converts (quantifierText q) (quantifierText q) := by
  cases q with
  | none => exact converts_nil
  | some q =>
    refine (converts_quantity q.quantity).append ?_
    split_ifs
    · exact converts_char (by decide)
    · exact converts_nil

theorem converts_items {items : List SetItem} (h : '.' ∉ items.flatMap SetItem.text) :
    Converts (items.flatMap SetItem.text) (items.flatMap SetItem.text) := by
  induction items with
  | nil => exact converts_nil
  | cons i items ih =>
    rw [List.flatMap_cons] at h ⊢
    obtain ⟨hi, hitems⟩ := not_or.mp (List.mem_append.not.mp h)
    refine Converts.append ?_ (ih hitems)
    cases i with
    | plain c hc =>
      refine converts_char ⟨?_, hc.2⟩
      rintro rfl
      exact hi (by simp [SetItem.text])
    | quoted c hc => exact converts_escape c

theorem converts_set {b : BracketSet} (h : '.' ∉ b.body) : Converts b.text b.text := by
  have hopen : Converts ['['] ['['] := converts_char (by decide)
  have hoptional : ∀ (p : Bool) (c : Char), c ≠ '.' ∧ c ≠ '\\' → Converts (if p then [c] else []) (if p then [c] else []) :=
    fun p c hc => by
      split_ifs
      · exact converts_char hc
      · exact converts_nil
  exact hopen.append ((((hoptional b.negated '^' (by decide)).append (hoptional b.bracketFirst ']' (by decide))).append
    (converts_items h)).append (converts_char (by decide)))

mutual

theorem Atom.converts : ∀ (a : Atom), a.DotsOutside → Converts a.text a.undot.text
  | .dot, _ => converts_dot
  | .char c hc, _ => converts_char ⟨fun h => hc (h ▸ by decide), fun h => hc (h ▸ by decide)⟩
  | .quoted c _, _ => converts_escape c
  | .set _, h => converts_set h
  | .group true e, h => (converts_char (c := '(') (by decide)).append ((e.converts h).append (converts_char (by decide)))
  | .group false e, h =>
    (converts_plain (t := ['(', '?', ':']) (by simp)).append ((e.converts h).append (converts_char (by decide)))

theorem Branch.converts : ∀ (b : Branch), b.DotsOutside → Converts b.text b.undot.text
  | .nil, _ => converts_nil
  | .cons a q b, h => ((a.converts h.1).append (converts_quantifier q)).append (b.converts h.2)

theorem Alternatives.converts : ∀ (e : Alternatives), e.DotsOutside → Converts e.text e.undot.text
  | .last b, h => b.converts h
  | .bar b e, h => (b.converts h.1).append ((converts_char (c := '|') (by decide)).append (e.converts h.2))

end

theorem mvalStringConversion_text {e : Alternatives} (h : e.DotsOutside) :
    mvalStringConversion e.text = some e.undot.text := by
  have hconverts := e.converts h []
  rwa [List.append_nil, mvalStringConversion, Option.map_some, List.append_nil] at hconverts

/-! ## Its meaning -/

/-- The meaning of an expression on features: `.` does not match the separator. -/
def featureMeaning (M : CharMeaning) : CharMeaning := { M with dot := M.set true [.char '|'] }

mutual

theorem Atom.lang_undot (M : CharMeaning) : ∀ a : Atom, a.undot.lang M = a.lang (featureMeaning M)
  | .dot | .char _ _ | .quoted _ _ | .set _ => rfl
  | .group _ e => e.lang_undot M

theorem Branch.lang_undot (M : CharMeaning) : ∀ b : Branch, b.undot.lang M = b.lang (featureMeaning M)
  | .nil => rfl
  | .cons a q b => by rw [Branch.undot, Branch.lang, Branch.lang, a.lang_undot M, b.lang_undot M]

theorem Alternatives.lang_undot (M : CharMeaning) : ∀ e : Alternatives, e.undot.lang M = e.lang (featureMeaning M)
  | .last b => b.lang_undot M
  | .bar b e => by rw [Alternatives.undot, Alternatives.lang, Alternatives.lang, b.lang_undot M, e.lang_undot M]

end

/-- What the documentation says of `.`, of an escaped `|` and of `[^|]`. -/
structure Documented (M : CharMeaning) : Prop where
  dot : ∀ w, w ∈ M.dot ↔ ∃ c, c ≠ '\n' ∧ w = [c]
  bar : ∀ d, M.same '|' d ↔ d = '|'
  notBar : ∀ w, w ∈ M.set true [.char '|'] ↔ ∃ c, c ≠ '|' ∧ w = [c]

/-- A feature: it contains no separator, and no newline as no attribute value does. -/
def Clean (w : List Char) : Prop := '|' ∉ w ∧ '\n' ∉ w

theorem clean_append {w w' : List Char} : Clean (w ++ w') ↔ Clean w ∧ Clean w' := by
  simp only [Clean, List.mem_append, not_or]
  tauto

/-- Two languages with the same features. -/
def Agree (L L' : Language Char) : Prop := ∀ w, Clean w → (w ∈ L ↔ w ∈ L')

theorem Agree.refl (L : Language Char) : Agree L L := fun _ _ => Iff.rfl

variable {L' : Language Char}

theorem Agree.add {L K K' : Language Char} (h : Agree L L') (h' : Agree K K') : Agree (L + K) (L' + K') := fun w hw => by
  rw [Language.mem_add, Language.mem_add, h w hw, h' w hw]

theorem Agree.mul {L K K' : Language Char} (h : Agree L L') (h' : Agree K K') : Agree (L * K) (L' * K') := fun w hw => by
  rw [Language.mem_mul, Language.mem_mul]
  refine exists_congr fun a => ⟨fun ⟨ha, b, hb, heq⟩ => ?_, fun ⟨ha, b, hb, heq⟩ => ?_⟩
  · obtain ⟨hca, hcb⟩ := clean_append.mp (heq ▸ hw)
    exact ⟨(h a hca).mp ha, b, (h' b hcb).mp hb, heq⟩
  · obtain ⟨hca, hcb⟩ := clean_append.mp (heq ▸ hw)
    exact ⟨(h a hca).mpr ha, b, (h' b hcb).mpr hb, heq⟩

theorem Agree.pow {L : Language Char} (h : Agree L L') (k : ℕ) : Agree (L ^ k) (L' ^ k) := by
  induction k with
  | zero => exact Agree.refl _
  | succ k ih =>
    rw [pow_succ, pow_succ]
    exact ih.mul h

theorem Agree.quantified {L : Language Char} (h : Agree L L') (q : Option Quantifier) :
    Agree (quantified L q) (quantified L' q) := by
  cases q with
  | none => exact h
  | some q => exact fun w hw => exists_congr fun k => and_congr_right fun _ => and_congr_right fun _ => h.pow k w hw

mutual

/-- On features an expression means the same with `[^|]` in place of `.`. -/
theorem Atom.agree {M : CharMeaning} (hM : Documented M) : ∀ a : Atom, Agree (a.lang M) (a.lang (featureMeaning M))
  | .dot => fun w hw => by
    rw [Atom.lang, Atom.lang, hM.dot, featureMeaning, hM.notBar]
    refine exists_congr fun c => and_congr_left fun heq => ?_
    rw [heq] at hw
    refine iff_of_true ?_ ?_
    · rintro rfl
      exact hw.2 (by simp)
    · rintro rfl
      exact hw.1 (by simp)
  | .char _ _ | .quoted _ _ | .set _ => Agree.refl _
  | .group _ e => Alternatives.agree hM e

theorem Branch.agree {M : CharMeaning} (hM : Documented M) : ∀ b : Branch, Agree (b.lang M) (b.lang (featureMeaning M))
  | .nil => Agree.refl _
  | .cons a q b => ((Atom.agree hM a).quantified q).mul (Branch.agree hM b)

theorem Alternatives.agree {M : CharMeaning} (hM : Documented M) :
    ∀ e : Alternatives, Agree (e.lang M) (e.lang (featureMeaning M))
  | .last b => Branch.agree hM b
  | .bar b e => (Branch.agree hM b).add (Alternatives.agree hM e)

end

section Meaning

variable {M : CharMeaning} (hM : Documented M)

include hM

theorem mem_literal_bar {w : List Char} : w ∈ literal M '|' ↔ w = ['|'] := by
  have hliteral : w ∈ literal M '|' ↔ ∃ d, M.same '|' d ∧ w = [d] := Iff.rfl
  rw [hliteral]
  exact ⟨fun ⟨d, hd, heq⟩ => (hM.bar d).mp hd ▸ heq, fun heq => ⟨'|', (hM.bar _).mpr rfl, heq⟩⟩

theorem mem_dots {w : List Char} : w ∈ times M.dot 0 none ↔ '\n' ∉ w := by
  have htimes : w ∈ times M.dot 0 none ↔ ∃ k, 0 ≤ k ∧ (∀ m' ∈ (none : Option ℕ), k ≤ m') ∧ w ∈ M.dot ^ k := Iff.rfl
  simp only [htimes, Nat.zero_le, Option.mem_def, reduceCtorEq, false_implies, implies_true, true_and]
  refine ⟨fun ⟨k, hk⟩ hmem => ?_, fun hw => ⟨w.length, Language.mem_pow.mpr ⟨w.map ([·]), ?_, by simp, fun y hy => ?_⟩⟩⟩
  · obtain ⟨S, rfl, -, hS⟩ := Language.mem_pow.mp hk
    obtain ⟨y, hy, hy'⟩ := List.mem_flatten.mp hmem
    obtain ⟨c, hc, rfl⟩ := (hM.dot y).mp (hS y hy)
    exact hc (List.mem_singleton.mp hy').symm
  · clear htimes
    induction w with
    | nil => rfl
    | cons c w ih =>
      simp only [List.mem_cons, not_or] at hw
      rw [List.map_cons, List.flatten_cons, ← ih hw.2]
      rfl
  · obtain ⟨c, hc, rfl⟩ := List.mem_map.mp hy
    exact (hM.dot _).mpr ⟨c, fun heq => hw (heq ▸ hc), rfl⟩

end Meaning

/-! ## The patterns -/

def Branch.append : Branch → Branch → Branch
  | .nil, b => b
  | .cons a q b, b' => .cons a q (b.append b')

theorem Branch.text_append (b b' : Branch) : (b.append b').text = b.text ++ b'.text :=
  match b with
  | .nil => rfl
  | .cons a q b => by
    rw [Branch.append, Branch.text, Branch.text, Branch.text_append b b']
    simp

theorem Branch.lang_append (M : CharMeaning) (b b' : Branch) : (b.append b').lang M = b.lang M * b'.lang M :=
  match b with
  | .nil => by rw [Branch.append, Branch.lang, one_mul]
  | .cons a q b => by rw [Branch.append, Branch.lang, Branch.lang, Branch.lang_append M b b', mul_assoc]

/-- `\|` -/
def bar : Atom := .quoted '|' (by decide)

def starred : Quantifier := ⟨.star, false⟩

def repeatedly : Quantifier := ⟨.plus, false⟩

/-- `.*\|(e)\|.*` -/
def containsTree (e : Alternatives) : Alternatives :=
  .last (.cons .dot (some starred) (.cons bar none (.cons (.group true e) none
    (.cons bar none (.cons .dot (some starred) .nil)))))

/-- `\|(b\|)+` -/
def matchesTree (b : Branch) : Alternatives :=
  .last (.cons bar none (.cons (.group true (.last (b.append (.cons bar none .nil)))) (some repeatedly) .nil))

theorem containsTree_text (e : Alternatives) :
    (containsTree e).text = ".*\\|(".toList ++ e.text ++ ")\\|.*".toList := by
  simp [containsTree, Alternatives.text, Branch.text, Atom.text, bar, quantifierText, Quantifier.text, Quantity.text, starred]

theorem matchesTree_text (b : Branch) : (matchesTree b).text = "\\|(".toList ++ b.text ++ "\\|)+".toList := by
  simp [matchesTree, Alternatives.text, Branch.text, Atom.text, bar, quantifierText, Quantifier.text, Quantity.text, repeatedly,
    Branch.text_append]

theorem matchesTree_group_text (e : Alternatives) :
    (matchesTree (.cons (.group true e) none .nil)).text = "\\|((".toList ++ e.text ++ ")\\|)+".toList := by
  rw [matchesTree_text]
  simp [Branch.text, Atom.text, quantifierText]

theorem containsTree_lang (M : CharMeaning) (e : Alternatives) : (containsTree e).lang M =
    times M.dot 0 none * (literal M '|' * (e.lang M * (literal M '|' * times M.dot 0 none))) := by
  simp only [containsTree, Alternatives.lang, Branch.lang, Atom.lang, bar, quantified, starred, Quantity.bounds, mul_one]

theorem matchesTree_lang (M : CharMeaning) (b : Branch) :
    (matchesTree b).lang M = literal M '|' * times (b.lang M * literal M '|') 1 none := by
  simp only [matchesTree, Alternatives.lang, Branch.lang, Atom.lang, bar, quantified, repeatedly, Quantity.bounds, mul_one,
    Branch.lang_append]

/-- Without `|` in its text an expression has no alternatives. -/
theorem exists_branch_of_safeRegexp {e : Alternatives} (h : safeRegexp e.text = true) : ∃ b, e = .last b := by
  cases e with
  | last b => exact ⟨b, rfl⟩
  | bar b e => simp [safeRegexp, Alternatives.text] at h

theorem mvalPattern_contains (M : CharMeaning) {e : Alternatives} (h : e.DotsOutside) :
    ∃ t : Alternatives, mvalPattern e.text .opContains = some t.text ∧ t.lang M =
      times M.dot 0 none * (literal M '|' * (e.lang (featureMeaning M) * (literal M '|' * times M.dot 0 none))) := by
  refine ⟨containsTree e.undot, ?_, ?_⟩
  · rw [mvalPattern, mvalStringConversion_text h, containsTree_text]
    rfl
  · rw [containsTree_lang, e.lang_undot]

theorem mvalPattern_matches (M : CharMeaning) {e : Alternatives} (h : e.DotsOutside) :
    ∃ t : Alternatives, mvalPattern e.text .opMatches = some t.text ∧ t.lang M =
      literal M '|' * times (e.lang (featureMeaning M) * literal M '|') 1 none := by
  by_cases hsafe : safeRegexp e.text = true
  · obtain ⟨b, rfl⟩ := exists_branch_of_safeRegexp hsafe
    refine ⟨matchesTree b.undot, ?_, ?_⟩
    · rw [mvalPattern, mvalStringConversion_text h, matchesTree_text]
      simp only [Option.bind_eq_bind, Option.bind_some, if_pos hsafe]
      rfl
    · rw [matchesTree_lang, b.lang_undot]
      rfl
  · refine ⟨matchesTree (.cons (.group true e.undot) none .nil), ?_, ?_⟩
    · rw [mvalPattern, mvalStringConversion_text h, matchesTree_group_text]
      simp only [Option.bind_eq_bind, Option.bind_some, if_neg hsafe]
    · rw [matchesTree_lang, Branch.lang, Atom.lang, quantified, Branch.lang, mul_one, e.lang_undot]

/-! ## Feature sets -/

/-- The value `|v1|..|vn|`. -/
def featureSet (vs : List (List Char)) : List Char := '|' :: Separated.closed '|' vs

/-- The regular expression matches the whole text. -/
def FullMatch (M : CharMeaning) (regex w : List Char) : Prop := ∃ L, Denotes M regex L ∧ w ∈ L

theorem fullMatch_text (M : CharMeaning) (e : Alternatives) (w : List Char) : FullMatch M e.text w ↔ w ∈ e.lang M := by
  refine ⟨fun ⟨L, hL, hw⟩ => ?_, fun hw => ⟨e.lang M, denotes_text M e, hw⟩⟩
  rwa [(denotes_text M e).unique hL]

/-- What the operators mean. -/
def MvalMeaning (M : CharMeaning) (regex : List Char) (vs : List (List Char)) : MvalOp → Prop
  | .opContains => ∃ v ∈ vs, FullMatch M regex v
  | .opMatches => vs ≠ [] ∧ ∀ v ∈ vs, FullMatch M regex v

/-- Whatever the expression matches, with `.` not matching the separator, it also matches each part of. -/
def MatchesParts (M : CharMeaning) (e : Alternatives) : Prop :=
  ∀ w ∈ e.lang (featureMeaning M), '\n' ∉ w → ∀ u ∈ w.splitOn '|', u ∈ e.lang (featureMeaning M)

section Operators

variable {M : CharMeaning} (hM : Documented M) {vs : List (List Char)} (hvs : ∀ v ∈ vs, Clean v) {L : Language Char}

include hvs

theorem featureSet_noNewline : '\n' ∉ featureSet vs := by
  intro h
  rcases List.mem_cons.mp h with h | h
  · exact absurd h (by decide)
  · obtain ⟨v, hv, hmem⟩ := List.mem_flatMap.mp h
    rcases List.mem_append.mp hmem with hmem | hmem
    · exact (hvs v hv).2 hmem
    · exact absurd (List.mem_singleton.mp hmem) (by decide)

include hM

theorem mem_contains_iff : featureSet vs ∈ times M.dot 0 none * (literal M '|' * (L * (literal M '|' * times M.dot 0 none))) ↔
    ∃ w ∈ L, w.splitOn '|' <:+: vs := by
  have hline := featureSet_noNewline hvs
  simp only [Language.mem_mul, mem_literal_bar hM, mem_dots hM]
  refine ⟨fun hmem => ?_, fun ⟨w, hw, hrun⟩ => ?_⟩
  · obtain ⟨a, _, _, ⟨_, rfl, _, ⟨w, hw, _, ⟨_, rfl, b, _, rfl⟩, rfl⟩, rfl⟩, heq⟩ := hmem
    refine ⟨w, hw, ?_⟩
    exact (Separated.exists_between_iff fun v hv => (hvs v hv).1).mp ⟨a, b, heq.symm⟩
  · obtain ⟨a, b, heq⟩ := (Separated.exists_between_iff fun v hv => (hvs v hv).1).mpr hrun
    rw [featureSet, heq] at hline ⊢
    simp only [List.mem_append, List.mem_cons, not_or] at hline
    exact ⟨a, hline.1, _, ⟨['|'], rfl, _, ⟨w, hw, _, ⟨['|'], rfl, b, hline.2.2.2.2, rfl⟩, rfl⟩, rfl⟩, rfl⟩

theorem mem_matches_iff : featureSet vs ∈ literal M '|' * times (L * literal M '|') 1 none ↔
    ∃ ws : List (List Char), ws ≠ [] ∧ (∀ w ∈ ws, w ∈ L) ∧ ws.flatMap (List.splitOn '|') = vs := by
  have htimes : ∀ w, w ∈ times (L * literal M '|') 1 none ↔
      ∃ k, 1 ≤ k ∧ (∀ m' ∈ (none : Option ℕ), k ≤ m') ∧ w ∈ (L * literal M '|') ^ k := fun w => Iff.rfl
  have hparts : ∀ v ∈ vs, '|' ∉ v := fun v hv => (hvs v hv).1
  simp only [Language.mem_mul, mem_literal_bar hM, htimes, Language.mem_pow]
  refine ⟨fun hmem => ?_, fun ⟨ws, hne, hws, heq⟩ => ?_⟩
  · obtain ⟨_, rfl, _, ⟨k, hk, -, S, rfl, hlen, hS⟩, heq⟩ := hmem
    obtain ⟨ws, hws, rfl⟩ : ∃ ws : List (List Char), (∀ w ∈ ws, w ∈ L) ∧ S = ws.map (· ++ ['|']) := by
      clear heq hlen
      induction S with
      | nil => exact ⟨[], by simp, rfl⟩
      | cons y S ih =>
        obtain ⟨hy, hS⟩ := List.forall_mem_cons.mp hS
        obtain ⟨ws, hws, rfl⟩ := ih hS
        obtain ⟨w, hw, _, rfl, rfl⟩ := hy
        exact ⟨w :: ws, List.forall_mem_cons.mpr ⟨hw, hws⟩, rfl⟩
    refine ⟨ws, fun h0 => ?_, hws, (Separated.closed_eq_closed_iff hparts).mp ?_⟩
    · rw [h0] at hlen
      simp only [List.map_nil, List.length_nil] at hlen
      omega
    · rw [← List.flatMap_def] at heq
      exact (List.cons.inj heq).2
  · refine ⟨['|'], rfl, Separated.closed '|' ws,
      ⟨ws.length, List.length_pos_iff.mpr hne, by simp, ws.map (· ++ ['|']), ?_, by simp, fun y hy => ?_⟩, ?_⟩
    · rw [Separated.closed, List.flatMap_def]
    · obtain ⟨w, hw, rfl⟩ := List.mem_map.mp hy
      exact ⟨w, hws w hw, ['|'], rfl, rfl⟩
    · rw [(Separated.closed_eq_closed_iff hparts).mpr heq]
      rfl

end Operators

/-- `do_XMLTag` builds the patterns of `do_mval_string`. -/
theorem tagPattern_eq {R : Type} (parser : TagParser R) {regex : String}
    (h : mvalStringConversion regex.toList = some (parser.mvalStringConversion regex).toList) :
    mvalPattern regex.toList .opContains = some (parser.pattern .contains regex).toList ∧
      mvalPattern regex.toList .opMatches = some (parser.pattern .matches regex).toList := by
  refine ⟨?_, ?_⟩
  · simp [mvalPattern, TagParser.pattern, h]
  · have hsafe : safeRegexp regex.toList = !regex.toList.any fun c => c = '|' || c = '\\' := by
      rw [safeRegexp, Bool.eq_iff_iff]
      simp only [Bool.not_eq_true', Bool.or_eq_false_iff, List.contains_eq_mem, List.any_eq_false, decide_eq_false_iff_not,
        Bool.or_eq_true, decide_eq_true_eq]
      grind
    rw [mvalPattern, h, hsafe, TagParser.pattern]
    cases regex.toList.any fun c => c = '|' || c = '\\' <;> simp

/-- The patterns for the expression match the feature sets that they should. -/
def MvalCorrect (M : CharMeaning) (e : Alternatives) : Prop :=
  ∀ vs : List (List Char), (∀ v ∈ vs, Clean v) → ∀ op pattern, mvalPattern e.text op = some pattern →
    (FullMatch M pattern (featureSet vs) ↔ MvalMeaning M e.text vs op)

section Correct

variable {M : CharMeaning} (hM : Documented M) {e : Alternatives} (hdots : e.DotsOutside)

include hM

/-- A feature by itself. -/
theorem mem_feature_iff (e : Alternatives) {v : List Char} (hv : Clean v) :
    v ∈ e.lang (featureMeaning M) ↔ FullMatch M e.text v := by
  rw [fullMatch_text, Alternatives.agree hM e v hv]

include hdots

theorem contains_iff {vs : List (List Char)} (hvs : ∀ v ∈ vs, Clean v) {pattern : List Char}
    (hpattern : mvalPattern e.text .opContains = some pattern) :
    FullMatch M pattern (featureSet vs) ↔ ∃ w ∈ e.lang (featureMeaning M), w.splitOn '|' <:+: vs := by
  obtain ⟨t, ht, hlang⟩ := mvalPattern_contains M hdots
  obtain rfl := Option.some.inj (hpattern.symm.trans ht)
  rw [fullMatch_text, hlang, mem_contains_iff hM hvs]

theorem matches_iff {vs : List (List Char)} (hvs : ∀ v ∈ vs, Clean v) {pattern : List Char}
    (hpattern : mvalPattern e.text .opMatches = some pattern) : FullMatch M pattern (featureSet vs) ↔
      ∃ ws : List (List Char), ws ≠ [] ∧ (∀ w ∈ ws, w ∈ e.lang (featureMeaning M)) ∧ ws.flatMap (List.splitOn '|') = vs := by
  obtain ⟨t, ht, hlang⟩ := mvalPattern_matches M hdots
  obtain rfl := Option.some.inj (hpattern.symm.trans ht)
  rw [fullMatch_text, hlang, mem_matches_iff hM hvs]

theorem MatchesParts.correct (h : MatchesParts M e) : MvalCorrect M e := by
  intro vs hvs op pattern hpattern
  have hsingle : ∀ v ∈ vs, v.splitOn '|' = [v] := fun v hv => List.splitOn_eq_singleton (hvs v hv).1
  have hline : ∀ w : List Char, (∀ u ∈ w.splitOn '|', u ∈ vs) → '\n' ∉ w := fun w hw hmem => by
    obtain ⟨u, hu, hmem⟩ := Separated.exists_mem_splitOn hmem (show '\n' ≠ '|' by decide)
    exact (hvs u (hw u hu)).2 hmem
  cases op with
  | opContains =>
    rw [contains_iff hM hdots hvs hpattern]
    refine ⟨fun ⟨w, hw, hrun⟩ => ?_, fun ⟨v, hv, hmatch⟩ => ?_⟩
    · obtain ⟨u, hu⟩ := List.exists_mem_of_ne_nil _ (List.splitOn_ne_nil '|' w)
      have huv := hrun.subset hu
      exact ⟨u, huv, (mem_feature_iff hM e (hvs u huv)).mp (h w hw (hline w fun u hu => hrun.subset hu) u hu)⟩
    · refine ⟨v, (mem_feature_iff hM e (hvs v hv)).mpr hmatch, ?_⟩
      obtain ⟨before, behind, rfl⟩ := List.append_of_mem hv
      exact ⟨before, behind, by rw [hsingle v hv, List.append_assoc, List.singleton_append]⟩
  | opMatches =>
    rw [matches_iff hM hdots hvs hpattern]
    refine ⟨fun ⟨ws, hne, hws, heq⟩ => ⟨?_, fun v hv => ?_⟩, fun ⟨hne, hall⟩ => ⟨vs, hne, fun v hv => ?_, ?_⟩⟩
    · rintro rfl
      obtain ⟨w, hw⟩ := List.exists_mem_of_ne_nil ws hne
      exact List.splitOn_ne_nil '|' w (List.flatMap_eq_nil_iff.mp heq w hw)
    · rw [← heq] at hv
      obtain ⟨w, hw, hu⟩ := List.mem_flatMap.mp hv
      have hvs' : ∀ u ∈ w.splitOn '|', u ∈ vs := fun u hu => heq ▸ List.mem_flatMap.mpr ⟨w, hw, hu⟩
      exact (mem_feature_iff hM e (hvs v (hvs' v hu))).mp (h w (hws w hw) (hline w hvs') v hu)
    · exact (mem_feature_iff hM e (hvs v hv)).mpr (hall v hv)
    · exact Separated.flatMap_splitOn fun v hv => (hvs v hv).1

theorem MvalCorrect.matchesParts (h : MvalCorrect M e) : MatchesParts M e := by
  intro w hw hline u hu
  have hclean : ∀ v ∈ w.splitOn '|', Clean v := fun v hv =>
    ⟨Separated.not_mem_of_mem_splitOn hv, fun hmem => hline (Separated.mem_of_mem_splitOn hv hmem)⟩
  obtain ⟨t, ht, -⟩ := mvalPattern_matches M hdots
  have hmatch := (h _ hclean .opMatches t.text ht).mp
    ((matches_iff hM hdots hclean ht).mpr ⟨[w], by simp, by simpa using hw, List.flatMap_singleton ..⟩)
  exact (mem_feature_iff hM e (hclean u hu)).mpr (hmatch.2 u hu)

end Correct

/-! The meaning of plain characters and of bracket sets without ranges. -/

def plainMeaning : CharMeaning where
  same := Eq
  dot := {w | ∃ c, c ≠ '\n' ∧ w = [c]}
  escape := fun _ => 0
  set := fun negated ts => {w | ∃ c, (negated = true ↔ SetToken.char c ∉ ts) ∧ w = [c]}

theorem plainMeaning_documented : Documented plainMeaning where
  dot := fun _ => Iff.rfl
  bar := fun _ => eq_comm
  notBar := fun w => by
    have hset : w ∈ plainMeaning.set true [.char '|'] ↔ ∃ c, (true = true ↔ SetToken.char c ∉ [.char '|']) ∧ w = [c] := Iff.rfl
    simp [hset]

/-- `b.*c` -/
def dotsBetween : Alternatives :=
  .last (.cons (.char 'b' (by decide)) none (.cons .dot (some starred) (.cons (.char 'c' (by decide)) none .nil)))

def notA : BracketSet where
  negated := true
  bracketFirst := false
  items := [.plain 'a' (by decide)]
  nonempty := fun _ => by simp
  notCaret := fun h => absurd h (by decide)
  noClass := by simp

/-- `b[^a]*c` -/
def setBetween : Alternatives :=
  .last (.cons (.char 'b' (by decide)) none (.cons (.set notA) (some starred) (.cons (.char 'c' (by decide)) none .nil)))

theorem setBetween_not_parts : ¬MatchesParts plainMeaning setBetween := by
  intro h
  have hset : ['|'] ∈ plainMeaning.set true [.char 'a'] := ⟨'|', by decide, rfl⟩
  have hstar : ['|'] ∈ times (plainMeaning.set true [.char 'a']) 0 none := by
    refine ⟨1, Nat.zero_le _, fun m' hm => absurd hm (by simp), ?_⟩
    rw [pow_one]
    exact hset
  have hlast : ['c'] ∈ literal plainMeaning 'c' * 1 := Language.mem_mul.mpr ⟨['c'], ⟨'c', rfl, rfl⟩, [], rfl, rfl⟩
  have hword : ['b', '|', 'c'] ∈ setBetween.lang (featureMeaning plainMeaning) :=
    Language.mem_mul.mpr ⟨['b'], ⟨'b', rfl, rfl⟩, _, Language.mem_mul.mpr ⟨_, hstar, _, hlast, rfl⟩, rfl⟩
  obtain ⟨x, hx, y, hy, heq⟩ := Language.mem_mul.mp (h _ hword (by decide) ['b'] (by decide))
  obtain ⟨_, _, rfl⟩ := hx
  obtain ⟨_, _, z, hz, rfl⟩ := Language.mem_mul.mp hy
  obtain ⟨_, ⟨_, _, rfl⟩, _, _, rfl⟩ := Language.mem_mul.mp hz
  have := congrArg List.length heq
  simp at this

end CWB.RegexTree
