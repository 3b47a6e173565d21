import Mathlib
import CWB.Sanity.Pcre
import CWB.Spec.Regopt

/-! What the readers of the optimiser read, as PCRE reads it: elements, quantifiers, wildcards and
groups. A set that begins with `[^]` is excluded; and what PCRE does not take for a quantifier although
`read_kleene` does may be followed by a character at which every reader stops. -/

namespace CWB.Regopt

open List Pcre

/-- The text `[^]` does not occur. -/
def NoEmptySet (i : List Char) : Prop := ¬['[', '^', ']'] <:+: i

/-- The characters that no reader can begin with and no group or alternative can end with. -/
def Stuck (i : List Char) : Prop := i.head? ∈ [some '?', some '*', some '+', some '{']

variable {M : CharMeaning} {i j k r : List Char} {L L' : Language Char}

/-! ## Characters -/

theorem isHexadecimal_eq (c : Char) : isHexadecimal c = isXDigit c := by
  have hdigit : c.isDigit = ('0' ≤ c && c ≤ '9') := rfl
  rw [isXDigit, hdigit, isHexadecimal]
  cases ('A' ≤ c && c ≤ 'F' : Bool) <;> cases ('a' ≤ c && c ≤ 'f' : Bool) <;> cases ('0' ≤ c && c ≤ '9' : Bool) <;> rfl

variable {c : Char}

theorem not_special_of_safe (h : isSafeChar c = true) : c ∉ special := by
  intro hc
  simp only [special, mem_cons, not_mem_nil, or_false] at hc
  rcases hc with rfl | rfl | rfl | rfl | rfl | rfl | rfl | rfl | rfl | rfl | rfl | rfl <;> revert h <;> decide

theorem not_isAlphanum_of_punct (h : isAsciiPunct c = true) : ¬c.isAlphanum := by
  have hall : ['!', '"', '#', '$', '%', '&', '(', '\'', ')', '*', '+', ',', '-', '.', '/', ':', ';', '<', '=', '>', '?',
      '@', '[', '\\', ']', '^', '_', '`', '{', '|', '}', '~'].all (fun d => !d.isAlphanum) = true := by decide
  simpa using all_eq_true.mp hall c (contains_iff_mem.mp h)

theorem isDigit_of_octal (h : ('0' ≤ c && c ≤ '7') = true) : c.isDigit = true := by
  obtain ⟨hlo, hhi⟩ := Bool.and_eq_true_iff.mp h
  have hle : c ≤ '9' := Char.le_trans (of_decide_eq_true hhi : c ≤ '7') (show '7' ≤ '9' by decide)
  exact Bool.and_eq_true_iff.mpr ⟨hlo, decide_eq_true hle⟩

theorem stuck_or_quantifier (i : List Char) : Stuck i ∨ quantifier i = none := by
  cases i with
  | nil => exact .inr rfl
  | cons c i =>
    by_cases hc : c ∈ ['?', '*', '+', '{']
    · refine .inl ?_
      simp only [mem_cons, not_mem_nil, or_false] at hc
      rcases hc with rfl | rfl | rfl | rfl <;> simp [Stuck]
    · refine .inr ?_
      simp only [mem_cons, not_mem_nil, or_false, not_or] at hc
      unfold quantifier
      split <;> simp_all

/-! ## Escape sequences and sets -/

theorem afterBrace_eq_some : afterBrace i = some j ↔ i = '}' :: j := by
  unfold afterBrace
  split
  · simp
  · next hne =>
    refine ⟨by simp, fun h => ?_⟩
    exact (hne j h).elim

theorem dropWhile_of_imp {p q : Char → Bool} (hpq : ∀ c, q c = true → p c = true) (hp : p '}' = false)
    (h : i.dropWhile q = '}' :: j) : i.dropWhile p = '}' :: j := by
  induction i with
  | nil => simp at h
  | cons c i ih =>
    by_cases hq : q c = true
    · rw [dropWhile_cons_of_pos hq] at h
      rw [dropWhile_cons_of_pos (hpq c hq)]
      exact ih h
    · rw [dropWhile_cons_of_neg hq] at h
      obtain ⟨rfl, rfl⟩ := List.cons.inj h
      rw [dropWhile_cons_of_neg (by simp [hp])]

theorem braced_of_dropWhile {p q : Char → Bool} (hpq : ∀ c, q c = true → p c = true) (hp : p '}' = false)
    (h : afterBrace (i.dropWhile q) = some j) : ∃ seq, braced p i = some (seq, j) := by
  have hdrop := dropWhile_of_imp hpq hp (afterBrace_eq_some.mp h)
  refine ⟨'{' :: (i.takeWhile p ++ ['}']), ?_⟩
  rw [braced, span_eq_takeWhile_dropWhile, hdrop]
  rfl

/-- An escape sequence that is read is one for PCRE. -/
theorem escapeSeq_of_read (h : readEscapeSeq i = some j) : ∃ seq, escapeSeq i = some (seq, j) := by
  unfold readEscapeSeq at h
  split at h
  · next c point =>
    unfold escapeSeq
    simp only
    split_ifs at h ⊢ with hx ho htype hp
    · split at h
      · obtain ⟨code, hcode⟩ := braced_of_dropWhile (p := isXDigit) (fun c hc => by rwa [← isHexadecimal_eq]) (by decide) h
        exact ⟨'\\' :: 'x' :: code, by simp [hcode]⟩
      · next a b point hne =>
        split_ifs at h with hhex
        obtain rfl := Option.some.inj h
        rw [isHexadecimal_eq, isHexadecimal_eq] at hhex
        exact ⟨['\\', 'x', a, b], by simp [hhex]⟩
      · simp at h
    · split at h
      · obtain ⟨code, hcode⟩ := braced_of_dropWhile (p := Char.isDigit) (fun c hc => isDigit_of_octal hc) (by decide) h
        exact ⟨'\\' :: 'o' :: code, by simp [hcode]⟩
      · simp at h
    · obtain rfl := Option.some.inj h
      exact ⟨_, rfl⟩
    · split at h
      · have hname : ∀ c, (isAsciiAlnum c || c = '_' || c = '&') = true → decide (c ≠ '}') = true := by
          intro c hc
          rw [decide_eq_true_iff]
          rintro rfl
          exact absurd hc (by decide)
        obtain ⟨name, hname⟩ := braced_of_dropWhile (p := fun c => decide (c ≠ '}')) hname (by decide) h
        exact ⟨'\\' :: c :: name, by simp only [hname]; rfl⟩
      · next a point hne =>
        split_ifs at h with hupper
        obtain rfl := Option.some.inj h
        obtain ⟨hlo, hhi⟩ := Bool.and_eq_true_iff.mp hupper
        have hletter : a.isUpper = true := decide_eq_true ⟨of_decide_eq_true hlo, of_decide_eq_true hhi⟩
        exact ⟨['\\', c, a], by simp [hletter]⟩
      · simp at h
  · simp at h

theorem NoEmptySet.of_suffix (h : NoEmptySet i) (hj : j <:+ i) : NoEmptySet j := fun hin => h (hin.trans hj.isInfix)

/-- The loop over the elements of a set reads them as PCRE does. -/
theorem setBody_of_skipSet {fuel : ℕ} (h : skipSet fuel i = ']' :: r) : ∃ ts, SetBody i r ts := by
  induction fuel generalizing i with
  | zero =>
    rw [skipSet] at h
    subst h
    exact ⟨[], .close⟩
  | succ fuel ih =>
    cases i with
    | nil => simp [skipSet] at h
    | cons c rest =>
      simp only [skipSet] at h
      split_ifs at h with hsafe
      · obtain ⟨ts, hts⟩ := ih h
        refine ⟨.char c :: ts, .char ?_ hts⟩
        simp only [mem_cons, not_mem_nil, or_false]
        rintro (rfl | rfl | rfl) <;> revert hsafe <;> decide
      · cases hesc : readEscapeSeq (c :: rest) with
        | none =>
          simp only [hesc] at h
          obtain ⟨rfl, rfl⟩ := List.cons.inj h
          exact ⟨[], .close⟩
        | some p2 =>
          simp only [hesc] at h
          obtain ⟨seq, hseq⟩ := escapeSeq_of_read hesc
          obtain ⟨ts, hts⟩ := ih h
          exact ⟨.escape seq :: ts, .escape hseq hts⟩

theorem skipSet_bracket (fuel : ℕ) (i : List Char) : skipSet fuel (']' :: i) = ']' :: i := by
  cases fuel with
  | zero => rfl
  | succ fuel => rfl

/-- A complete set, since the empty negated one does not occur. -/
theorem atom_of_readSet (hne : NoEmptySet ('[' :: i)) (h : readSet i = some j) : ∃ L, Atom M ('[' :: i) j L := by
  unfold readSet at h
  simp only at h
  split at h
  · next after hrest =>
    split_ifs at h with hlt
    obtain rfl := Option.some.inj h
    obtain ⟨ts, hts⟩ := setBody_of_skipSet hrest
    rw [hrest] at hlt
    split at hts
    · next point =>
      refine ⟨_, .negated (fun hhead => ?_) hts⟩
      obtain ⟨rest, rfl⟩ : ∃ rest, point = ']' :: rest := by
        cases point with
        | nil => simp at hhead
        | cons c rest => exact ⟨rest, by simpa using hhead⟩
      exact hne ⟨[], rest, rfl⟩
    · next hcaret =>
      refine ⟨_, .set (fun hhead => ?_) hts⟩
      cases i with
      | nil => simp at hhead
      | cons c rest =>
        simp only [head?_cons, mem_cons, Option.some.injEq, not_mem_nil, or_false] at hhead
        rcases hhead with rfl | rfl
        · exact hcaret rest rfl
        · -- the loop has not read anything
          have hsame : ']' :: rest = ']' :: after := (skipSet_bracket _ rest).symm.trans hrest
          rw [hsame] at hlt
          exact absurd hlt (lt_irrefl _)
  · simp at h

/-- What `read_matchall` reads is an element that matches some character. -/
theorem atom_of_readMatchall (hne : NoEmptySet i) (h : readMatchall i = some j) : ∃ L, Atom M i j L := by
  cases i with
  | nil => simp [readMatchall] at h
  | cons c point =>
    simp only [readMatchall] at h
    split_ifs at h with hdot hsafe hesc hset
    · obtain rfl := Option.some.inj h
      subst hdot
      exact ⟨_, .dot⟩
    · obtain rfl := Option.some.inj h
      exact ⟨_, .char (not_special_of_safe hsafe)⟩
    · obtain ⟨seq, hseq⟩ := escapeSeq_of_read h
      exact ⟨_, .escape hseq⟩
    · subst hset
      exact atom_of_readSet hne h

/-! ## Quantifiers -/

theorem branch_append {i k r : List Char} {L L' : Language Char} :
    Branch M i k L → Branch M k r L' → Branch M i r (L * L')
  | .nil, h' => by rwa [one_mul]
  | .cons h hrest, h' => by
    rw [mul_assoc]
    exact .cons h (branch_append hrest h')

/-- One element. -/
theorem branch_single (h : Atom M i j L) : Branch M i (repeated L j).1 (repeated L j).2 := by
  have hb := Branch.cons h (Branch.nil (M := M))
  rwa [mul_one] at hb

theorem branch_single_none (h : Atom M i j L) (hq : quantifier j = none) : Branch M i j L := by
  have hb := branch_single h
  rwa [repeated, hq] at hb

theorem stuck_or_modifier (i : List Char) : Stuck i ∨ modifier i = i := by
  rcases stuck_or_quantifier i with hstuck | hnone
  · exact .inl hstuck
  · refine .inr ?_
    unfold modifier
    split
    · simp [quantifier] at hnone
    · simp [quantifier] at hnone
    · rfl

theorem decimal_pos {ds : List Char} (hlo : '1' ≤ c) : 1 ≤ decimal (c :: ds) := by
  have hge : ∀ (ds : List Char) (n : ℕ), n ≤ ds.foldl (fun n d => 10 * n + (d.toNat - '0'.toNat)) n := by
    intro ds
    induction ds with
    | nil => exact fun n => le_rfl
    | cons d ds ih => exact fun n => (show n ≤ 10 * n + (d.toNat - '0'.toNat) by omega).trans (ih _)
  have hc : '1'.toNat ≤ c.toNat := hlo
  have hfirst : 1 ≤ 10 * 0 + (c.toNat - '0'.toNat) := by
    have h1 : '1'.toNat = 49 := rfl
    have h0 : '0'.toNat = 48 := rfl
    omega
  exact hfirst.trans (hge ds _)

/-- A quantifier of PCRE is read as one, and `one_or_more` then is right. -/
theorem readKleene_of_quantifier {n : ℕ} {m : Option ℕ} (h : quantifier i = some (n, m, r)) :
    ∃ plus, readKleene i = some (modifier r, plus) ∧ (plus = true → 1 ≤ n) := by
  have hcopy := h
  unfold quantifier at h
  split at h
  · simp only [Option.some.injEq, Prod.mk.injEq] at h
    obtain ⟨rfl, -, rfl⟩ := h
    exact ⟨false, rfl, by simp⟩
  · simp only [Option.some.injEq, Prod.mk.injEq] at h
    obtain ⟨rfl, -, rfl⟩ := h
    exact ⟨false, rfl, by simp⟩
  · simp only [Option.some.injEq, Prod.mk.injEq] at h
    obtain ⟨rfl, -, rfl⟩ := h
    exact ⟨true, rfl, fun _ => le_rfl⟩
  · next point =>
    obtain ⟨hdrop, rfl⟩ := quantifier_brace hcopy
    refine ⟨point.head?.any fun c => '1' ≤ c && c ≤ '9', ?_, fun hplus => ?_⟩
    · have hbrace : afterBrace (point.dropWhile fun c => '0' ≤ c && c ≤ '9' || c = ',') = some r := afterBrace_eq_some.mpr hdrop
      unfold readKleene
      simp only [hbrace]
      rfl
    · cases point with
      | nil => simp at hplus
      | cons c point =>
        rw [head?_cons, Option.any_some] at hplus
        obtain ⟨hlo, hhi⟩ := Bool.and_eq_true_iff.mp hplus
        have hdigit : c.isDigit = true := Bool.and_eq_true_iff.mpr
          ⟨decide_eq_true (Char.le_trans (show '0' ≤ '1' by decide) (of_decide_eq_true hlo)), hhi⟩
        rw [takeWhile_cons_of_pos hdigit]
        exact decimal_pos (of_decide_eq_true hlo)
  · simp at h

/-- What is read as a quantifier and is none: braces with digits and commas. -/
theorem brace_of_readKleene {plus : Bool} (hq : quantifier i = none) (h : readKleene i = some (k, plus)) :
    ∃ ds r, i = '{' :: (ds ++ '}' :: r) ∧ (∀ d ∈ ds, numberOrComma d = true) ∧ k = modifier r := by
  unfold readKleene at h
  split at h
  · simp [quantifier] at hq
  · simp [quantifier] at hq
  · simp [quantifier] at hq
  · next point =>
    split at h
    · next rest hbrace =>
      simp only [Option.some.injEq, Prod.mk.injEq] at h
      obtain ⟨rfl, -⟩ := h
      have hdrop : point.dropWhile numberOrComma = '}' :: rest := afterBrace_eq_some.mp hbrace
      refine ⟨point.takeWhile numberOrComma, rest, ?_, fun d hd => all_eq_true.mp all_takeWhile d hd, rfl⟩
      rw [← hdrop, takeWhile_append_dropWhile]
    · simp at h
  · simp at h

theorem not_special_of_numberOrComma (h : numberOrComma c = true) : c ∉ special := by
  intro hc
  simp only [special, mem_cons, not_mem_nil, or_false] at hc
  rcases hc with rfl | rfl | rfl | rfl | rfl | rfl | rfl | rfl | rfl | rfl | rfl | rfl <;> revert h <;> decide

theorem not_stuck_of_not_special (hc : c ∉ special) (i : List Char) : ¬Stuck (c :: i) := by
  intro hstuck
  simp only [Stuck, head?_cons, mem_cons, Option.some.injEq, not_mem_nil, or_false] at hstuck
  rcases hstuck with rfl | rfl | rfl | rfl <;> exact hc (by decide)

theorem quantifier_of_not_stuck (h : ¬Stuck i) : quantifier i = none := (stuck_or_quantifier i).resolve_left h

theorem not_stuck_of_digits {ds : List Char} (hds : ∀ d ∈ ds, numberOrComma d = true) (r : List Char) :
    ¬Stuck (ds ++ '}' :: r) := by
  cases ds with
  | nil => exact not_stuck_of_not_special (by decide) r
  | cons d ds => exact not_stuck_of_not_special (not_special_of_numberOrComma (hds d (by simp))) _

/-- Digits, commas and a closing brace are literal characters; the brace may have a quantifier. -/
theorem branch_of_digits {ds : List Char} (hds : ∀ d ∈ ds, numberOrComma d = true) (r : List Char) :
    Stuck (modifier r) ∨ ∃ L, Branch M (ds ++ '}' :: r) (modifier r) L := by
  induction ds with
  | nil =>
    have hatom : Atom M ('}' :: r) r (literal M '}') := .char (by decide)
    have hquantified : ∀ {t : List Char} {n : ℕ} {m : Option ℕ}, quantifier r = some (n, m, t) →
        Stuck t ∨ ∃ L, Branch M ('}' :: r) t L := by
      intro t n m hq
      refine (stuck_or_modifier t).imp_right fun hmod => ?_
      have hb := branch_single hatom
      rw [repeated, hq] at hb
      simp only [hmod] at hb
      exact ⟨_, hb⟩
    have hcases : (∃ t, r = '?' :: t ∧ modifier r = t) ∨ (∃ t, r = '+' :: t ∧ modifier r = t) ∨ modifier r = r := by
      unfold modifier
      split
      · exact .inl ⟨_, rfl, rfl⟩
      · exact .inr (.inl ⟨_, rfl, rfl⟩)
      · exact .inr (.inr rfl)
    rcases hcases with ⟨t, rfl, hmod⟩ | ⟨t, rfl, hmod⟩ | hmod
    · rw [hmod]
      exact hquantified rfl
    · rw [hmod]
      exact hquantified rfl
    · rw [hmod]
      exact (stuck_or_quantifier r).imp_right fun hq => ⟨_, branch_single_none hatom hq⟩
  | cons d ds ih =>
    have hd : numberOrComma d = true := hds d (by simp)
    have hds' : ∀ d' ∈ ds, numberOrComma d' = true := fun d' hd' => hds d' (by simp [hd'])
    refine (ih hds').imp_right fun ⟨L, hL⟩ => ?_
    have hnext := not_stuck_of_digits hds' r
    have hfirst : Branch M (d :: (ds ++ '}' :: r)) (ds ++ '}' :: r) (literal M d) :=
      branch_single_none (.char (not_special_of_numberOrComma hd)) (quantifier_of_not_stuck hnext)
    exact ⟨_, branch_append hfirst hL⟩

theorem times_le {n : ℕ} {m : Option ℕ} (hn : 1 ≤ n) : times L n m ≤ L * ⊤ := by
  rintro s ⟨k, hk, -, hs⟩
  obtain ⟨k, rfl⟩ : ∃ k', k = k' + 1 := ⟨k - 1, by omega⟩
  rw [pow_succ'] at hs
  have hle : L * L ^ k ≤ L * ⊤ := mul_le_mul' le_rfl le_top
  exact hle hs

/-- An element and what follows it, if that is read as a quantifier. -/
theorem branch_of_readKleene {plus : Bool} (h : Atom M i j L) (hk : readKleene j = some (k, plus)) :
    Stuck k ∨ ∃ L', Branch M i k L' ∧ (plus = true → L' ≤ L * ⊤) := by
  cases hq : quantifier j with
  | none =>
    obtain ⟨ds, r, rfl, hds, rfl⟩ := brace_of_readKleene hq hk
    refine (branch_of_digits (M := M) hds r).imp_right fun ⟨L', hL'⟩ => ?_
    have hnext := not_stuck_of_digits hds r
    have hbrace := branch_single_none (Atom.brace (M := M) hq) (quantifier_of_not_stuck hnext)
    refine ⟨_, branch_append (branch_single_none h hq) (branch_append hbrace hL'), fun _ => ?_⟩
    exact mul_le_mul' le_rfl le_top
  | some q =>
    obtain ⟨n, m, r⟩ := q
    obtain ⟨plus', hread, hn⟩ := readKleene_of_quantifier hq
    obtain ⟨rfl, rfl⟩ := Prod.mk.inj (Option.some.inj (hread.symm.trans hk))
    refine .inr ⟨times L n m, ?_, fun hplus => times_le (hn hplus)⟩
    have hb := branch_single h
    rwa [repeated, hq] at hb

theorem quantifier_of_readKleene (h : readKleene i = none) : quantifier i = none := by
  cases hq : quantifier i with
  | none => rfl
  | some q =>
    obtain ⟨plus, hread, -⟩ := readKleene_of_quantifier (show quantifier i = some (q.1, q.2.1, q.2.2) from hq)
    simp [hread] at h

/-! ## Wildcards and groups -/

theorem Stuck.exists_cons (h : Stuck i) : ∃ c r, i = c :: r ∧ c ∈ ['?', '*', '+', '{'] := by
  cases i with
  | nil => simp [Stuck] at h
  | cons c r => exact ⟨c, r, rfl, by simpa [Stuck] using h⟩

/-- Nothing is read at a character that only a quantifier could have consumed. -/
theorem Stuck.readMatchall (h : Stuck i) : Regopt.readMatchall i = none := by
  obtain ⟨c, r, rfl, hc⟩ := h.exists_cons
  simp only [mem_cons, not_mem_nil, or_false] at hc
  rcases hc with rfl | rfl | rfl | rfl <;> rfl

theorem Stuck.openGroup (h : Stuck i) : Regopt.openGroup i = none := by
  obtain ⟨c, r, rfl, hc⟩ := h.exists_cons
  simp only [mem_cons, not_mem_nil, or_false] at hc
  rcases hc with rfl | rfl | rfl | rfl <;> rfl

theorem readWildcard_cases {fuel : ℕ} (h : readWildcard fuel i = some k) :
    (∃ j, readMatchall i = some j ∧ k = afterKleene j) ∨
    ∃ fuel' r j, fuel = fuel' + 1 ∧ openGroup i = some r ∧ readGroup fuel' r = ')' :: j ∧ k = afterKleene j := by
  rw [readWildcard.eq_def] at h
  simp only at h
  split at h
  · next j hj => exact .inl ⟨j, hj, (Option.some.inj h).symm⟩
  · split at h
    · next fuel' r hr =>
      split at h
      · next j hj => exact .inr ⟨fuel', r, j, rfl, hr, hj, (Option.some.inj h).symm⟩
      · simp at h
    · simp at h

theorem Stuck.readWildcard (h : Stuck i) (fuel : ℕ) : Regopt.readWildcard fuel i = none := by
  cases hread : Regopt.readWildcard fuel i with
  | none => rfl
  | some k =>
    rcases readWildcard_cases hread with ⟨j, hj, -⟩ | ⟨fuel', r, j, -, hr, -⟩
    · simp [h.readMatchall] at hj
    · simp [h.openGroup] at hr

/-- What ends the loop over the body of a group. -/
theorem readGroup_cases (fuel : ℕ) (i : List Char) :
    readGroup fuel i = i ∨
    ∃ fuel' j, readGroup fuel i = readGroup fuel' j ∧ fuel = fuel' + 1 ∧ (readWildcard fuel' i = some j ∨ i = '|' :: j) := by
  cases fuel with
  | zero => exact .inl (by rw [readGroup])
  | succ fuel =>
    rw [readGroup.eq_def]
    simp only
    split
    · next j hj => exact .inr ⟨fuel, j, rfl, rfl, .inl hj⟩
    · split
      · next j _ => exact .inr ⟨fuel, j, rfl, rfl, .inr rfl⟩
      · exact .inl rfl

theorem Stuck.head_ne (h : Stuck i) : i.head? ≠ some '|' ∧ i.head? ≠ some ')' ∧ i ≠ [] := by
  obtain ⟨c, r, rfl, hc⟩ := h.exists_cons
  simp only [mem_cons, not_mem_nil, or_false] at hc
  rcases hc with rfl | rfl | rfl | rfl <;> simp

theorem Stuck.readGroup (h : Stuck i) (fuel : ℕ) : Regopt.readGroup fuel i = i := by
  rcases readGroup_cases fuel i with hsame | ⟨fuel', j, -, -, hread | rfl⟩
  · exact hsame
  · simp [h.readWildcard] at hread
  · simp [Stuck] at h

/-- An alternation may begin with more elements. -/
theorem alternation_prepend (hb : Branch M i j L) (h : Alternation M j r L') : ∃ L', Alternation M i r L' := by
  cases h with
  | last h => exact ⟨_, .last (branch_append hb h)⟩
  | bar h hrest => exact ⟨_, .bar (branch_append hb h) hrest⟩

theorem openGroup_suffix (h : openGroup i = some j) : j <:+ i := by
  unfold openGroup at h
  split at h
  · obtain rfl := Option.some.inj h
    exact (suffix_cons _ _).trans ((suffix_cons _ _).trans (suffix_cons _ _))
  · simp at h
  · obtain rfl := Option.some.inj h
    exact suffix_cons _ _
  · simp at h

theorem atom_of_openGroup (hopen : openGroup i = some j) (h : Alternation M j (')' :: r) L) : Atom M i r L := by
  unfold openGroup at hopen
  split at hopen
  · obtain rfl := Option.some.inj hopen
    exact .nonCapturing h
  · simp at hopen
  · next point hne hne' =>
    obtain rfl := Option.some.inj hopen
    refine .group (fun hhead => ?_) h
    cases point with
    | nil => simp at hhead
    | cons c rest =>
      obtain rfl : c = '?' := by simpa using hhead
      exact hne' rest rfl
  · simp at hopen

/-- An element and what is skipped as its quantifier. -/
theorem branch_of_afterKleene (h : Atom M i j L) : Stuck (afterKleene j) ∨ ∃ L', Branch M i (afterKleene j) L' := by
  unfold afterKleene
  split
  · next k plus hk => exact (branch_of_readKleene h hk).imp_right fun ⟨L', hL', _⟩ => ⟨L', hL'⟩
  · next hk => exact .inr ⟨L, branch_single_none h (quantifier_of_readKleene hk)⟩

/-- A wildcard and the body of a group are read as PCRE does, by induction on the fuel of both. -/
theorem read_wildcard_and_group (M : CharMeaning) (fuel : ℕ) :
    (∀ {i k : List Char}, NoEmptySet i → readWildcard fuel i = some k → Stuck k ∨ ∃ L, Branch M i k L) ∧
    (∀ {i : List Char}, NoEmptySet i → Stuck (readGroup fuel i) ∨ ∃ L, Alternation M i (readGroup fuel i) L) := by
  induction fuel with
  | zero =>
    refine ⟨fun hne h => ?_, fun {i} hne => ?_⟩
    · rcases readWildcard_cases h with ⟨j, hj, rfl⟩ | ⟨_, _, _, hfuel, _⟩
      · obtain ⟨L, hL⟩ := atom_of_readMatchall (M := M) hne hj
        exact branch_of_afterKleene hL
      · omega
    · rw [readGroup]
      exact .inr ⟨1, .last .nil⟩
  | succ fuel ih =>
    obtain ⟨hwild, hgroup⟩ := ih
    refine ⟨fun {i k} hne h => ?_, fun {i} hne => ?_⟩
    · rcases readWildcard_cases h with ⟨j, hj, rfl⟩ | ⟨fuel', r, j, hfuel, hr, hj, rfl⟩
      · obtain ⟨L, hL⟩ := atom_of_readMatchall (M := M) hne hj
        exact branch_of_afterKleene hL
      · obtain rfl : fuel = fuel' := by omega
        have hner : NoEmptySet r := hne.of_suffix (openGroup_suffix hr)
        rcases hgroup hner with hstuck | ⟨L, hL⟩
        · rw [hj] at hstuck
          exact absurd rfl hstuck.head_ne.2.1
        · rw [hj] at hL
          exact branch_of_afterKleene (atom_of_openGroup hr hL)
    · rcases readGroup_cases (fuel + 1) i with hsame | ⟨fuel', j, heq, hfuel, hread⟩
      · rw [hsame]
        exact .inr ⟨1, .last .nil⟩
      · obtain rfl : fuel = fuel' := by omega
        rw [heq]
        rcases hread with hread | rfl
        · rcases hwild hne hread with hstuck | ⟨L, hL⟩
          · rw [hstuck.readGroup]
            exact .inl hstuck
          · refine (hgroup (hne.of_suffix hL.suffix)).imp_right fun ⟨L', hL'⟩ => ?_
            exact alternation_prepend hL hL'
        · refine (hgroup (hne.of_suffix (suffix_cons _ _))).imp_right fun ⟨L', hL'⟩ => ?_
          exact ⟨_, .bar .nil hL'⟩

theorem branch_of_readWildcard {fuel : ℕ} (hne : NoEmptySet i) (h : readWildcard fuel i = some k) :
    Stuck k ∨ ∃ L, Branch M i k L := (read_wildcard_and_group M fuel).1 hne h

end CWB.Regopt
