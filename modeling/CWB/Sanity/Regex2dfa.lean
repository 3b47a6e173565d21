import Mathlib.Data.List.GetD
import Mathlib.Tactic.Ring
import CWB.Library.Loops
import CWB.Spec.Searchstr

/-! One lemma for each part of the automaton generator's front end: what a class of the
expression table denotes, what `MakeExp` returns, what the scanner does with a blank, a
one-character symbol and a quoted name. -/

namespace CWB.Regex2dfa

open List

/-! ### The expression table -/

/-- the arguments of `e` are classes below `n` -/
def Exp.Below (n : ℕ) : Exp → Prop
  | .and p q => p < n ∧ q < n
  | .or p q => p < n ∧ q < n
  | .star p => p < n
  | .plus p => p < n
  | .opt p => p < n
  | _ => True

/-- The hash chains lead to the entries of the class table. -/
def Tables.Sound (t : Tables) : Prop :=
  ∀ e q, t.expHash.lookup e = some q → t.equTab[q]? = some e ∧ e.Below q

theorem expressions_append (es : List Exp) (e : Exp) :
    expressions (es ++ [e]) = expressions es ++ [e.regex (expressions es)] := by
  simp [expressions, foldl_append]

@[simp] theorem length_expressions (es : List Exp) : (expressions es).length = es.length := by
  induction es using reverseRecOn with
  | nil => rfl
  | append_singleton es e ih => simp [expressions_append, ih]

theorem expressions_mono {es es' : List Exp} (h : es <+: es') :
    expressions es <+: expressions es' := by
  obtain ⟨s, rfl⟩ := h
  induction s using reverseRecOn with
  | nil => rw [append_nil]
  | append_singleton s e ih =>
    rw [← append_assoc, expressions_append]
    exact ih.trans (prefix_append _ _)

variable {q : ℕ}

theorem getD_extend {α : Type*} {xs ys : List α} (h : xs <+: ys)
    (hq : q < xs.length) (d : α) : ys.getD q d = xs.getD q d := by
  obtain ⟨zs, rfl⟩ := h
  rw [getD_append _ _ _ _ hq]

theorem regex_extend {rs rs' : List (RegularExpression Name)} (h : rs <+: rs') {e : Exp}
    (he : e.Below rs.length) : e.regex rs' = e.regex rs := by
  cases e with
  | sym a => rfl
  | zero => rfl
  | one => rfl
  | and p q => simp only [Exp.regex, getD_extend h he.1, getD_extend h he.2]
  | or p q => simp only [Exp.regex, getD_extend h he.1, getD_extend h he.2]
  | star p => simp only [Exp.regex, getD_extend h he]
  | plus p => simp only [Exp.regex, getD_extend h he]
  | opt p => simp only [Exp.regex, getD_extend h he]

theorem language_extend {t t' : Tables} (h : t.equTab <+: t'.equTab)
    (hq : q < t.equTab.length) : t'.language q = t.language q := by
  unfold Tables.language
  rw [getD_extend (expressions_mono h) (by simpa using hq)]

theorem expressions_getD {es : List Exp} {e : Exp} (h : es[q]? = some e)
    (he : e.Below q) : (expressions es).getD q 0 = e.regex (expressions es) := by
  have hq : q < es.length := (List.getElem?_eq_some_iff.mp h).1
  have htake : (es.take q).length = q := by rw [length_take]; omega
  have hpre : es.take q ++ [e] <+: es := by
    rw [← (List.getElem?_eq_some_iff.mp h).2, take_concat_get' es q hq]
    exact List.take_prefix _ _
  have hlen : (expressions (es.take q)).length = q := by rw [length_expressions, htake]
  rw [getD_extend (expressions_mono hpre) (by simp [htake]), expressions_append,
    getD_append_right _ _ _ _ (by omega), hlen, Nat.sub_self,
    regex_extend (expressions_mono (List.take_prefix q es)) (by rw [hlen]; exact he)]
  rfl

theorem makeExp_spec {t : Tables} (ht : t.Sound) {e : Exp} (he : e.Below t.equTab.length) :
    (makeExp t e).2.Sound ∧ t.equTab <+: (makeExp t e).2.equTab ∧
      (makeExp t e).1 < (makeExp t e).2.equTab.length ∧
      (makeExp t e).2.language (makeExp t e).1 = (e.regex (expressions t.equTab)).matches' := by
  cases hlook : t.expHash.lookup e with
  | some q =>
    have hm : makeExp t e = (q, t) := by simp only [makeExp, hlook]
    obtain ⟨hq, hbelow⟩ := ht e q hlook
    rw [hm]
    refine ⟨ht, prefix_rfl, (List.getElem?_eq_some_iff.mp hq).1, ?_⟩
    unfold Tables.language
    rw [expressions_getD hq hbelow]
  | none =>
    have hm : makeExp t e = (t.equTab.length,
        ⟨(e, t.equTab.length) :: t.expHash, t.equTab ++ [e]⟩) := by simp only [makeExp, hlook]
    rw [hm]
    refine ⟨?_, prefix_append _ _, by simp, ?_⟩
    · intro e' q hq
      rw [lookup_cons] at hq
      by_cases hee : e' = e
      · rw [beq_iff_eq.mpr hee] at hq
        obtain rfl := Option.some.inj hq
        exact ⟨by simp [hee], hee ▸ he⟩
      · rw [beq_eq_false_iff_ne.mpr hee] at hq
        obtain ⟨h1, h2⟩ := ht e' q hq
        exact ⟨by rw [getElem?_append_left (List.getElem?_eq_some_iff.mp h1).1, h1], h2⟩
    · unfold Tables.language
      rw [expressions_append, getD_append_right _ _ _ _ (by simp)]
      simp

/-! ### The scanner -/

/-- The scanner finds the symbol `l` in front of `rest`. -/
def Lexes (s : List Char) (l : Lexical) (rest : List Char) : Prop :=
  ∀ (p : Parser) (k : Lexical → Parser → ParseConfig), p.input = s →
    p.lex k = k l { p with input := rest }

theorem lexes_nil : Lexes [] .endT [] := by
  intro p k h
  simp [Parser.lex, h]

variable {l : Lexical}

theorem lexes_single {c : Char} (h : single c = some l) (hc : isspace c = false)
    (rest : List Char) : Lexes (c :: rest) l rest := by
  intro p k hp
  simp [Parser.lex, hp, hc, h]

variable {p : Parser}

theorem lex_space {cs : List Char} (h : p.input = ' ' :: cs)
    (k : Lexical → Parser → ParseConfig) : p.lex k = ({ p with input := cs } : Parser).lex k := by
  have hs : isspace ' ' = true := by decide
  simp only [Parser.lex, h, dropWhile_cons, hs, if_true, Parser.endName, Parser.error]

theorem Lexes.space {s : List Char} {rest : List Char} (h : Lexes s l rest) :
    Lexes (' ' :: s) l rest := by
  intro p k hp
  rw [lex_space hp, h _ _ rfl]

/-- Scanning neither reads nor changes the tables, the stack and the name on the left. -/
theorem lex_frame (p : Parser) (t : Tables) (σ : List StackCard) (w : Name)
    (k : Lexical → Parser → ParseConfig) :
    ({ p with tables := t, stack := σ, id := w } : Parser).lex k =
      p.lex fun l p => k l { p with tables := t, stack := σ, id := w } := by
  simp only [Parser.lex, Parser.endName, Parser.error]

theorem lex_stack (p : Parser) (σ : List StackCard) (k : Lexical → Parser → ParseConfig) :
    ({ p with stack := σ } : Parser).lex k = p.lex fun l p => k l { p with stack := σ } := by
  simp only [Parser.lex, Parser.endName, Parser.error]

/-- The symbol behind `]` may be read before or after the option is made. -/
theorem lex_makeOpt (p : Parser) (q : ℕ) :
    (p.lex fun l p => p.makeOpt l q) =
      p.pop.make (.opt q) fun q p => p.lex fun l p => .atEnd l q p := by
  simp only [Parser.lex, Parser.endName, Parser.error, Parser.makeOpt, Parser.make, Parser.pop]
  rfl

theorem copyName_append (stop : Char → Bool) {w : Name} (hw : ∀ c ∈ w, stop c = false)
    {c : Char} (hc : stop c = true) (rest : List Char) {n : ℕ} (hn : n ≤ maxChar) :
    copyName stop (w ++ c :: rest) n =
      if n + w.length ≤ maxChar then some (w, c :: rest, n + w.length) else none := by
  induction w generalizing n with
  | nil => simp [copyName, hc, hn]
  | cons d w ih =>
    have hd : stop d = false := hw d mem_cons_self
    simp only [cons_append, copyName, hd, Bool.false_eq_true, if_false, length_cons]
    by_cases hfull : n = maxChar
    · rw [if_pos hfull, if_neg (by omega)]
    · rw [if_neg hfull, ih (fun c h => hw c (mem_cons_of_mem d h)) (by omega)]
      by_cases hfit : n + 1 + w.length ≤ maxChar
      · rw [if_pos hfit, if_pos (by omega), Option.map_some, Nat.add_right_comm n 1, Nat.add_assoc]
      · rw [if_neg hfit, if_neg (by omega), Option.map_none]

theorem copyName_subset {stop : Char → Bool} {cs : List Char} {n : ℕ} {w : Name}
    {rest : List Char} {n' : ℕ} (h : copyName stop cs n = some (w, rest, n')) : rest ⊆ cs := by
  induction cs generalizing n w n' with
  | nil =>
    simp only [copyName, Option.some.injEq, Prod.mk.injEq] at h
    rw [← h.2.1]
    exact List.Subset.refl _
  | cons c cs ih =>
    rw [copyName] at h
    split_ifs at h with hstop hfull
    · simp only [Option.some.injEq, Prod.mk.injEq] at h
      rw [← h.2.1]
      exact List.Subset.refl _
    · obtain ⟨⟨w₁, rest₁, n₁⟩, hcopy, hres⟩ := Option.map_eq_some_iff.mp h
      simp only [Prod.mk.injEq] at hres
      obtain ⟨-, rfl, -⟩ := hres
      exact subset_cons_of_subset c (ih hcopy)

theorem single_equalT {c : Char} (h : single c = some .equalT) : c = '=' := by
  unfold single at h
  split at h <;> simp_all

/-- The scanner stops the program or finds a symbol other than `=`, with no `=` behind it. -/
def NoEqual (p : Parser) (scan : (Lexical → Parser → ParseConfig) → ParseConfig) : Prop :=
  (∃ m, ∀ k, scan k = .exited m) ∨
    ∃ l p', l ≠ .equalT ∧ '=' ∉ p'.input ∧ p'.tables = p.tables ∧ ∀ k, scan k = k l p'

theorem noEqual_exited (p : Parser) (m : String) : NoEqual p fun _ => .exited m :=
  .inl ⟨m, fun _ => rfl⟩

theorem noEqual_endName (p : Parser) (w : Name) {rest : List Char} (h : '=' ∉ rest) (n : ℕ) :
    NoEqual p fun k => p.endName w rest n k := by
  by_cases hn : n = maxChar
  · simp only [Parser.endName, if_pos hn]
    exact noEqual_exited p _
  · simp only [Parser.endName, if_neg hn]
    exact .inr ⟨.idenT, { p with input := rest, chars := n + 1, lastW := w }, by decide, h, rfl,
      fun k => rfl⟩

theorem noEqual_error (p : Parser) {rest : List Char} (h : '=' ∉ rest) (m : String) :
    NoEqual p fun k => ({ p with input := rest } : Parser).error m (k .endT) := by
  by_cases hmax : p.errors.length + 1 = maxErrors
  · simp only [Parser.error, if_pos hmax]
    exact noEqual_exited p _
  · simp only [Parser.error, if_neg hmax]
    exact .inr ⟨.endT, { p with input := rest, errors := m :: p.errors }, by decide, h, rfl,
      fun k => rfl⟩

theorem noEqual_lex (h : '=' ∉ p.input) : NoEqual p p.lex := by
  have hsub : ∀ c ∈ p.input.dropWhile isspace, c ∈ p.input := fun c hc =>
    (dropWhile_sublist _).subset hc
  change NoEqual p fun k => p.lex k
  simp only [Parser.lex]
  cases hd : p.input.dropWhile isspace with
  | nil => exact .inr ⟨.endT, { p with input := [] }, by decide, not_mem_nil, rfl, fun k => rfl⟩
  | cons c cs =>
    rw [hd] at hsub
    have hcs : ∀ rest : List Char, rest ⊆ c :: cs → '=' ∉ rest := fun rest hr hm =>
      h (hsub _ (hr hm))
    have htail : '=' ∉ cs := hcs cs (subset_cons_self c cs)
    cases hs : single c with
    | some l =>
      simp only [hs]
      refine .inr ⟨l, { p with input := cs }, ?_, htail, rfl, fun k => rfl⟩
      rintro rfl
      exact hcs _ (List.Subset.refl _) (single_equalT hs ▸ mem_cons_self)
    | none =>
      by_cases halpha : (c.isAlpha || c = '_' || c = '$') = true
      · simp only [hs, halpha, if_true]
        cases hcopy : copyName (fun c => !isWord c) (c :: cs) p.chars with
        | none => exact noEqual_exited p _
        | some r => exact noEqual_endName p _ (hcs _ (copyName_subset hcopy)) _
      · simp only [hs, halpha, Bool.false_eq_true, if_false]
        by_cases hquote : c = '"'
        · simp only [hquote, if_true]
          cases hcopy : copyName (fun c => c = '"') cs p.chars with
          | none => exact noEqual_exited p _
          | some r =>
            obtain ⟨w, rest, n⟩ := r
            cases rest with
            | nil => exact noEqual_exited p _
            | cons d rest =>
              have hrest := copyName_subset hcopy
              exact noEqual_endName p _ (fun hm => htail (hrest (mem_cons_of_mem d hm))) _
        · simp only [hquote, if_false]
          exact noEqual_error p htail _

/-- A quoted name takes its bytes and one more from the name buffer. -/
theorem lex_quoted {w : Name} {rest : List Char}
    (hp : p.input = '"' :: (w ++ '"' :: rest)) (hw : ∀ c ∈ w, c ≠ '"') (hn : p.chars ≤ maxChar)
    (k : Lexical → Parser → ParseConfig) :
    p.lex k = if p.chars + (w.length + 1) ≤ maxChar then
        k .idenT { p with input := rest, chars := p.chars + (w.length + 1), lastW := w }
      else .exited "Out of character space." := by
  have hs : isspace '"' = false := by decide
  have hsingle : single '"' = none := by decide
  have halpha : ('"'.isAlpha || '"' = '_' || '"' = '$') = false := by decide
  have hcopy := copyName_append (fun c => c = '"') (w := w)
    (by simpa using hw) (c := '"') (by simp) rest hn
  simp only [Parser.lex, hp, dropWhile_cons, hs, Bool.false_eq_true, if_false, hsingle,
    halpha, if_true, hcopy]
  by_cases hfit : p.chars + w.length ≤ maxChar
  · rw [if_pos hfit]
    by_cases hend : p.chars + w.length = maxChar
    · simp only [Parser.endName, if_pos hend, if_neg (show ¬p.chars + (w.length + 1) ≤ maxChar by omega)]
    · simp only [Parser.endName, if_neg hend, if_pos (show p.chars + (w.length + 1) ≤ maxChar by omega),
        Nat.add_assoc]
  · rw [if_neg hfit, if_neg (by omega)]

/-! Strings the precedence parser reads as a unit. A `Fragment` is read to its end in
every context, leaving its atoms on the stack as pending concatenations whose product is
the language of the fragment. The rules for fragments follow the ways `evaltree2searchstr`
puts strings together, and each one adds up what its parts ask of the parser stack and of
the name buffer. -/

open LimitedRun
open scoped Computability

/-! ### Configurations of the parser -/

def ParseConfig.Exited : ParseConfig → Prop
  | .exited _ => True
  | _ => False

structure Parser.Valid (p : Parser) : Prop where
  sound : p.tables.Sound
  chars : p.chars ≤ maxChar
  stack : p.stack.length ≤ stackMax
  base : p.stack ≠ []

/-- From `p` to `p'` the parser has read `b` bytes of names and added `cards`. -/
structure Reads (p p' : Parser) (b : ℕ) (cards : List StackCard) : Prop where
  valid : p'.Valid
  chars : p'.chars = p.chars + b
  stack : p'.stack = cards ++ p.stack
  errors : p'.errors = p.errors
  tables : p.tables.equTab <+: p'.tables.equTab

theorem Reads.trans {p' p'' : Parser} {b b' : ℕ} {cs cs' : List StackCard}
    (h : Reads p p' b cs) (h' : Reads p' p'' b' cs') : Reads p p'' (b + b') (cs' ++ cs) where
  valid := h'.valid
  chars := by rw [h'.chars, h.chars, Nat.add_assoc]
  stack := by rw [h'.stack, h.stack, append_assoc]
  errors := h'.errors.trans h.errors
  tables := h.tables.trans h'.tables

/-- the classes `qs` one after the other denote `L` -/
def Product (p : Parser) (qs : List ℕ) (L : Language Name) : Prop :=
  (∀ q ∈ qs, q < p.tables.equTab.length) ∧ (qs.map p.tables.language).prod = L

theorem Product.mono {p' : Parser} {qs : List ℕ} {L : Language Name} (h : Product p qs L)
    (hp : p.tables.equTab <+: p'.tables.equTab) : Product p' qs L := by
  refine ⟨fun q hq => lt_of_lt_of_le (h.1 q hq) hp.length_le, ?_⟩
  rw [← h.2]
  congr 1
  exact map_congr_left fun q hq => language_extend hp (h.1 q hq)

theorem Product.append {qs qs' : List ℕ} {L L' : Language Name}
    (h : Product p qs L) (h' : Product p qs' L') : Product p (qs ++ qs') (L * L') := by
  refine ⟨fun q hq => ?_, ?_⟩
  · rcases mem_append.mp hq with hq | hq
    · exact h.1 q hq
    · exact h'.1 q hq
  · rw [map_append, prod_append, h.2, h'.2]

theorem product_singleton {L : Language Name} :
    Product p [q] L ↔ q < p.tables.equTab.length ∧ p.tables.language q = L := by
  simp [Product]

/-- pending concatenations, the last one on top -/
def pending (qs : List ℕ) : List StackCard := (qs.map (StackCard.mk .and)).reverse

theorem pending_append (qs qs' : List ℕ) : pending (qs ++ qs') = pending qs' ++ pending qs := by
  simp [pending]

/-- what the expression `e` denotes over the classes of `t` -/
def Exp.language (t : Tables) : Exp → Language Name
  | .sym a => {[a]}
  | .zero => 0
  | .one => 1
  | .and p q => t.language p * t.language q
  | .or p q => t.language p + t.language q
  | .star p => (t.language p)∗
  | .plus p => t.language p * (t.language p)∗
  | .opt p => 1 + t.language p

theorem matches_regex (t : Tables) (e : Exp) :
    (e.regex (expressions t.equTab)).matches' = e.language t := by
  cases e <;> rfl

theorem make_spec (hp : p.Valid) {e : Exp} (he : e.Below p.tables.equTab.length) :
    ∃ q t, (∀ k, p.make e k = k q { p with tables := t }) ∧
      Reads p { p with tables := t } 0 [] ∧
      Product { p with tables := t } [q] (e.language p.tables) := by
  obtain ⟨hsound, hpre, hlt, hlang⟩ := makeExp_spec hp.sound he
  exact ⟨_, _, fun k => rfl, ⟨⟨hsound, hp.chars, hp.stack, hp.base⟩, rfl, rfl, rfl, hpre⟩,
    product_singleton.mpr ⟨hlt, hlang.trans (matches_regex _ _)⟩⟩

/-! ### Closing a fragment -/

/-- the symbols that end a fragment -/
def Lexical.Closes : Lexical → Prop
  | .endT | .rParT | .rBrT | .barT => True
  | _ => False

/-- At a closing symbol the pending concatenations are made, one a step. -/
theorem reduce (hl : l.Closes) {σ : List StackCard} (hσ : σ ≠ [])
    {L : Language Name} (qs : List ℕ) (q : ℕ) (p : Parser) (hp : p.Valid)
    (hst : p.stack = pending qs ++ σ) (hprod : Product p (qs ++ [q]) L) :
    ∃ n q' t, parseStep^[n] (.atEnd l q p) = .atEnd l q' { p with stack := σ, tables := t } ∧
      Reads { p with stack := σ } { p with stack := σ, tables := t } 0 [] ∧
      Product { p with stack := σ, tables := t } [q'] L := by
  induction qs using reverseRecOn generalizing q p with
  | nil =>
    have hst' : p.stack = σ := hst
    subst hst'
    exact ⟨0, q, p.tables, rfl, ⟨hp, rfl, rfl, rfl, prefix_rfl⟩, hprod⟩
  | append_singleton qs k ih =>
    have hst' : p.stack = ⟨.and, k⟩ :: (pending qs ++ σ) := by
      rw [hst, pending_append]
      rfl
    have hbelow : (Exp.and k q).Below p.tables.equTab.length :=
      ⟨hprod.1 k (by simp), hprod.1 q (by simp)⟩
    have hvalid : ({ p with stack := pending qs ++ σ } : Parser).Valid := by
      refine ⟨hp.sound, hp.chars, ?_, append_ne_nil_of_right_ne_nil _ hσ⟩
      have hlen := hp.stack
      rw [hst', length_cons] at hlen
      exact (Nat.le_succ _).trans hlen
    obtain ⟨q₁, t₁, hmake, hreads, hq⟩ := make_spec hvalid hbelow
    have hstep : parseStep (.atEnd l q p) =
        .atEnd l q₁ { p with stack := pending qs ++ σ, tables := t₁ } := by
      have hpop : p.pop = { p with stack := pending qs ++ σ } := by
        simp only [Parser.pop, hst', tail_cons]
      have hx : parseStep (.atEnd l q p) = p.pop.make (.and k q) fun q p => .atEnd l q p := by
        simp only [parseStep, hst']
        cases l <;> first | rfl | exact absurd hl id
      rw [hx, hpop, hmake]
    have hprod' : Product { p with stack := pending qs ++ σ, tables := t₁ } (qs ++ [q₁]) L := by
      have hqs : Product p qs (qs.map p.tables.language).prod :=
        ⟨fun r hr => hprod.1 r (by simp [hr]), rfl⟩
      have h := (hqs.mono hreads.tables).append hq
      rw [← hprod.2]
      simpa [Exp.language, mul_assoc] using h
    obtain ⟨n, q', t, hn, hr, hpr⟩ := ih q₁ _ hreads.valid rfl hprod'
    refine ⟨n + 1, q', t, ?_, ⟨hr.valid, rfl, rfl, rfl, hreads.tables.trans hr.tables⟩, hpr⟩
    rw [Function.iterate_succ_apply, hstep, hn]

/-! ### Fragments -/

/-- the symbols an atom starts with -/
def Lexical.Opens : Lexical → Prop
  | .idenT | .lParT | .lBrT => True
  | _ => False

/-- Where `s` comes next, the scanner finds the start of an atom or runs out of space. -/
def Starts (s : List Char) : Prop :=
  ∀ (p : Parser) (ctx : List Char), p.input = s ++ ctx → p.chars ≤ maxChar →
    (∃ m, ∀ k, p.lex k = .exited m) ∨
      ∃ l p', l.Opens ∧ p'.stack = p.stack ∧ ∀ k, p.lex k = k l p'

/-- `s` is read to its end in every context, as `w` atoms with product `L`; above what the
context has on the stack it needs `n` entries, and `b` bytes of the name buffer. -/
structure Fragment (s : List Char) (L : Language Name) (w n b : ℕ) : Prop where
  starts : Starts s
  reads : ∀ (p : Parser) (ctx : List Char), p.Valid → p.input = s ++ ctx →
    Attempt parseStep ParseConfig.Exited (p.stack.length + n ≤ stackMax ∧ p.chars + b ≤ maxChar)
      (p.lex fun l p => .atExp l p) fun c =>
        ∃ qs q p', c = (p'.lex fun l p => .atEnd l q p) ∧ p'.input = ctx ∧
          Reads p p' b (pending qs) ∧ qs.length + 1 = w ∧ Product p' (qs ++ [q]) L

variable {s s' rest ctx : List Char} {L L' : Language Name} {w w' n n' b b' : ℕ}

theorem Starts.append (hs : Starts s) : Starts (s ++ s') := by
  intro p ctx hin hp
  exact hs p (s' ++ ctx) (by rw [hin, append_assoc]) hp

theorem Starts.space (hs : Starts s) : Starts (' ' :: s) := by
  intro p ctx hin hp
  rcases hs { p with input := s ++ ctx } ctx rfl hp with ⟨m, hm⟩ | ⟨l, p', hl, hst, hk⟩
  · exact .inl ⟨m, fun k => (lex_space hin k).trans (hm k)⟩
  · exact .inr ⟨l, p', hl, hst, fun k => (lex_space hin k).trans (hk k)⟩

theorem Fragment.space (hs : Fragment s L w n b) : Fragment (' ' :: s) L w n b where
  starts := hs.starts.space
  reads := by
    intro p ctx hp hin
    have hp' : ({ p with input := s ++ ctx } : Parser).Valid :=
      ⟨hp.sound, hp.chars, hp.stack, hp.base⟩
    rw [lex_space hin]
    refine weaken (hs.reads _ ctx hp' rfl) ?_
    rintro c ⟨qs, q, p', hc, hin', hr, hw, hprod⟩
    exact ⟨qs, q, p', hc, hin', ⟨hr.valid, hr.chars, hr.stack, hr.errors, hr.tables⟩, hw, hprod⟩

theorem Fragment.append_space (hs : Fragment s L w n b) : Fragment (s ++ [' ']) L w n b where
  starts := hs.starts.append
  reads := by
    intro p ctx hp hin
    refine weaken (hs.reads p (' ' :: ctx) hp (by rw [hin, append_assoc]; rfl)) ?_
    rintro c ⟨qs, q, p', rfl, hin', hr, hw, hprod⟩
    exact ⟨qs, q, { p' with input := ctx }, lex_space hin' _, rfl,
      ⟨⟨hr.valid.sound, hr.valid.chars, hr.valid.stack, hr.valid.base⟩, hr.chars, hr.stack,
        hr.errors, hr.tables⟩, hw, hprod⟩

/-- In front of an atom the parser makes a pending concatenation and starts over. -/
theorem and_step (hs : Starts s) (hp : p.Valid) (hin : p.input = s ++ ctx) (q : ℕ) :
    (p.stack.length + 1 ≤ stackMax → parseStep (p.lex fun l p => .atEnd l q p) =
        ({ p with stack := ⟨.and, q⟩ :: p.stack } : Parser).lex fun l p => .atExp l p) ∧
      (¬p.stack.length + 1 ≤ stackMax → (parseStep (p.lex fun l p => .atEnd l q p)).Exited) := by
  rcases hs p ctx hin hp.chars with ⟨m, hm⟩ | ⟨l, p', hl, hst, hk⟩
  · rw [lex_stack p (⟨.and, q⟩ :: p.stack), hm, hm]
    exact ⟨fun _ => rfl, fun _ => trivial⟩
  · obtain ⟨top, tail, htop⟩ := exists_cons_of_ne_nil hp.base
    have hstep : parseStep (.atEnd l q p') = p'.push .and q fun p => .atExp l p := by
      obtain ⟨tag, r⟩ := top
      simp only [parseStep, hst, htop]
      cases tag <;> cases l <;> first | rfl | exact absurd hl id
    rw [lex_stack p (⟨.and, q⟩ :: p.stack), hk, hk, hstep, Parser.push, hst]
    refine ⟨fun h => ?_, fun h => ?_⟩
    · rw [if_neg (by omega)]
    · rw [if_pos (by omega)]
      trivial

theorem Fragment.append (hs : Fragment s L w n b) (hs' : Fragment s' L' w' n' b') :
    Fragment (s ++ s') (L * L') (w + w') (max n (w + n')) (b + b') where
  starts := hs.starts.append
  reads := by
    intro p ctx hp hin
    have h := hs.reads p (s' ++ ctx) hp (by rw [hin, append_assoc])
    have h' : ∀ c, (∃ qs q p', c = (p'.lex fun l p => .atEnd l q p) ∧ p'.input = s' ++ ctx ∧
          Reads p p' b (pending qs) ∧ qs.length + 1 = w ∧ Product p' (qs ++ [q]) L) →
        Attempt parseStep ParseConfig.Exited (p.stack.length + w ≤ stackMax ∧
          p.stack.length + w + n' ≤ stackMax ∧ p.chars + b + b' ≤ maxChar) c fun c =>
            ∃ qs q p', c = (p'.lex fun l p => .atEnd l q p) ∧ p'.input = ctx ∧
              Reads p p' (b + b') (pending qs) ∧ qs.length + 1 = w + w' ∧
              Product p' (qs ++ [q]) (L * L') := by
      rintro c ⟨qs, q, p', rfl, hin', hr, hw, hprod⟩
      have hlen : p'.stack.length + 1 = p.stack.length + w := by
        rw [hr.stack, length_append]
        simp only [pending, length_reverse, length_map]
        omega
      obtain ⟨hgo, hstop⟩ := and_step hs'.starts hr.valid hin' q
      rw [hlen] at hgo hstop
      refine guard hstop fun hfit => ?_
      rw [hgo hfit]
      have hr₁ : Reads p { p' with stack := ⟨.and, q⟩ :: p'.stack } b (pending (qs ++ [q])) := by
        refine ⟨⟨hr.valid.sound, hr.valid.chars, ?_, cons_ne_nil _ _⟩, hr.chars, ?_, hr.errors,
          hr.tables⟩
        · rw [length_cons, hlen]
          exact hfit
        · rw [pending_append, hr.stack]
          rfl
      refine weaken (congr (hs'.reads _ ctx hr₁.valid hin') ?_) ?_
      · simp only [length_cons, hlen, hr.chars]
      rintro c ⟨qs', q', p₂, hc, hin₂, hr₂, hw', hprod'⟩
      refine ⟨qs ++ [q] ++ qs', q', p₂, hc, hin₂, ?_, ?_, ?_⟩
      · rw [pending_append]
        exact hr₁.trans hr₂
      · simp only [length_append, length_singleton]
        omega
      · rw [append_assoc]
        exact (hprod.mono hr₂.tables).append hprod'
    refine congr (seq h h') ?_
    omega

/-! ### Names, brackets and operators -/

theorem starts_quoted {name : Name} (hname : ∀ c ∈ name, c ≠ '"') :
    Starts ('"' :: (name ++ ['"'])) := by
  intro p ctx hin hp
  have hin' : p.input = '"' :: (name ++ '"' :: ctx) := by simpa using hin
  have hlex := lex_quoted hin' hname hp
  by_cases hfit : p.chars + (name.length + 1) ≤ maxChar
  · exact .inr ⟨.idenT, { p with input := ctx, chars := p.chars + (name.length + 1), lastW := name },
      trivial, rfl, fun k => by rw [hlex, if_pos hfit]⟩
  · exact .inl ⟨_, fun k => by rw [hlex, if_neg hfit]⟩

theorem fragment_quoted {name : Name} (hname : ∀ c ∈ name, c ≠ '"') :
    Fragment ('"' :: (name ++ ['"'])) {[name]} 1 0 (name.length + 1) where
  starts := starts_quoted hname
  reads := by
    intro p ctx hp hin
    have hin' : p.input = '"' :: (name ++ '"' :: ctx) := by simpa using hin
    rw [lex_quoted hin' hname hp.chars]
    by_cases hfit : p.chars + (name.length + 1) ≤ maxChar
    · rw [if_pos hfit]
      have hp' : ({ p with input := ctx, chars := p.chars + (name.length + 1), lastW := name } :
          Parser).Valid := ⟨hp.sound, hfit, hp.stack, hp.base⟩
      obtain ⟨q, t, hmake, hr, hprod⟩ := make_spec (e := .sym name) hp' trivial
      refine congr (step_back (done ?_)) ⟨fun _ => ⟨hp.stack, hfit⟩, fun _ => trivial⟩
      exact ⟨[], q, _, hmake fun q p => p.lex fun l p => .atEnd l q p, rfl, ⟨hr.valid, rfl, rfl, rfl, hr.tables⟩, rfl, hprod⟩
    · rw [if_neg hfit]
      exact halt (fun h => hfit h.2) trivial

/-- A fragment up to a closing symbol is a single class. -/
theorem Fragment.close (hs : Fragment s L w n b) (hl : l.Closes)
    (hlex : Lexes rest l ctx) (hp : p.Valid) (hin : p.input = s ++ rest) :
    Attempt parseStep ParseConfig.Exited (p.stack.length + n ≤ stackMax ∧ p.chars + b ≤ maxChar)
      (p.lex fun l p => .atExp l p) fun c =>
        ∃ q p', c = .atEnd l q p' ∧ p'.input = ctx ∧ Reads p p' b [] ∧ Product p' [q] L := by
  refine seq_done (hs.reads p rest hp hin) ?_
  rintro c ⟨qs, q, p', rfl, hin', hr, -, hprod⟩
  rw [hlex _ _ hin']
  have hvalid : ({ p' with input := ctx } : Parser).Valid :=
    ⟨hr.valid.sound, hr.valid.chars, hr.valid.stack, hr.valid.base⟩
  obtain ⟨m, q', t, hm, hr', hprod'⟩ := reduce hl hp.base qs q _ hvalid hr.stack hprod
  refine run_back m (done ⟨q', _, hm, rfl, ?_, hprod'⟩)
  exact ⟨hr'.valid, hr.chars, rfl, hr.errors, hr.tables.trans hr'.tables⟩

/-- An opening bracket, a fragment and a closing symbol. -/
theorem Fragment.enclosed (hs : Fragment s L w n b) {o : Lexical} {tag : StackTag}
    (ho : ∀ p, parseStep (.atExp o p) = p.push tag 0 fun p => p.lex fun l p => .atExp l p)
    (hl : l.Closes) (hlex : Lexes rest l ctx) (hp : p.Valid)
    (hopen : Lexes p.input o (s ++ rest)) :
    Attempt parseStep ParseConfig.Exited (p.stack.length + (1 + n) ≤ stackMax ∧ p.chars + b ≤ maxChar)
      (p.lex fun l p => .atExp l p) fun c =>
        ∃ q p', c = .atEnd l q p' ∧ p'.input = ctx ∧ Reads p p' b [⟨tag, 0⟩] ∧
          Product p' [q] L := by
  have hguard : Attempt parseStep ParseConfig.Exited (p.stack.length + 1 ≤ stackMax ∧
      p.stack.length + 1 + n ≤ stackMax ∧ p.chars + b ≤ maxChar)
      (.atExp o { p with input := s ++ rest }) fun c =>
        ∃ q p', c = .atEnd l q p' ∧ p'.input = ctx ∧ Reads p p' b [⟨tag, 0⟩] ∧
          Product p' [q] L := by
    refine guard (fun h => ?_) fun h => ?_
    · rw [ho, Parser.push, if_pos (show stackMax ≤ p.stack.length by omega)]
      trivial
    · rw [ho, Parser.push, if_neg (show ¬stackMax ≤ p.stack.length by omega)]
      have hp' : ({ p with input := s ++ rest, stack := ⟨tag, 0⟩ :: p.stack } : Parser).Valid :=
        ⟨hp.sound, hp.chars, h, cons_ne_nil _ _⟩
      refine weaken (hs.close hl hlex hp' rfl) ?_
      rintro c ⟨q, p', hc, hin', hr, hprod⟩
      exact ⟨q, p', hc, hin', ⟨hr.valid, hr.chars, hr.stack, hr.errors, hr.tables⟩, hprod⟩
  rw [hopen _ _ rfl]
  refine congr hguard ?_
  omega

theorem Starts.bracket {c : Char} {o : Lexical} (ho : o.Opens) (hc : single c = some o)
    (hsp : isspace c = false) (s : List Char) : Starts (c :: s) := by
  intro p ctx hin _
  exact .inr ⟨o, { p with input := s ++ ctx }, ho, rfl, fun k => lexes_single hc hsp _ p k hin⟩

/-- Without its bracket the stack is back where it was. -/
theorem Reads.pop {p' : Parser} {c : StackCard} (hp : p.Valid) (h : Reads p p' b [c]) :
    Reads p p'.pop b [] := by
  have hst : p'.pop.stack = p.stack := by rw [Parser.pop, h.stack]; rfl
  refine ⟨⟨h.valid.sound, h.valid.chars, ?_, ?_⟩, h.chars, hst, h.errors, h.tables⟩
  · rw [hst]; exact hp.stack
  · rw [hst]; exact hp.base

theorem rPar_step {r : ℕ} {tail : List StackCard} (h : p.stack = ⟨.par, r⟩ :: tail)
    (q : ℕ) : parseStep (.atEnd .rParT q p) = p.pop.lex fun l p => .atEnd l q p := by
  simp only [parseStep, h]
  rfl

theorem Fragment.parens (hs : Fragment s L w n b) (hp : p.Valid)
    (hin : p.input = '(' :: ' ' :: (s ++ ' ' :: ')' :: ctx)) :
    Attempt parseStep ParseConfig.Exited (p.stack.length + (1 + n) ≤ stackMax ∧ p.chars + b ≤ maxChar)
      (p.lex fun l p => .atExp l p) fun c =>
        ∃ q p', c = (p'.lex fun l p => .atEnd l q p) ∧ p'.input = ctx ∧ Reads p p' b [] ∧
          Product p' [q] L := by
  have hclose : Lexes (' ' :: ')' :: ctx) .rParT ctx := (lexes_single rfl rfl ctx).space
  have hopen : Lexes p.input .lParT (' ' :: s ++ ' ' :: ')' :: ctx) := by
    rw [hin]
    exact lexes_single rfl rfl _
  have hpar : Lexical.rParT.Closes := trivial
  refine seq_done (hs.space.enclosed (fun _ => rfl) hpar hclose hp hopen) ?_
  rintro c ⟨q, p', rfl, hin', hr, hprod⟩
  exact step_back (done ⟨q, p'.pop, rPar_step hr.stack q, hin', hr.pop hp, hprod⟩)

/-- `*` and `+` behind a class -/
theorem postfix_step {c : Char} (hc : single c = some l) (hsp : isspace c = false) {e : ℕ → Exp}
    (hact : ∀ p : Parser, p.stack ≠ [] → parseStep (.atEnd l q p) =
      p.make (e q) fun q p => p.lex fun l p => .atEnd l q p)
    (hp : p.Valid) (hin : p.input = c :: ctx) (he : (e q).Below p.tables.equTab.length) :
    ∃ q' p', parseStep (p.lex fun l p => .atEnd l q p) = (p'.lex fun l p => .atEnd l q' p) ∧
      p'.input = ctx ∧ Reads p p' 0 [] ∧ Product p' [q'] ((e q).language p.tables) := by
  have hp' : ({ p with input := ctx } : Parser).Valid := ⟨hp.sound, hp.chars, hp.stack, hp.base⟩
  obtain ⟨q', t, hmake, hr, hprod⟩ := make_spec (e := e q) hp' he
  refine ⟨q', _, ?_, rfl, ⟨hr.valid, rfl, rfl, rfl, hr.tables⟩, hprod⟩
  rw [lexes_single hc hsp ctx p _ hin, hact { p with input := ctx } hp.base, hmake]

theorem star_step (p : Parser) (q : ℕ) (hp : p.stack ≠ []) : parseStep (.atEnd .starT q p) =
    p.make (.star q) fun q p => p.lex fun l p => .atEnd l q p := by
  obtain ⟨⟨tag, r⟩, tail, h⟩ := exists_cons_of_ne_nil hp
  simp only [parseStep, h]
  cases tag <;> rfl

theorem plus_step (p : Parser) (q : ℕ) (hp : p.stack ≠ []) : parseStep (.atEnd .plusT q p) =
    p.make (.plus q) fun q p => p.lex fun l p => .atEnd l q p := by
  obtain ⟨⟨tag, r⟩, tail, h⟩ := exists_cons_of_ne_nil hp
  simp only [parseStep, h]
  cases tag <;> rfl

theorem fragment_star (hs : Fragment s L w n b) :
    Fragment (['(', ' '] ++ s ++ [' ', ')', '*']) L∗ 1 (1 + n) b where
  starts := Starts.bracket (o := .lParT) trivial rfl rfl _
  reads := by
    intro p ctx hp hin
    have hin₀ : p.input = '(' :: ' ' :: (s ++ ' ' :: ')' :: '*' :: ctx) := by simpa using hin
    refine seq_done (hs.parens hp hin₀) ?_
    rintro c ⟨q, p', rfl, hin', hr, hprod⟩
    obtain ⟨hlt, hlang⟩ := product_singleton.mp hprod
    obtain ⟨q', p'', hstep, hin'', hr', hprod'⟩ :=
      postfix_step (c := '*') rfl rfl (star_step · q) hr.valid hin' hlt
    refine step_back (done ⟨[], q', p'', hstep, hin'', hr.trans hr', rfl, ?_⟩)
    rw [← hlang]
    exact hprod'

theorem fragment_plus (hs : Fragment s L w n b) :
    Fragment (['(', ' '] ++ s ++ [' ', ')', '+']) (L * L∗) 1 (1 + n) b where
  starts := Starts.bracket (o := .lParT) trivial rfl rfl _
  reads := by
    intro p ctx hp hin
    have hin₀ : p.input = '(' :: ' ' :: (s ++ ' ' :: ')' :: '+' :: ctx) := by simpa using hin
    refine seq_done (hs.parens hp hin₀) ?_
    rintro c ⟨q, p', rfl, hin', hr, hprod⟩
    obtain ⟨hlt, hlang⟩ := product_singleton.mp hprod
    obtain ⟨q', p'', hstep, hin'', hr', hprod'⟩ :=
      postfix_step (c := '+') rfl rfl (plus_step · q) hr.valid hin' hlt
    refine step_back (done ⟨[], q', p'', hstep, hin'', hr.trans hr', rfl, ?_⟩)
    rw [← hlang]
    exact hprod'

theorem fragment_opt (hs : Fragment s L w n b) :
    Fragment ('[' :: (s ++ [']'])) (1 + L) 1 (1 + n) b where
  starts := Starts.bracket (o := .lBrT) trivial rfl rfl _
  reads := by
    intro p ctx hp hin
    have hclose : Lexes (']' :: ctx) .rBrT ctx := lexes_single rfl rfl ctx
    have hopen : Lexes p.input .lBrT (s ++ ']' :: ctx) := by
      rw [hin]
      simpa using lexes_single (c := '[') rfl rfl (s ++ ']' :: ctx)
    have hbr : Lexical.rBrT.Closes := trivial
    refine seq_done (hs.enclosed (fun _ => rfl) hbr hclose hp hopen) ?_
    rintro c ⟨q, p', rfl, hin', hr, hprod⟩
    obtain ⟨hlt, hlang⟩ := product_singleton.mp hprod
    have hpop := hr.pop hp
    obtain ⟨q', t, hmake, hr', hprod'⟩ := make_spec (e := .opt q) hpop.valid hlt
    have hstep : parseStep (.atEnd .rBrT q p') =
        ({ p'.pop with tables := t } : Parser).lex fun l p => .atEnd l q' p := by
      have hx : parseStep (.atEnd .rBrT q p') = p'.lex fun l p => p.makeOpt l q := by
        simp only [parseStep, hr.stack]
        rfl
      rw [hx, lex_makeOpt, hmake]
    refine step_back (done ⟨[], q', _, hstep, hin', hpop.trans hr', rfl, ?_⟩)
    rw [← hlang]
    exact hprod'

/-- The closing bracket of a disjunction makes the class of the disjunction. -/
theorem or_close {p' : Parser} {q' : ℕ} (hp : p.Valid)
    (hr : Reads p p' b [⟨.or, q⟩, ⟨.par, 0⟩]) (hprod : Product p' [q] L)
    (hprod' : Product p' [q'] L') :
    ∃ q'' p'', parseStep (parseStep (.atEnd .rParT q' p')) = (p''.lex fun l p => .atEnd l q'' p) ∧
      p''.input = p'.input ∧ Reads p p'' b [] ∧ Product p'' [q''] (L + L') := by
  have hst : p'.stack = ⟨.or, q⟩ :: ⟨.par, 0⟩ :: p.stack := hr.stack
  have hpop : Reads p p'.pop b [⟨.par, 0⟩] := by
    refine ⟨⟨hr.valid.sound, hr.valid.chars, ?_, ?_⟩, hr.chars, ?_, hr.errors, hr.tables⟩
    · have hle := hr.valid.stack
      rw [hst] at hle
      rw [Parser.pop, hst]
      exact (Nat.le_succ _).trans hle
    · rw [Parser.pop, hst]
      exact cons_ne_nil _ _
    · rw [Parser.pop, hst]
      rfl
  obtain ⟨hlt, hlang⟩ := product_singleton.mp hprod
  obtain ⟨hlt', hlang'⟩ := product_singleton.mp hprod'
  obtain ⟨q'', t, hmake, hr', hprod''⟩ := make_spec (e := .or q q') hpop.valid ⟨hlt, hlt'⟩
  have hor : parseStep (.atEnd .rParT q' p') =
      p'.pop.make (.or q q') fun q p => .atEnd .rParT q p := by
    simp only [parseStep, hst]
    rfl
  refine ⟨q'', ({ p'.pop with tables := t } : Parser).pop, ?_, rfl, (hpop.trans hr').pop hp, ?_⟩
  · rw [hor, hmake, rPar_step (hpop.trans hr').stack]
  · rw [← hlang, ← hlang']
    exact hprod''

theorem fragment_disj (hs : Fragment s L w n b) (hs' : Fragment s' L' w' n' b') :
    Fragment ('(' :: (s ++ '|' :: (s' ++ [')']))) (L + L') 1 (max (1 + n) (2 + n')) (b + b') where
  starts := Starts.bracket (o := .lParT) trivial rfl rfl _
  reads := by
    intro p ctx hp hin
    have hbar : Lexes ('|' :: (s' ++ ')' :: ctx)) .barT (s' ++ ')' :: ctx) := lexes_single rfl rfl _
    have hclose : Lexes (')' :: ctx) .rParT ctx := lexes_single rfl rfl ctx
    have hopen : Lexes p.input .lParT (s ++ '|' :: (s' ++ ')' :: ctx)) := by
      rw [hin]
      simpa using lexes_single (c := '(') rfl rfl (s ++ '|' :: (s' ++ ')' :: ctx))
    have hbarT : Lexical.barT.Closes := trivial
    have hparT : Lexical.rParT.Closes := trivial
    have hleft := hs.enclosed (fun _ => rfl) hbarT hbar hp hopen
    have hright : ∀ c, (∃ q p', c = .atEnd .barT q p' ∧ p'.input = s' ++ ')' :: ctx ∧
          Reads p p' b [⟨.par, 0⟩] ∧ Product p' [q] L) →
        Attempt parseStep ParseConfig.Exited (p.stack.length + 2 ≤ stackMax ∧
          p.stack.length + 2 + n' ≤ stackMax ∧ p.chars + b + b' ≤ maxChar) c fun c =>
            ∃ qs q p', c = (p'.lex fun l p => .atEnd l q p) ∧ p'.input = ctx ∧
              Reads p p' (b + b') (pending qs) ∧ qs.length + 1 = 1 ∧
              Product p' (qs ++ [q]) (L + L') := by
      rintro c ⟨q, p', rfl, hin', hr, hprod⟩
      have hstep : parseStep (.atEnd .barT q p') =
          p'.push .or q fun p => p.lex fun l p => .atExp l p := by
        simp only [parseStep, hr.stack]
        rfl
      have hlen : p'.stack.length = p.stack.length + 1 := by
        rw [hr.stack]
        rfl
      refine guard (fun h => ?_) fun h => ?_
      · rw [hstep, Parser.push, if_pos (by omega)]
        trivial
      rw [hstep, Parser.push, if_neg (by omega)]
      have hr₁ : Reads p { p' with stack := ⟨.or, q⟩ :: p'.stack } b [⟨.or, q⟩, ⟨.par, 0⟩] := by
        refine ⟨⟨hr.valid.sound, hr.valid.chars, ?_, cons_ne_nil _ _⟩, hr.chars, ?_,
          hr.errors, hr.tables⟩
        · rw [length_cons, hlen]
          exact h
        · rw [hr.stack]
          rfl
      refine seq_done (congr (hs'.close hparT hclose hr₁.valid hin') ?_) ?_
      · simp only [length_cons, hlen, hr.chars, Nat.add_assoc, Nat.reduceAdd]
      rintro c ⟨q₂, p₂, rfl, hin₂, hr₂, hprod₂⟩
      obtain ⟨q₃, p₃, hrun, hin₃, hr₃, hprod₃⟩ :=
        or_close hp (hr₁.trans hr₂) (hprod.mono hr₂.tables) hprod₂
      exact step_back (step_back (done ⟨[], q₃, p₃, hrun, hin₃.trans hin₂, hr₃, rfl, hprod₃⟩))
    refine congr (seq hleft hright) ?_
    omega

/-! ### Repetition -/

theorem copies_succ (k : ℕ) (s : List Char) : copies (k + 1) s = s ++ copies k s := by
  rw [copies, copies, replicate_succ, flatten_cons]

theorem copies_succ_end (k : ℕ) (s : List Char) : copies (k + 1) s = copies k s ++ s := by
  rw [copies, copies, replicate_succ', flatten_append, flatten_singleton]

theorem fragment_copies (hs : Fragment s L w n b) (k : ℕ) :
    Fragment (copies (k + 1) s) (L ^ (k + 1)) ((k + 1) * w) (k * w + n) ((k + 1) * b) := by
  induction k with
  | zero =>
    have h : copies 1 s = s := by rw [copies_succ]; exact append_nil s
    simpa [h] using hs
  | succ k ih =>
    have h := hs.append ih
    rw [copies_succ, pow_succ']
    have hw : w + (k + 1) * w = (k + 1 + 1) * w := by ring
    have hn : max n (w + (k * w + n)) = (k + 1) * w + n := by
      rw [max_eq_right (by omega)]
      ring
    have hb : b + (k + 1) * b = (k + 1 + 1) * b := by ring
    rw [hw, hn, hb] at h
    exact h

/-- between none and `r` copies of `L` -/
def upTo {α : Type*} (L : Language α) : ℕ → Language α
  | 0 => 1
  | r + 1 => 1 + L * upTo L r

/-- The optional copies are nested, each inside the one before. -/
theorem fragment_nested (hs : Fragment s L w n b) (r : ℕ) :
    Fragment (copies (r + 1) (['['] ++ s ++ [' ']) ++ copies (r + 1) [']']) (upTo L (r + 1)) 1
      (r * (1 + w) + (1 + n)) ((r + 1) * b) := by
  induction r with
  | zero =>
    have h := fragment_opt hs.append_space
    simpa [copies, upTo] using h
  | succ r ih =>
    have h := fragment_opt (hs.append_space.append ih)
    have hstr : copies (r + 1 + 1) (['['] ++ s ++ [' ']) ++ copies (r + 1 + 1) [']'] =
        '[' :: (s ++ [' '] ++ (copies (r + 1) (['['] ++ s ++ [' ']) ++ copies (r + 1) [']']) ++
          [']']) := by
      rw [copies_succ, copies_succ_end (r + 1) [']']]
      simp only [append_assoc, cons_append, nil_append]
    have hn : 1 + max n (w + (r * (1 + w) + (1 + n))) = (r + 1) * (1 + w) + (1 + n) := by
      rw [max_eq_right (by omega)]
      ring
    have hb : b + (r + 1) * b = (r + 1 + 1) * b := by ring
    rw [hstr]
    rw [hn, hb] at h
    exact h

end CWB.Regex2dfa
