import CWB.Library.Faulting
import CWB.Sanity.Regex2dfa

/-! `evaltree2searchstr` hands the token-level expression over to the automaton generator
without changing its language: the printed tree is a fragment with the language of the
tree, so the parser returns a class that denotes it, unless the tree is too large for the
parser's stack or name buffer. -/

namespace CWB
open List Regex2dfa LimitedRun
open scoped Computability

/-! ### The language of a repetition -/

theorem mem_upTo {α : Type*} {L : Language α} {r : ℕ} {w : List α} :
    w ∈ upTo L r ↔ ∃ n ≤ r, w ∈ L ^ n := by
  induction r generalizing w with
  | zero => simp [upTo]
  | succ r ih =>
    rw [upTo, Language.mem_add]
    constructor
    · rintro (h | h)
      · exact ⟨0, Nat.zero_le _, by simpa using h⟩
      · obtain ⟨a, ha, b, hb, rfl⟩ := Language.mem_mul.mp h
        obtain ⟨n, hn, hb⟩ := ih.mp hb
        refine ⟨n + 1, Nat.succ_le_succ hn, ?_⟩
        rw [pow_succ']
        exact Language.append_mem_mul ha hb
    · rintro ⟨n, hn, h⟩
      cases n with
      | zero => exact .inl (by simpa using h)
      | succ n =>
        rw [pow_succ'] at h
        obtain ⟨a, ha, b, hb, rfl⟩ := Language.mem_mul.mp h
        exact .inr (Language.append_mem_mul ha (ih.mpr ⟨n, by omega, hb⟩))

theorem map_upTo {α β : Type*} (f : α → β) (L : Language α) (r : ℕ) :
    Language.map f (upTo L r) = upTo (Language.map f L) r := by
  induction r with
  | zero => exact map_one _
  | succ r ih => rw [upTo, upTo, map_add, map_one, map_mul, ih]

theorem language_repetition_none (l : Evaltree) (k : ℕ) :
    (Evaltree.repetition l k none).language = l.language ^ k * l.language∗ := by
  rw [Language.kstar_eq_iSup_pow, Language.mul_iSup]
  refine Language.ext fun w => ?_
  rw [Language.mem_iSup]
  constructor
  · rintro ⟨n, hkn, -, hw⟩
    refine ⟨n - k, ?_⟩
    rw [← pow_add, Nat.add_sub_cancel' hkn]
    exact hw
  · rintro ⟨i, hw⟩
    rw [← pow_add] at hw
    exact ⟨k + i, Nat.le_add_right k i, fun m h => absurd h (by simp), hw⟩

theorem language_repetition_some (l : Evaltree) {k m : ℕ} (hkm : k ≤ m) :
    (Evaltree.repetition l k (some m)).language = l.language ^ k * upTo l.language (m - k) := by
  refine Language.ext fun w => ?_
  constructor
  · rintro ⟨n, hkn, hnm, hw⟩
    have hn : n = k + (n - k) := (Nat.add_sub_cancel' hkn).symm
    rw [hn, pow_add] at hw
    obtain ⟨a, ha, b, hb, rfl⟩ := Language.mem_mul.mp hw
    have hle := hnm m rfl
    exact Language.append_mem_mul ha (mem_upTo.mpr ⟨n - k, by omega, hb⟩)
  · intro hw
    obtain ⟨a, ha, b, hb, rfl⟩ := Language.mem_mul.mp hw
    obtain ⟨n, hn, hb⟩ := mem_upTo.mp hb
    refine ⟨k + n, Nat.le_add_right k n, fun m' h => ?_, ?_⟩
    · obtain rfl := Option.some.inj h
      omega
    · rw [pow_add]
      exact Language.append_mem_mul ha hb

/-! ### Printed trees are fragments -/

variable {s : List Char} {L : Language Name} {w n b : ℕ}

/-- `min` copies and a star behind them -/
theorem fragment_copies_star (hs : Fragment s L w n b) {k : ℕ} (hk : 0 < k) :
    Fragment (copies k (s ++ [' ']) ++ (['(', ' '] ++ s ++ [' ', ')', '*'])) (L ^ k * L∗)
      (k * w + 1) (k * w + (1 + n)) ((k + 1) * b) := by
  obtain ⟨j, rfl⟩ := Nat.exists_eq_succ_of_ne_zero hk.ne'
  have h := (fragment_copies hs.append_space j).append (fragment_star hs)
  have hn : max (j * w + n) ((j + 1) * w + (1 + n)) = (j + 1) * w + (1 + n) := by
    have : (j + 1) * w = j * w + w := by ring
    omega
  have hb : (j + 1) * b + b = (j + 1 + 1) * b := by ring
  rw [hn, hb] at h
  exact h

/-- `min` copies and `r + 1` nested optional ones behind them -/
theorem fragment_copies_nested (hs : Fragment s L w n b) (k r : ℕ) :
    Fragment (copies k (s ++ [' ']) ++
        (copies (r + 1) (['['] ++ s ++ [' ']) ++ copies (r + 1) [']'])) (L ^ k * upTo L (r + 1))
      (k * w + 1) (k * w + r * (1 + w) + (1 + n)) ((k + (r + 1)) * b) := by
  cases k with
  | zero => simpa [copies] using fragment_nested hs r
  | succ j =>
    have h := (fragment_copies hs.append_space j).append (fragment_nested hs r)
    have hn : max (j * w + n) ((j + 1) * w + (r * (1 + w) + (1 + n))) =
        (j + 1) * w + r * (1 + w) + (1 + n) := by
      have : (j + 1) * w = j * w + w := by ring
      omega
    have hb : (j + 1) * b + (r + 1) * b = (j + 1 + (r + 1)) * b := by ring
    rw [hn, hb] at h
    exact h

/-- A repetition prints as a fragment when its body does. -/
theorem fragment_repetition {l : Evaltree}
    (hs : Fragment (evaltree2searchstr l) (Language.map (Nat.toDigits 10) l.language) l.width
      l.stackNeed l.nameBytes) {min : ℕ} {max : Option ℕ} (hle : ∀ m, max = some m → min ≤ m)
    (hne : ¬(min = 0 ∧ max = some 0)) :
    Fragment (evaltree2searchstr (.repetition l min max))
      (Language.map (Nat.toDigits 10) (Evaltree.repetition l min max).language)
      (Evaltree.repetition l min max).width (Evaltree.repetition l min max).stackNeed
      (Evaltree.repetition l min max).nameBytes := by
  cases max with
  | none =>
    rw [language_repetition_none, map_mul, map_pow, Language.map_kstar]
    by_cases h0 : min = 0
    · subst h0
      simpa [evaltree2searchstr, Evaltree.width, Evaltree.stackNeed, Evaltree.nameBytes] using
        fragment_star hs
    · by_cases h1 : min = 1
      · subst h1
        simpa [evaltree2searchstr, Evaltree.width, Evaltree.stackNeed, Evaltree.nameBytes] using
          fragment_plus hs
      · simpa [evaltree2searchstr, Evaltree.width, Evaltree.stackNeed, Evaltree.nameBytes, h0, h1]
          using fragment_copies_star hs (Nat.pos_of_ne_zero h0)
  | some m =>
    have hmin := hle m rfl
    rw [language_repetition_some l hmin, map_mul, map_pow, map_upTo]
    by_cases hopt : min = 0 ∧ m = 1
    · obtain ⟨rfl, rfl⟩ := hopt
      simpa [evaltree2searchstr, Evaltree.width, Evaltree.stackNeed, Evaltree.nameBytes, upTo] using
        fragment_opt hs.space.append_space
    · rcases hmin.eq_or_lt with rfl | hlt
      · -- no optional copies
        obtain ⟨j, rfl⟩ : ∃ j, min = j + 1 :=
          Nat.exists_eq_succ_of_ne_zero fun h => hne ⟨h, by rw [h]⟩
        simpa [evaltree2searchstr, Evaltree.width, Evaltree.stackNeed, Evaltree.nameBytes, upTo,
          copies] using fragment_copies hs.append_space j
      · obtain ⟨r, rfl⟩ : ∃ r, m = min + (r + 1) := ⟨m - min - 1, by omega⟩
        simpa [evaltree2searchstr, Evaltree.width, Evaltree.stackNeed, Evaltree.nameBytes, hopt]
          using fragment_copies_nested hs min r

theorem fragment_searchstr (t : Evaltree) (ht : t.Admissible) :
    Fragment (evaltree2searchstr t) (Language.map (Nat.toDigits 10) t.language) t.width t.stackNeed
      t.nameBytes := by
  induction t with
  | leaf i =>
    have hdigits : ∀ c ∈ Nat.toDigits 10 i, c ≠ '"' := by
      rintro c hc rfl
      exact absurd (Nat.isDigit_of_mem_toDigits (by decide) (by decide) hc) (by decide)
    have hlang : Language.map (Nat.toDigits 10) (Evaltree.leaf i).language =
        {[Nat.toDigits 10 i]} := Set.image_singleton
    rw [hlang]
    simpa [evaltree2searchstr, Evaltree.width, Evaltree.stackNeed, Evaltree.nameBytes] using
      (fragment_quoted hdigits).space.append_space
  | concat l r ihl ihr =>
    rw [Evaltree.language, map_mul]
    exact (ihl ht.1).append_space.append (ihr ht.2)
  | disj l r ihl ihr =>
    rw [Evaltree.language, map_add]
    simpa [evaltree2searchstr, Evaltree.width, Evaltree.stackNeed, Evaltree.nameBytes] using
      fragment_disj (ihl ht.1).space.append_space (ihr ht.2).space.append_space
  | repetition l min max ih => exact fragment_repetition (ih ht.1) ht.2.1 ht.2.2

theorem equal_not_mem_copies {s : List Char} (h : '=' ∉ s) (k : ℕ) : '=' ∉ copies k s := by
  induction k with
  | zero => exact not_mem_nil
  | succ k ih =>
    rw [copies_succ, mem_append, not_or]
    exact ⟨h, ih⟩

theorem equal_not_mem_searchstr (t : Evaltree) : '=' ∉ evaltree2searchstr t := by
  induction t with
  | leaf i =>
    have hdigits : '=' ∉ Nat.toDigits 10 i := fun hc =>
      absurd (Nat.isDigit_of_mem_toDigits (by decide) (by decide) hc) (by decide)
    simpa [evaltree2searchstr] using hdigits
  | concat l r ihl ihr => simp [evaltree2searchstr, ihl, ihr]
  | disj l r ihl ihr => simp [evaltree2searchstr, ihl, ihr]
  | repetition l min max ih =>
    have hmin := equal_not_mem_copies (s := evaltree2searchstr l ++ [' ']) (by simp [ih]) min
    simp only [evaltree2searchstr]
    split_ifs
    · simp [ih]
    · simp [ih]
    · simp [ih]
    · cases max with
      | none => simp [ih, hmin]
      | some m =>
        have hopt := equal_not_mem_copies (s := ['['] ++ evaltree2searchstr l ++ [' '])
          (by simp [ih]) (m - min)
        have hend := equal_not_mem_copies (s := [']']) (by decide) (m - min)
        simp only [mem_append, not_or]
        exact ⟨hmin, hopt, hend⟩

/-! ### The whole search string -/

/-- the parser as label `EXP` finds it -/
def ruleParser (s : List Char) (id : Name) : Parser :=
  { Parser.init s with stack := [⟨.rule, 0⟩], id := id }

/-- Without `=` the first label only puts `RULE` on the stack; a name in front is handled as
label `EXP` would do it. -/
theorem lhs_step {s : List Char} (hs : Starts s) (heq : '=' ∉ s) :
    ∃ id m, parseStep (.atLhs (Parser.init s)) =
      parseStep^[m] ((ruleParser s id).lex fun l p => .atExp l p) := by
  have hframe : ∀ id k, (ruleParser s id).lex k = (Parser.init s).lex fun l p =>
      k l { p with tables := ⟨[], []⟩, stack := [⟨.rule, 0⟩], id := id } := fun id k =>
    lex_frame (Parser.init s) ⟨[], []⟩ [⟨.rule, 0⟩] id k
  have hlhs : parseStep (.atLhs (Parser.init s)) = (Parser.init s).lex fun (l : Lexical) p =>
      if l = .idenT then
        ({ p with id := p.lastW } : Parser).lex fun (l : Lexical) p =>
          if l = .equalT then p.push .equ 0 fun p => p.lex fun l p => .atExp l p
          else p.push .rule 0 fun p => p.make (.sym p.id) fun q p => .atEnd l q p
      else p.push .rule 0 fun p => .atExp l p := rfl
  rcases hs (Parser.init s) [] (append_nil s).symm (Nat.zero_le _) with
    ⟨m, hm⟩ | ⟨l, p, hl, hst, hp⟩
  · exact ⟨[], 0, by rw [hlhs, hm, hframe, hm]; rfl⟩
  rcases noEqual_lex (p := Parser.init s) heq with ⟨m, hm⟩ | ⟨l', p', -, hin, htab, hp'⟩
  · exact ⟨[], 0, by rw [hlhs, hm, hframe, hm]; rfl⟩
  obtain ⟨rfl, rfl⟩ :=
    ParseConfig.atExp.inj ((hp' fun l p => .atExp l p).symm.trans (hp fun l p => .atExp l p))
  have hpush : ∀ (p : Parser) k, p.stack = [] →
      p.push .rule 0 k = k { p with stack := [⟨.rule, 0⟩] } := by
    intro p k h
    rw [Parser.push, h]
    rfl
  by_cases hiden : l' = .idenT
  · subst hiden
    refine ⟨p'.lastW, 1, ?_⟩
    have hexp : parseStep^[1] ((ruleParser s p'.lastW).lex fun l p => .atExp l p) =
        ({ p' with tables := ⟨[], []⟩, stack := [⟨.rule, 0⟩], id := p'.lastW } : Parser).make
          (.sym p'.lastW) fun q p => p.lex fun l p => .atEnd l q p := by
      rw [hframe, hp]
      rfl
    rw [hexp, hlhs, hp, if_pos rfl]
    have hid : ∀ k, ({ p' with id := p'.lastW } : Parser).lex k = p'.lex fun l p =>
        k l { p with tables := p'.tables, stack := p'.stack, id := p'.lastW } := fun k =>
      lex_frame p' p'.tables p'.stack p'.lastW k
    simp only [Parser.make]
    rw [hid, lex_frame p' (makeExp ⟨[], []⟩ (.sym p'.lastW)).2 [⟨.rule, 0⟩] p'.lastW]
    rcases noEqual_lex hin with ⟨m, hm⟩ | ⟨l₂, p₂, hl₂, -, -, hp₂⟩
    · rw [hm, hm]
    · rw [hp₂, hp₂, if_neg hl₂, hst, htab]
      rfl
  · refine ⟨p'.id, 0, ?_⟩
    have htab' : p'.tables = ⟨[], []⟩ := htab
    rw [hlhs, hp, if_neg hiden, hpush _ _ hst, Function.iterate_zero, id_eq, hframe, hp, ← htab']

def ParseConfig.Returned (L : Language Name) (c : ParseConfig) : Prop :=
  ∃ q p, c = .returned (some q) p ∧ p.errors = [] ∧ p.tables.language q = L

theorem final_fixed {L : Language Name} (c : ParseConfig) (h : ParseConfig.Returned L c ∨ c.Exited) :
    parseStep c = c := by
  rcases h with ⟨q, p, rfl, -⟩ | h
  · rfl
  · cases c <;> first | rfl | exact absurd h id

/-- A search string that is a fragment is parsed to a class with its language, or the
parser gives up on its size. -/
theorem parse_fragment {s : List Char} (hs : Fragment s L w n b) (heq : '=' ∉ s) :
    Attempt parseStep ParseConfig.Exited (1 + n ≤ stackMax ∧ b ≤ maxChar) (.atLhs (Parser.init s))
      (ParseConfig.Returned L) := by
  obtain ⟨id, m, hm⟩ := lhs_step hs.starts heq
  have hvalid : (ruleParser s id).Valid :=
    ⟨fun e q h => absurd h (by simp [ruleParser, Parser.init]), Nat.zero_le _,
      show 1 ≤ stackMax by decide, cons_ne_nil _ _⟩
  have hclose : Attempt parseStep ParseConfig.Exited (1 + n ≤ stackMax ∧ b ≤ maxChar)
      ((ruleParser s id).lex fun l p => .atExp l p) (ParseConfig.Returned L) := by
    have hend : Lexical.endT.Closes := trivial
    have hrun := hs.close hend lexes_nil hvalid (append_nil s).symm
    refine seq_done (congr hrun ?_) ?_
    · simp only [ruleParser, Parser.init, length_singleton, Nat.zero_add]
    rintro c ⟨q, p, rfl, -, hr, hprod⟩
    refine step_back (done ⟨q, p.pop, ?_, hr.errors, (product_singleton.mp hprod).2⟩)
    have hst : p.stack = [⟨.rule, 0⟩] := hr.stack
    simp only [parseStep, hst]
    rfl
  refine step_back ?_
  rw [hm]
  exact under_way final_fixed m hclose

theorem parse_searchstr (t : Evaltree) (ht : t.Admissible) :
    Attempt parseStep ParseConfig.Exited t.FitsParser (.atLhs (Parser.init (evaltree2searchstr t)))
      (ParseConfig.Returned (Language.map (Nat.toDigits 10) t.language)) :=
  parse_fragment (fragment_searchstr t ht) (equal_not_mem_searchstr t)

/-- `Parse` accepts a string without an error message. -/
def Accepts (searchstr : List Char) : Prop :=
  ∃ n q p, parse searchstr n = .returned (some q) p ∧ p.errors = []

theorem exits_of_not_fits {t : Evaltree} (ht : t.Admissible) (h : ¬t.FitsParser) :
    ¬∃ n q p, parse (evaltree2searchstr t) n = .returned (some q) p := by
  rintro ⟨n, q, p, hret⟩
  obtain ⟨m, hexit⟩ := (parse_searchstr t ht).2 h
  have hfix : ∀ c, (∃ v p, c = .returned v p) ∨ c.Exited → parseStep c = c := by
    rintro c (⟨v, p, rfl⟩ | h)
    · rfl
    · exact final_fixed (L := 0) c (.inr h)
  have hsame := fixed_unique hfix ⟨some q, p, hret⟩ hexit
  rw [← hsame] at hexit
  change (parse _ n).Exited at hexit
  rw [hret] at hexit
  exact hexit

theorem accepts_searchstr_iff (t : Evaltree) (ht : t.Admissible) :
    Accepts (evaltree2searchstr t) ↔ t.FitsParser := by
  refine ⟨fun ⟨n, q, p, hret, _⟩ => ?_, fun h => ?_⟩
  · by_contra hfits
    exact exits_of_not_fits ht hfits ⟨n, q, p, hret⟩
  · obtain ⟨n, q, p, hret, herr, -⟩ := (parse_searchstr t ht).1 h
    exact ⟨n, q, p, hret, herr⟩

/-- `atoi` on a name that is a decimal number -/
def atoi (name : Name) : ℕ := Nat.ofDigitChars 10 name 0

theorem map_atoi (L : Language ℕ) : Language.map atoi (Language.map (Nat.toDigits 10) L) = L := by
  have h : atoi ∘ Nat.toDigits 10 = id := funext fun n => Nat.ofDigitChars_ten_toDigits
  rw [Language.map_map, h, Language.map_id]

/-- `[0] ( [1]{2,4} | [0] )*` is accepted. -/
def sampleTree : Evaltree :=
  .concat (.leaf 0) (.repetition (.disj (.repetition (.leaf 1) 2 (some 4)) (.leaf 0)) 0 none)

theorem sampleTree_admissible : sampleTree.Admissible := by
  simp [sampleTree, Evaltree.Admissible]

end CWB

/-! When the blocks that `evaltree2searchstr` allocates are large enough, and when the automaton
generator accepts the string in the last one. -/

namespace CWB

open Faulting Regex2dfa

variable {t l r : Evaltree}

/-! ## Blocks -/

theorem putChars_ok_iff {size p : ℕ} {cs : List Char} :
    (∃ q, putChars size p cs = .ok q) ↔ cs = [] ∨ p + cs.length ≤ size := by
  induction cs generalizing p with
  | nil => simp [putChars]
  | cons c cs ih =>
    by_cases h : p < size
    · rw [putChars, if_pos h, ih, List.length_cons]
      refine ⟨fun hcs => .inr ?_, fun hcs => .inr ?_⟩
      · obtain rfl | hcs := hcs
        · exact h
        · omega
      · obtain hcs | hcs := hcs
        · cases hcs
        · omega
    · rw [putChars, if_neg h]
      refine ⟨fun ⟨q, hq⟩ => (nomatch hq), fun hcs => ?_⟩
      obtain hcs | hcs := hcs
      · cases hcs
      · rw [List.length_cons] at hcs
        omega

variable {b : List Char × ℕ} {text : List Char}

theorem fillBlock_ok_iff {length : ℕ} :
    fillBlock length text = .ok b ↔ text.length < length ∧ b = (text, length) := by
  unfold fillBlock
  rw [except_bind_ok]
  have hput : (∃ q, putChars length 0 (text ++ ['\x00']) = .ok q) ↔ _ := putChars_ok_iff
  rw [List.length_append, List.length_singleton, Nat.zero_add, Nat.succ_le_iff] at hput
  refine ⟨fun ⟨q, hq, hb⟩ => ⟨?_, (Except.ok.inj hb).symm⟩, fun ⟨hlen, hb⟩ => ?_⟩
  · obtain hnil | hlen := hput.1 ⟨q, hq⟩
    · simp at hnil
    · exact hlen
  · obtain ⟨q, hq⟩ := hput.2 (.inr hlen)
    exact ⟨q, hq, by rw [hb]; rfl⟩

variable {n : ℕ}

theorem checkedInt_ok_iff {m : ℕ} : checkedInt n = .ok m ↔ n ≤ intMax ∧ m = n := by
  unfold checkedInt
  split_ifs with h
  · rw [Except.ok.injEq]
    exact ⟨fun hm => ⟨h, hm.symm⟩, fun hm => hm.2.symm⟩
  · exact ⟨fun hm => (nomatch hm), fun hm => absurd hm.1 h⟩

/-- A length that is checked for the range of `int`, then a block of that length. -/
theorem checked_block_ok_iff :
    (checkedInt n >>= fun length => fillBlock length text) = .ok b ↔
      n ≤ intMax ∧ text.length < n ∧ b = (text, n) := by
  rw [except_bind_ok]
  simp only [checkedInt_ok_iff, fillBlock_ok_iff]
  refine ⟨fun ⟨m, ⟨hn, hm⟩, h⟩ => ?_, fun ⟨hn, h⟩ => ⟨n, ⟨hn, rfl⟩, h⟩⟩
  rw [hm] at h
  exact ⟨hn, h⟩

/-- A length that is computed in two steps. -/
theorem checked_twice_ok_iff {g : ℕ → ℕ} (h : n ≤ g n) :
    (checkedInt n >>= fun length => checkedInt (g length) >>= fun length => fillBlock length text) = .ok b ↔
      g n ≤ intMax ∧ text.length < g n ∧ b = (text, g n) := by
  rw [except_bind_ok]
  simp only [checkedInt_ok_iff, checked_block_ok_iff]
  refine ⟨fun ⟨m, ⟨_, hm⟩, hb⟩ => ?_, fun hb => ⟨n, ⟨h.trans hb.1, rfl⟩, hb⟩⟩
  rw [hm] at hb
  exact hb

theorem length_copies (n : ℕ) (s : List Char) : (copies n s).length = n * s.length := by
  simp [copies]

/-! ## The size of the printed tree -/

theorem toDigits_length (h : n ≤ maxPatterns) : (Nat.toDigits 10 n).length ≤ 4 :=
  (Nat.length_toDigits_le_iff (by decide) (by decide)).2 (lt_of_le_of_lt h (by decide))

/-- A byte to spare in every copy: together they have room for the final `NUL`. -/
theorem copies_size_lt {s b k r : ℕ} (h : s < b) (hpos : 0 < k ∨ 0 < r) :
    k * (s + 1) + (r * (1 + s + 1) + r * 1) < k * (b + 1) + r * (b + 4) := by
  have hcopies : k * (s + 1) + k ≤ k * (b + 1) := by
    rw [← Nat.mul_succ]
    exact Nat.mul_le_mul_left k (by omega)
  have hnested : r * (1 + s + 1) + r * 1 + r ≤ r * (b + 4) := by
    rw [← Nat.mul_add, ← Nat.mul_succ]
    exact Nat.mul_le_mul_left r (by omega)
  omega

/-- The formulas leave room for the string and its final `NUL`, but not without any repetition. -/
theorem length_lt_blockSize (t : Evaltree) (ht : t.NoZero) (hp : t.Parsed) :
    (evaltree2searchstr t).length < t.blockSize := by
  induction t with
  | leaf i => simp [evaltree2searchstr, Evaltree.blockSize]
  | concat l r ihl ihr =>
    have hl := ihl ht.1 hp.1
    have hr := ihr ht.2 hp.2
    simp only [evaltree2searchstr, Evaltree.blockSize, List.length_append, List.length_cons, List.length_nil]
    omega
  | disj l r ihl ihr =>
    have hl := ihl ht.1 hp.1
    have hr := ihr ht.2 hp.2
    simp only [evaltree2searchstr, Evaltree.blockSize, List.length_append, List.length_cons, List.length_nil]
    omega
  | repetition l min max ih =>
    obtain ⟨ht, hzero⟩ := ht
    have hl := ih ht hp.1
    simp only [evaltree2searchstr, Evaltree.blockSize]
    split_ifs
    · simp only [List.length_append, List.length_cons, List.length_nil]
      omega
    · simp only [List.length_append, List.length_cons, List.length_nil]
      omega
    · simp only [List.length_append, List.length_cons, List.length_nil]
      omega
    · cases max with
      | none =>
        simp only [List.length_append, List.length_cons, List.length_nil, length_copies, Nat.zero_add]
        have hcopies := Nat.mul_le_mul_left min (Nat.succ_le_succ hl.le)
        simp only [Nat.succ_eq_add_one] at hcopies
        omega
      | some m =>
        simp only [List.length_append, List.length_cons, List.length_nil, length_copies, Nat.zero_add]
        have hle := hp.2 m rfl
        have hpos : 0 < min ∨ 0 < m - min := by
          by_contra hnot
          refine hzero ⟨by omega, ?_⟩
          rw [show m = 0 by omega]
        exact copies_size_lt hl hpos

/-! ## The blocks of a tree -/

/-- A node with one operand, whose block is no smaller. -/
theorem block_of_operand {l : Evaltree} (ih : ∀ b, searchstrBlock l = .ok b ↔
      l.NoZero ∧ l.blockSize ≤ intMax ∧ b = (evaltree2searchstr l, l.blockSize))
    (hsize : l.blockSize ≤ n) (hfit : l.NoZero → text.length < n)
    {rest : List Char × ℕ → Except BufferFault (List Char × ℕ)}
    (hrest : rest (evaltree2searchstr l, l.blockSize) = .ok b ↔ n ≤ intMax ∧ text.length < n ∧ b = (text, n)) :
    (searchstrBlock l >>= rest) = .ok b ↔ l.NoZero ∧ n ≤ intMax ∧ b = (text, n) := by
  rw [except_bind_ok]
  refine ⟨fun ⟨a, ha, hb⟩ => ?_, fun ⟨hl, hn, hb⟩ => ?_⟩
  · obtain ⟨hl, -, rfl⟩ := (ih a).1 ha
    obtain ⟨hn, -, hb⟩ := hrest.1 hb
    exact ⟨hl, hn, hb⟩
  · exact ⟨_, (ih _).2 ⟨hl, hsize.trans hn, rfl⟩, hrest.2 ⟨hn, hfit hl, hb⟩⟩

/-- A node with two operands. -/
theorem block_of_operands {l r : Evaltree} (ihl : ∀ b, searchstrBlock l = .ok b ↔
      l.NoZero ∧ l.blockSize ≤ intMax ∧ b = (evaltree2searchstr l, l.blockSize))
    (ihr : ∀ b, searchstrBlock r = .ok b ↔
      r.NoZero ∧ r.blockSize ≤ intMax ∧ b = (evaltree2searchstr r, r.blockSize))
    (hsize : l.blockSize + r.blockSize ≤ n) (hfit : l.NoZero ∧ r.NoZero → text.length < n)
    {rest : List Char × ℕ → List Char × ℕ → Except BufferFault (List Char × ℕ)}
    (hrest : rest (evaltree2searchstr l, l.blockSize) (evaltree2searchstr r, r.blockSize) = .ok b ↔
      n ≤ intMax ∧ text.length < n ∧ b = (text, n)) :
    (searchstrBlock l >>= fun x => searchstrBlock r >>= fun y => rest x y) = .ok b ↔
      (l.NoZero ∧ r.NoZero) ∧ n ≤ intMax ∧ b = (text, n) := by
  simp only [except_bind_ok]
  refine ⟨fun ⟨x, hx, y, hy, hb⟩ => ?_, fun ⟨hz, hn, hb⟩ => ?_⟩
  · obtain ⟨hl, -, rfl⟩ := (ihl x).1 hx
    obtain ⟨hr, -, rfl⟩ := (ihr y).1 hy
    obtain ⟨hn, -, hb⟩ := hrest.1 hb
    exact ⟨⟨hl, hr⟩, hn, hb⟩
  · exact ⟨_, (ihl _).2 ⟨hz.1, by omega, rfl⟩, _, (ihr _).2 ⟨hz.2, by omega, rfl⟩, hrest.2 ⟨hn, hfit hz, hb⟩⟩

theorem blockSize_le_repetition {l : Evaltree} {min : ℕ} {max : Option ℕ} (hzero : ¬(min = 0 ∧ max = some 0))
    (hle : ∀ m, max = some m → min ≤ m) : l.blockSize ≤ (Evaltree.repetition l min max).blockSize := by
  simp only [Evaltree.blockSize]
  split_ifs
  · omega
  · omega
  · omega
  · cases max with
    | none => dsimp only; omega
    | some m =>
      have hle := hle m rfl
      have hpos : 1 ≤ min ∨ 1 ≤ m - min := by
        by_contra hnot
        refine hzero ⟨by omega, ?_⟩
        rw [show m = 0 by omega]
      dsimp only
      obtain hpos | hpos := hpos
      · have := Nat.mul_le_mul_right (l.blockSize + 1) hpos
        omega
      · have := Nat.mul_le_mul_right (l.blockSize + 4) hpos
        omega

theorem searchstrBlock_ok_iff (t : Evaltree) (hp : t.Parsed) (b : List Char × ℕ) :
    searchstrBlock t = .ok b ↔
      t.NoZero ∧ t.blockSize ≤ intMax ∧ b = (evaltree2searchstr t, t.blockSize) := by
  induction t generalizing b with
  | leaf i =>
    have hdigits := toDigits_length hp
    have hlen := length_lt_blockSize (.leaf i) trivial hp
    have hsize : (Evaltree.leaf i).blockSize = (evaltree2searchstr (.leaf i)).length + 1 := by
      simp [Evaltree.blockSize, evaltree2searchstr]
    have hnumstr : (evaltree2searchstr (.leaf i)).length < numstrSize := by
      simp only [evaltree2searchstr, List.length_append, List.length_cons, List.length_nil, numstrSize]
      omega
    have hmax : (Evaltree.leaf i).blockSize ≤ intMax :=
      hsize.trans_le (Nat.succ_le_of_lt (hnumstr.trans (by decide)))
    have hblock : searchstrBlock (.leaf i) = fillBlock numstrSize (evaltree2searchstr (.leaf i)) >>=
        fun x => fillBlock (x.1.length + 1) x.1 := rfl
    rw [hblock, except_bind_ok]
    simp only [fillBlock_ok_iff]
    refine ⟨fun ⟨a, ⟨_, ha⟩, _, hb⟩ => ⟨trivial, hmax, ?_⟩, fun ⟨_, _, hb⟩ => ⟨_, ⟨hnumstr, rfl⟩, ?_, ?_⟩⟩
    · rw [hb, ha, hsize]
    · exact Nat.lt_succ_self _
    · rw [hb, hsize]
  | concat l r ihl ihr =>
    have hlen := fun hz => length_lt_blockSize (.concat l r) hz hp
    simp only [searchstrBlock, Evaltree.NoZero]
    exact block_of_operands (ihl hp.1) (ihr hp.2) (by simp only [Evaltree.blockSize]; omega) hlen
      checked_block_ok_iff
  | disj l r ihl ihr =>
    have hlen := fun hz => length_lt_blockSize (.disj l r) hz hp
    simp only [searchstrBlock, Evaltree.NoZero]
    exact block_of_operands (ihl hp.1) (ihr hp.2) (by simp only [Evaltree.blockSize]; omega) hlen
      checked_block_ok_iff
  | repetition l min max ih =>
    by_cases hzero : min = 0 ∧ max = some 0
    · obtain ⟨rfl, rfl⟩ := hzero
      refine iff_of_false (fun h => ?_) (fun h => h.1.2 ⟨rfl, rfl⟩)
      simp only [searchstrBlock, except_bind_ok] at h
      obtain ⟨a, -, h⟩ := h
      rw [if_neg (by simp), if_neg (by simp), if_neg (by simp)] at h
      have hfit := ((checked_twice_ok_iff (g := fun n => n + (0 - 0) * (a.2 + 4)) (Nat.le_add_right _ _)).1 h).2.1
      simp at hfit
    · have hlen := fun hz => length_lt_blockSize (.repetition l min max) ⟨hz, hzero⟩ hp
      simp only [searchstrBlock, Evaltree.NoZero, and_iff_left hzero]
      refine block_of_operand (ih hp.1) (blockSize_le_repetition hzero hp.2) hlen ?_
      simp only [evaltree2searchstr, Evaltree.blockSize]
      split_ifs
      · exact checked_block_ok_iff
      · exact checked_block_ok_iff
      · exact checked_block_ok_iff
      · cases max with
        | none => exact checked_twice_ok_iff (g := fun n => n + l.blockSize + 5) (by omega)
        | some m =>
          exact checked_twice_ok_iff (g := fun n => n + (m - min) * (l.blockSize + 4)) (Nat.le_add_right _ _)

/-! ## The string of a query -/

/-- A tree without empty repetitions is printed with the name of a pattern in it. -/
theorem quote_mem_searchstr (t : Evaltree) (ht : t.NoZero) (hp : t.Parsed) : '"' ∈ evaltree2searchstr t := by
  induction t with
  | leaf i => simp [evaltree2searchstr]
  | concat l r ihl ihr => simp [evaltree2searchstr, ihl ht.1 hp.1]
  | disj l r ihl ihr => simp [evaltree2searchstr, ihl ht.1 hp.1]
  | repetition l min max ih =>
    have hl := ih ht.1 hp.1
    simp only [evaltree2searchstr]
    split_ifs
    · simp [hl]
    · simp [hl]
    · simp [hl]
    · cases max with
      | none => simp [hl]
      | some m =>
        have hle := hp.2 m rfl
        have hmem : ∀ k a b, 0 < k → '"' ∈ copies k (a ++ evaltree2searchstr l ++ b) := by
          intro k a b hk
          refine List.mem_flatten.2 ⟨_, List.mem_replicate.2 ⟨hk.ne', rfl⟩, ?_⟩
          simp [hl]
        rcases Nat.eq_zero_or_pos min with rfl | hmin
        · have hm : 0 < m - 0 := by
            by_contra hm
            exact ht.2 ⟨rfl, by rw [show m = 0 by omega]⟩
          exact List.mem_append_right _ (List.mem_append_left _ (hmem _ ['['] [' '] hm))
        · exact List.mem_append_left _ (hmem min [] [' '] hmin)

theorem not_vacuous_searchstr (t : Evaltree) (ht : t.NoZero) (hp : t.Parsed) :
    vacuous (evaltree2searchstr t) = false := by
  rw [vacuous, List.all_eq_false]
  exact ⟨'"', quote_mem_searchstr t ht hp, by decide⟩

theorem admissible_of_noZero (t : Evaltree) (ht : t.NoZero) (hp : t.Parsed) : t.Admissible := by
  induction t with
  | leaf i => trivial
  | concat l r ihl ihr => exact ⟨ihl ht.1 hp.1, ihr ht.2 hp.2⟩
  | disj l r ihl ihr => exact ⟨ihl ht.1 hp.1, ihr ht.2 hp.2⟩
  | repetition l min max ih => exact ⟨ih ht.1 hp.1, hp.2, ht.2⟩

/-- The blocks are large enough, no length overflows, and the string can be used. -/
def SearchstrSafe (t : Evaltree) : Prop :=
  ∃ b, searchstrBlock t = .ok b ∧ (vacuous b.1 = true ∨ Accepts b.1)

theorem searchstrBlock_safe_iff (t : Evaltree) (hp : t.Parsed) :
    SearchstrSafe t ↔ t.NoZero ∧ t.blockSize ≤ intMax ∧ t.FitsParser := by
  unfold SearchstrSafe
  simp only [searchstrBlock_ok_iff t hp]
  refine ⟨fun ⟨b, ⟨hz, hmax, hb⟩, haccept⟩ => ⟨hz, hmax, ?_⟩, fun ⟨hz, hmax, hfits⟩ => ⟨_, ⟨hz, hmax, rfl⟩, .inr ?_⟩⟩
  · subst hb
    obtain hvac | haccept := haccept
    · rw [not_vacuous_searchstr t hz hp] at hvac
      cases hvac
    · exact (accepts_searchstr_iff t (admissible_of_noZero t hz hp)).1 haccept
  · exact (accepts_searchstr_iff t (admissible_of_noZero t hz hp)).2 hfits

/-- `[0] {2,4} | [1]` -/
theorem searchstrBlock_safe_sample :
    SearchstrSafe (.disj (.repetition (.leaf 0) 2 (some 4)) (.leaf 1)) := by
  refine (searchstrBlock_safe_iff _ ?_).2 ⟨?_, ?_, ?_⟩
  · exact ⟨⟨Nat.zero_le _, fun m hm => by obtain rfl := Option.some.inj hm; decide⟩, show 1 ≤ maxPatterns by decide⟩
  · exact ⟨⟨trivial, by decide⟩, trivial⟩
  · decide
  · unfold Evaltree.FitsParser
    decide

/-- `[0] {0}`: no byte is allocated for the final `NUL`. -/
theorem searchstrBlock_zero_repetition :
    (Evaltree.repetition (.leaf 0) 0 (some 0)).Parsed ∧
      searchstrBlock (.repetition (.leaf 0) 0 (some 0)) = .error .overrun ∧
      ¬SearchstrSafe (.repetition (.leaf 0) 0 (some 0)) :=
  have hblock : searchstrBlock (.repetition (.leaf 0) 0 (some 0)) = .error .overrun := by decide
  ⟨⟨Nat.zero_le _, fun _ _ => Nat.zero_le _⟩, hblock, fun ⟨b, hb, _⟩ => by rw [hblock] at hb; cases hb⟩

end CWB
