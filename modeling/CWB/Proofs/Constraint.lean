import CWB.Sanity.Constraint

/-! The optimisation of constraints while they are parsed. What an expression says about
a token is `Truth`; every action of the parser builds a tree that denotes the meaning of its
parts put together. The ID lists of the tree are ascending, and strictly ascending unless
a variable names one lexicon entry twice. -/

namespace CWB

open List

namespace ConstraintCorpus

variable {P S : Type}

/-- The token fits the right-hand side of a comparison. -/
def Fits (corpus : ConstraintCorpus P S) (right : RelRHS P S) (token : String) : Prop :=
  match right with
  | .string s flags =>
    if flags = ignoreRegex ∨ plainString (corpus.latex2iso s) ∧ flags = 0 then
      token = corpus.latex2iso s
    else corpus.regexMatch (corpus.latex2iso s) flags token = true
  | .varRef varName => ∃ v ∈ corpus.findVariable varName, ∃ sval ∈ v.items, token = corpus.lookupForm sval
  | .attributeRef _ | .integer _ => False

/-- The truth of an expression over `=` and `!=` at a position, operator by operator. -/
def Truth (corpus : ConstraintCorpus P S) : BoolExpr P S → ℤ → Prop
  | .implies left right, cpos => Truth corpus left cpos → Truth corpus right cpos
  | .or left right, cpos => Truth corpus left cpos ∨ Truth corpus right cpos
  | .and left right, cpos => Truth corpus left cpos ∧ Truth corpus right cpos
  | .not left, cpos => ¬ Truth corpus left cpos
  | .relExpr (.pos attr) .cmpEq right, cpos => corpus.Fits right (corpus.tokenAt attr cpos)
  | .relExpr (.pos attr) .cmpNeq right, cpos => ¬ corpus.Fits right (corpus.tokenAt attr cpos)
  | .relExpr .., _ | .relExExpr _, _ => False

end ConstraintCorpus

namespace BoolExpr

variable {P S : Type}

/-- The expressions that compare positional attributes with strings and variables by `=` and `!=`. -/
def overStrings : BoolExpr P S → Bool
  | .implies left right | .or left right | .and left right => overStrings left && overStrings right
  | .not left => overStrings left
  | .relExpr (.pos _) op (.string _ _) | .relExpr (.pos _) op (.varRef _) => op = .cmpEq || op = .cmpNeq
  | .relExpr .. | .relExExpr _ => false

def subexprs : BoolExpr P S → List (BoolExpr P S)
  | e@(.implies left right) | e@(.or left right) | e@(.and left right) => e :: (subexprs left ++ subexprs right)
  | e@(.not left) => e :: subexprs left
  | e@(.relExpr ..) | e@(.relExExpr _) => [e]

/-- Every regular expression compiles and every variable is defined. -/
def accepted (corpus : ConstraintCorpus P S) : BoolExpr P S → Bool
  | .implies left right | .or left right | .and left right => accepted corpus left && accepted corpus right
  | .not left => accepted corpus left
  | .relExpr _ _ (.string s flags) => (corpus.doFlaggedString s flags).isSome
  | .relExpr _ _ (.varRef varName) => (corpus.findVariable varName).isSome
  | .relExpr .. | .relExExpr _ => true

end BoolExpr

/-- The ID lists of a tree. -/
def Constraint.idLists {P S : Type} : Constraint P S → List (List ℤ)
  | .bAnd left right | .bOr left right | .bImplies left right => idLists left ++ idLists right
  | .bNot left => idLists left
  | .idList _ items _ => [items]
  | .cmp .. | .cmpEx _ | .cnode _ => []

section Denotation

variable {P S : Type} [DecidableEq P] {corpus : ConstraintCorpus P S} {attr : P}
variable {left right : Constraint P S} {φ ψ : ℤ → Prop}

namespace ConstraintCorpus

theorem denotes_boolNot (hl : corpus.Denotes left φ) : corpus.Denotes (boolNot left) fun cpos => ¬ φ cpos := by
  unfold boolNot
  split
  · next val =>
    intro cpos hc
    have := (hl cpos hc).1
    cases val <;> simp [← this]
  · next attr items negated =>
    intro cpos hc
    have := (hl cpos hc).1
    cases negated <;> simp [← this]
  · next t =>
    intro cpos hc
    obtain ⟨hv, hr⟩ := hl cpos hc
    simp only [evalBool_bNot] at hv hr
    exact ⟨by simp [← hv], hr⟩
  · exact denotes_bNot hl

theorem denotes_boolAnd (hl : corpus.Denotes left φ) (hr : corpus.Denotes right ψ) :
    corpus.Denotes (boolAnd left right) fun cpos => φ cpos ∧ ψ cpos := by
  unfold boolAnd
  split
  · exact hl.congr fun cpos hc => by simp [← (hl cpos hc).1]
  · exact hr.congr fun cpos hc => by simp [← (hl cpos hc).1]
  · exact hr.congr fun cpos hc => by simp [← (hr cpos hc).1]
  · exact hl.congr fun cpos hc => by simp [← (hr cpos hc).1]
  · exact denotes_bAnd hl hr

theorem denotes_boolImplies (hl : corpus.Denotes left φ) (hr : corpus.Denotes right ψ) :
    corpus.Denotes (boolImplies left right) fun cpos => φ cpos → ψ cpos := by
  unfold boolImplies
  split
  · exact (denotes_cnode true).congr fun cpos hc => by simp [← (hl cpos hc).1]
  · exact hr.congr fun cpos hc => by simp [← (hl cpos hc).1]
  · exact (denotes_boolNot hl).congr fun cpos hc => by simp [← (hr cpos hc).1]
  · exact hr.congr fun cpos hc => by simp [← (hr cpos hc).1]
  · exact denotes_bImplies hl hr

/-- The two kinds of alternatives that `try_optimization` merges. -/
theorem alternatives_denotes {t : Constraint P S} {items : List ℤ} (h : t.alternatives = some (attr, items))
    (ho : t.Ordered (· ≤ ·)) : corpus.Denotes t (corpus.HasId attr items) := by
  unfold Constraint.alternatives at h
  split at h
  · next attr' id =>
    simp only [Option.some.injEq, Prod.mk.injEq] at h
    obtain ⟨rfl, rfl⟩ := h
    exact (denotes_cid .cmpEq (.inl rfl) attr' id).congr fun cpos _ => by simp
  · simp only [Option.some.injEq, Prod.mk.injEq] at h
    obtain ⟨rfl, rfl⟩ := h
    exact denotes_plainList ho.1
  · simp at h

/-- The union of two ID lists denotes the disjunction. -/
theorem denotes_unionItems {items items' : List ℤ} (hl : items.Pairwise (· ≤ ·) ∧ ∀ x ∈ items, 0 ≤ x)
    (hr : items'.Pairwise (· ≤ ·) ∧ ∀ x ∈ items', 0 ≤ x) :
    corpus.Denotes (.idList attr (unionItems items items') false)
      fun cpos => corpus.HasId attr items cpos ∨ corpus.HasId attr items' cpos := by
  obtain ⟨hmem, hsorted, -⟩ := unionItems_spec (fun _ _ h => le_of_lt h) (fun _ _ h => h) hl hr
  refine (denotes_plainList hsorted).congr fun cpos hc => ?_
  obtain ⟨id, hid, -⟩ := cpos2id_isSome hc attr
  rw [hasId_iff hid, hasId_iff hid, hasId_iff hid, hmem]

theorem denotes_tryOptimization (hol : left.Ordered (· ≤ ·)) (hor : right.Ordered (· ≤ ·))
    (hl : corpus.Denotes left φ) (hr : corpus.Denotes right ψ) :
    corpus.Denotes (tryOptimization left right) fun cpos => φ cpos ∨ ψ cpos := by
  unfold tryOptimization
  split
  · next leftAttr leftItems rightAttr rightItems ha ha' =>
    split_ifs with hattr
    · subst hattr
      have hφ : ∀ cpos, corpus.IsCpos cpos → (corpus.HasId leftAttr leftItems cpos ↔ φ cpos) :=
        fun cpos hc => (alternatives_denotes ha hol).unique hl hc
      have hψ : ∀ cpos, corpus.IsCpos cpos → (corpus.HasId leftAttr rightItems cpos ↔ ψ cpos) :=
        fun cpos hc => (alternatives_denotes ha' hor).unique hr hc
      have hlo := alternatives_ordered ha hol
      have hro := alternatives_ordered ha' hor
      split
      · exact (denotes_unionItems hro hlo).congr fun cpos hc => by rw [hφ cpos hc, hψ cpos hc, or_comm]
      · exact (denotes_unionItems hlo hro).congr fun cpos hc => by rw [hφ cpos hc, hψ cpos hc]
    · exact denotes_bOr hl hr
  · exact denotes_bOr hl hr

theorem denotes_boolOr (hol : left.Ordered (· ≤ ·)) (hor : right.Ordered (· ≤ ·))
    (hl : corpus.Denotes left φ) (hr : corpus.Denotes right ψ) :
    corpus.Denotes (boolOr left right) fun cpos => φ cpos ∨ ψ cpos := by
  unfold boolOr
  split
  · exact hr.congr fun cpos hc => by simp [← (hl cpos hc).1]
  · exact hl.congr fun cpos hc => by simp [← (hl cpos hc).1]
  · exact hl.congr fun cpos hc => by simp [← (hr cpos hc).1]
  · exact hr.congr fun cpos hc => by simp [← (hr cpos hc).1]
  · exact denotes_tryOptimization hol hor hl hr

theorem denotes_idList_op {items : List ℤ} (hs : items.Pairwise (· ≤ ·)) (op : CmpOp) :
    corpus.Denotes (.idList attr items (op ≠ .cmpEq)) fun cpos => corpus.HasId attr items cpos ↔ op = .cmpEq :=
  (denotes_idList hs _).congr fun cpos _ => by simp

theorem denotes_cnode_op (op : CmpOp) : corpus.Denotes (.cnode (op ≠ .cmpEq)) fun _ => ¬ op = .cmpEq :=
  (denotes_cnode _).congr fun cpos _ => by simp

/-- A regular expression as an ID list, or as its complement, or as a constant. -/
theorem denotes_regexConstraint (op : CmpOp) (sconst : String) (canon : ℕ) :
    corpus.Denotes (corpus.regexConstraint attr op sconst canon)
      fun cpos => corpus.regexMatch sconst canon (corpus.tokenAt attr cpos) = true ↔ op = .cmpEq := by
  have hs := sorted_collectMatchingIds corpus attr sconst canon
  have hmem : ∀ cpos, corpus.IsCpos cpos → (corpus.HasId attr (corpus.collectMatchingIds attr sconst canon) cpos ↔
      corpus.regexMatch sconst canon (corpus.tokenAt attr cpos) = true) := by
    intro cpos hc
    obtain ⟨id, hid, hlex⟩ := cpos2id_isSome hc attr
    rw [hasId_iff hid, tokenAt_eq hid, mem_collectMatchingIds]
    constructor
    · intro h
      obtain ⟨id', he, -, hm⟩ := h
      rwa [Int.ofNat_inj.mp he]
    · exact fun h => ⟨id, rfl, hlex, h⟩
  unfold regexConstraint
  simp only
  split_ifs with hzero hfull hfreq
  · refine (denotes_cnode_op op).congr fun cpos hc => ?_
    rw [← hmem cpos hc, length_eq_zero_iff.mp hzero]
    simp [HasId]
  · refine (denotes_cnode _).congr fun cpos hc => ?_
    have hall : ∀ id ∈ range (corpus.pos attr).lexsize,
        corpus.regexMatch sconst canon ((corpus.pos attr).id2str id) = true := by
      rw [← length_filter_eq_length_iff, length_range]
      simpa [collectMatchingIds] using hfull
    obtain ⟨id, hid, hlex⟩ := cpos2id_isSome hc attr
    rw [tokenAt_eq hid, hall id (mem_range.mpr hlex)]
    simp
  · obtain ⟨hinv, hsorted⟩ := invertItems_matching corpus attr sconst canon
    refine (denotes_idList (hsorted.imp fun h => le_of_lt h) _).congr fun cpos hc => ?_
    obtain ⟨id, hid, hlex⟩ := cpos2id_isSome hc attr
    rw [← hmem cpos hc, hasId_iff hid, hasId_iff hid, hinv]
    have hpos : (-1 : ℤ) < id ∧ (id : ℤ) < (corpus.pos attr).lexsize := by omega
    simp only [hpos.1, hpos.2, true_and, ne_eq, decide_not, Bool.not_not, decide_eq_false_iff_not]
    exact not_iff_not
  · exact (denotes_idList_op (hs.imp fun h => le_of_lt h) op).congr fun cpos hc => by rw [hmem cpos hc]

/-- A literal string, looked up in the lexicon. -/
theorem denotes_literal (op : CmpOp) (hop : op = .cmpEq ∨ op = .cmpNeq) (sconst : String) :
    corpus.Denotes (corpus.optimizeStringConstraint attr op (.normal sconst))
      fun cpos => corpus.tokenAt attr cpos = sconst ↔ op = .cmpEq := by
  unfold optimizeStringConstraint
  simp only
  cases hid : (corpus.pos attr).str2id sconst with
  | none =>
    refine (denotes_cnode_op op).congr fun cpos hc => ?_
    obtain ⟨id, htoken, hlex⟩ := cpos2id_isSome hc attr
    have hne : corpus.tokenAt attr cpos ≠ sconst := by
      intro he
      rw [tokenAt_eq htoken] at he
      exact PAttribute.str2id_eq_none.mp hid (he ▸ PAttribute.id2str_mem hlex)
    simp [hne]
  | some id =>
    obtain ⟨hlex, rfl⟩ := PAttribute.str2id_eq_some.mp hid
    refine (denotes_cid op hop attr id).congr fun cpos hc => ?_
    obtain ⟨tokenId, htoken, htlex⟩ := cpos2id_isSome hc attr
    rw [hasId_iff htoken, tokenAt_eq htoken, PAttribute.id2str_inj htlex hlex, mem_singleton, Int.ofNat_inj]

/-- A variable, replaced by the IDs of its strings. -/
theorem denotes_varref2IDList {varName : String} {v : Variable} (hv : corpus.findVariable varName = some v)
    (op : CmpOp) :
    ∃ t, corpus.varref2IDList attr op varName = some t ∧
      corpus.Denotes t (fun cpos => (∃ sval ∈ v.items, corpus.tokenAt attr cpos = corpus.lookupForm sval) ↔
        op = .cmpEq) := by
  have hmem : ∀ cpos, corpus.IsCpos cpos → (corpus.HasId attr (corpus.getVariableItems v attr) cpos ↔
      ∃ sval ∈ v.items, corpus.tokenAt attr cpos = corpus.lookupForm sval) := by
    intro cpos hc
    obtain ⟨id, hid, hlex⟩ := cpos2id_isSome hc attr
    rw [hasId_iff hid, tokenAt_eq hid, mem_getVariableItems]
    constructor
    · intro h
      obtain ⟨sval, hsval, id', he, -, hstr⟩ := h
      exact ⟨sval, hsval, by rwa [Int.ofNat_inj.mp he]⟩
    · intro h
      obtain ⟨sval, hsval, hstr⟩ := h
      exact ⟨sval, hsval, id, rfl, hlex, hstr⟩
  simp only [varref2IDList, hv, Option.bind_eq_bind, Option.bind_some]
  split_ifs with hlen
  · refine ⟨_, rfl, (denotes_cnode_op op).congr fun cpos hc => ?_⟩
    rw [← hmem cpos hc, length_eq_zero_iff.mp hlen]
    simp [HasId]
  · exact ⟨_, rfl, (denotes_idList_op (ascending_getVariableItems v attr) op).congr fun cpos hc => by
      rw [hmem cpos hc]⟩

/-- One comparison by `=` or `!=`. -/
theorem denotes_doRelExpr {op : CmpOp} (hop : op = .cmpEq ∨ op = .cmpNeq) {rhs : RelRHS P S}
    (hover : (BoolExpr.relExpr (.pos attr) op rhs).overStrings = true)
    (hacc : (BoolExpr.relExpr (.pos attr) op rhs).accepted corpus = true) :
    ∃ t, corpus.doRelExpr (.pos attr) op rhs = some t ∧
      corpus.Denotes t (fun cpos => corpus.Fits rhs (corpus.tokenAt attr cpos) ↔ op = .cmpEq) := by
  cases rhs with
  | attributeRef ref => simp [BoolExpr.overStrings] at hover
  | integer n => simp [BoolExpr.overStrings] at hover
  | string s flags =>
    simp only [doRelExpr, Fits]
    simp only [BoolExpr.accepted, doFlaggedString] at hacc
    simp only [doFlaggedString]
    split_ifs at hacc ⊢ with hplain hregex
    · exact ⟨_, rfl, denotes_literal op hop _⟩
    · refine ⟨_, rfl, ?_⟩
      simp only [optimizeStringConstraint]
      split_ifs
      · exact denotes_regexConstraint op _ _
      · exact denotes_regexp op attr _ _
    · simp at hacc
  | varRef varName =>
    obtain ⟨v, hv⟩ := Option.isSome_iff_exists.mp hacc
    obtain ⟨t, ht, hd⟩ := denotes_varref2IDList hv op
    exact ⟨t, ht, hd.congr fun cpos _ => by simp [Fits, hv]⟩

/-- The tree built for an expression denotes it, by induction over the expression. -/
theorem denotes_build (e : BoolExpr P S) (hover : e.overStrings = true) (hacc : e.accepted corpus = true) :
    ∃ t, corpus.build e = some t ∧ corpus.Denotes t (corpus.Truth e) := by
  induction e with
  | implies left right ihl ihr =>
    obtain ⟨hol, hor⟩ := Bool.and_eq_true_iff.mp hover
    obtain ⟨hal, har⟩ := Bool.and_eq_true_iff.mp hacc
    obtain ⟨l, hl, hdl⟩ := ihl hol hal
    obtain ⟨r, hr, hdr⟩ := ihr hor har
    exact ⟨_, by simp [build, hl, hr], denotes_boolImplies hdl hdr⟩
  | or left right ihl ihr =>
    obtain ⟨hol, hor⟩ := Bool.and_eq_true_iff.mp hover
    obtain ⟨hal, har⟩ := Bool.and_eq_true_iff.mp hacc
    obtain ⟨l, hl, hdl⟩ := ihl hol hal
    obtain ⟨r, hr, hdr⟩ := ihr hor har
    exact ⟨_, by simp [build, hl, hr], denotes_boolOr (ascending_build hl) (ascending_build hr) hdl hdr⟩
  | and left right ihl ihr =>
    obtain ⟨hol, hor⟩ := Bool.and_eq_true_iff.mp hover
    obtain ⟨hal, har⟩ := Bool.and_eq_true_iff.mp hacc
    obtain ⟨l, hl, hdl⟩ := ihl hol hal
    obtain ⟨r, hr, hdr⟩ := ihr hor har
    exact ⟨_, by simp [build, hl, hr], denotes_boolAnd hdl hdr⟩
  | not left ih =>
    obtain ⟨l, hl, hdl⟩ := ih hover hacc
    exact ⟨_, by simp [build, hl], denotes_boolNot hdl⟩
  | relExpr ref op rhs =>
    cases ref with
    | struc attr => simp [BoolExpr.overStrings] at hover
    | pos attr =>
      have hop : op = .cmpEq ∨ op = .cmpNeq := by
        cases rhs <;> simp [BoolExpr.overStrings] at hover <;> exact hover
      obtain ⟨t, ht, hd⟩ := denotes_doRelExpr hop hover hacc
      refine ⟨t, ht, hd.congr fun cpos _ => ?_⟩
      rcases hop with rfl | rfl <;> simp [Truth]
  | relExExpr ref => simp [BoolExpr.overStrings] at hover

end ConstraintCorpus

end Denotation

section Optimisation

variable {P S : Type}

namespace ConstraintCorpus

/-- No two strings of the variable name one entry of the lexicon. -/
def DistinctEntries (corpus : ConstraintCorpus P S) (attr : P) (v : Variable) : Prop :=
  v.items.Pairwise fun s s' => corpus.lookupForm s = corpus.lookupForm s' →
    corpus.lookupForm s ∉ (corpus.pos attr).lexicon

theorem strict_getVariableItems_iff {corpus : ConstraintCorpus P S} (v : Variable) (attr : P) :
    (corpus.getVariableItems v attr).Pairwise (· < ·) ↔ corpus.DistinctEntries attr v := by
  have hstrict : (corpus.getVariableItems v attr).Pairwise (· < ·) ↔ (corpus.getVariableItems v attr).Nodup := by
    constructor
    · exact fun h => h.imp fun hab => ne_of_lt hab
    · exact fun h => ((ascending_getVariableItems v attr).and h).imp fun hab => lt_of_le_of_ne hab.1 hab.2
  rw [hstrict, getVariableItems, (perm_insertionSort _ _).nodup_iff, DistinctEntries, List.Nodup,
    pairwise_filterMap]
  refine List.Pairwise.iff fun s s' => ?_
  -- two strings get one ID exactly if they are looked up as one string of the lexicon
  constructor
  · intro h heq hmem
    obtain ⟨id, hlt, hid⟩ := mem_iff_getElem.mp hmem
    have hstr : (corpus.pos attr).id2str id = corpus.lookupForm s := (PAttribute.id2str_eq hlt).trans hid
    rw [(corpus.pos attr).lexicon_length] at hlt
    exact h id (itemId_eq_some.mpr ⟨id, rfl, hlt, hstr⟩) id (itemId_eq_some.mpr ⟨id, rfl, hlt, hstr.trans heq⟩) rfl
  · intro h x hx y hy hxy
    obtain ⟨id, rfl, hlt, hstr⟩ := itemId_eq_some.mp hx
    obtain ⟨id', rfl, -, hstr'⟩ := itemId_eq_some.mp hy
    have heq : id = id' := Int.ofNat_inj.mp hxy
    subst heq
    apply h (hstr.symm.trans hstr')
    rw [← hstr]
    exact PAttribute.id2str_mem hlt

theorem strict_of_ordered {t : Constraint P S} (h : t.Ordered (· < ·)) : ∀ items ∈ t.idLists, items.Pairwise (· < ·) := by
  induction t with
  | bAnd left right ihl ihr | bOr left right ihl ihr | bImplies left right ihl ihr =>
    intro items hi
    rcases mem_append.mp hi with hi | hi
    · exact ihl h.1 items hi
    · exact ihr h.2 items hi
  | bNot left ih => exact ih h
  | idList attr items negated =>
    intro items' hi
    rw [mem_singleton.mp hi]
    exact h.1
  | cmp | cmpEx | cnode => simp [Constraint.idLists]

theorem subexprs_inherit (corpus : ConstraintCorpus P S) {e e' : BoolExpr P S} (h : e' ∈ e.subexprs) :
    (e.overStrings = true → e'.overStrings = true) ∧ (e.accepted corpus = true → e'.accepted corpus = true) ∧
      e'.varRefs ⊆ e.varRefs := by
  induction e with
  | implies left right ihl ihr | or left right ihl ihr | and left right ihl ihr =>
    simp only [BoolExpr.subexprs, mem_cons, mem_append] at h
    rcases h with rfl | h | h
    · exact ⟨id, id, List.Subset.refl _⟩
    · obtain ⟨h1, h2, h3⟩ := ihl h
      exact ⟨fun ho => h1 (Bool.and_eq_true_iff.mp ho).1, fun ha => h2 (Bool.and_eq_true_iff.mp ha).1,
        fun x hx => mem_append_left _ (h3 hx)⟩
    · obtain ⟨h1, h2, h3⟩ := ihr h
      exact ⟨fun ho => h1 (Bool.and_eq_true_iff.mp ho).2, fun ha => h2 (Bool.and_eq_true_iff.mp ha).2,
        fun x hx => mem_append_right _ (h3 hx)⟩
  | not left ih =>
    simp only [BoolExpr.subexprs, mem_cons] at h
    rcases h with rfl | h
    · exact ⟨id, id, List.Subset.refl _⟩
    · exact ih h
  | relExpr | relExExpr =>
    simp only [BoolExpr.subexprs, mem_singleton] at h
    subst h
    exact ⟨id, id, List.Subset.refl _⟩

/-- A variable reference is a subexpression of its own. -/
theorem relExpr_mem_subexprs {e : BoolExpr P S} {attr : P} {varName : String} (h : (attr, varName) ∈ e.varRefs) :
    ∃ op, .relExpr (.pos attr) op (.varRef varName) ∈ e.subexprs := by
  induction e with
  | implies left right ihl ihr | or left right ihl ihr | and left right ihl ihr =>
    rcases mem_append.mp h with h | h
    · obtain ⟨op, hop⟩ := ihl h
      exact ⟨op, mem_cons_of_mem _ (mem_append_left _ hop)⟩
    · obtain ⟨op, hop⟩ := ihr h
      exact ⟨op, mem_cons_of_mem _ (mem_append_right _ hop)⟩
  | not left ih =>
    obtain ⟨op, hop⟩ := ih h
    exact ⟨op, mem_cons_of_mem _ hop⟩
  | relExpr left op right =>
    cases left <;> cases right <;> simp [BoolExpr.varRefs] at h
    obtain ⟨rfl, rfl⟩ := h
    exact ⟨op, by simp [BoolExpr.subexprs]⟩
  | relExExpr left => simp [BoolExpr.varRefs] at h

variable [DecidableEq P]

/-- Every tree built on the way evaluates to the truth of its expression and has strictly
ascending ID lists, exactly if no variable names one lexicon entry twice. -/
theorem build_optimised_iff (corpus : ConstraintCorpus P S) (e : BoolExpr P S) (hover : e.overStrings = true)
    (hacc : e.accepted corpus = true) :
    (∀ e' ∈ e.subexprs, ∃ t, corpus.build e' = some t ∧
      (∀ cpos, corpus.IsCpos cpos →
        ((corpus.evalBool t cpos).1 = true ↔ corpus.Truth e' cpos) ∧ (corpus.evalBool t cpos).2 = true) ∧
      ∀ items ∈ t.idLists, items.Pairwise (· < ·)) ↔
    ∀ attr varName, (attr, varName) ∈ e.varRefs → ∀ v, corpus.findVariable varName = some v →
      corpus.DistinctEntries attr v := by
  constructor
  · intro h attr varName hmem v hv
    obtain ⟨op, hop⟩ := relExpr_mem_subexprs hmem
    obtain ⟨t, ht, -, hlists⟩ := h _ hop
    rw [← strict_getVariableItems_iff]
    simp only [build, doRelExpr, varref2IDList, hv, Option.bind_eq_bind, Option.bind_some] at ht
    split_ifs at ht with hlen
    · rw [length_eq_zero_iff.mp hlen]
      exact List.Pairwise.nil
    · obtain rfl := Option.some.inj ht
      exact hlists _ (mem_singleton.mpr rfl)
  · intro h e' he'
    obtain ⟨ho, ha, hv⟩ := subexprs_inherit corpus he'
    obtain ⟨t, ht, hd⟩ := denotes_build e' (ho hover) (ha hacc)
    refine ⟨t, ht, hd, strict_of_ordered ?_⟩
    exact ordered_build (fun _ _ h => h) (fun _ _ h => le_of_lt h) ht fun attr varName hmem v hfind =>
      (strict_getVariableItems_iff v attr).mpr (h attr varName (hv hmem) v hfind)

end ConstraintCorpus

end Optimisation

/-- A corpus of one attribute with the tokens `é`, `e`, `é`, and a word list with both spellings
of `é`, the second of them in two characters. The regular expressions are `.*` and `e.*`. -/
def accentCorpus (words : List String) (hw : words.Nodup) : ConstraintCorpus Unit Unit where
  size := 3
  pos _ :=
    { ids := [0, 1, 0], lexsize := 2, lexsize_pos := Nat.two_pos, id_lt := by decide, occurs := by decide
      lexicon := ["é", "e"], lexicon_nodup := by decide, lexicon_length := rfl }
  pos_size _ := rfl
  struc _ _ := none
  utf8 := true
  canonical s := if s = "e\u0301" then "é" else s
  latex2iso s := s
  newRegex s _ := s = ".*" || s = "e.*"
  regexMatch r _ s := r = ".*" || r = "e.*" && s.toList.head? = some 'e'
  regexMatch_all _ _ _ _ := by simp
  findVariable name := if name = "words" then some ⟨words, hw⟩ else none

/-- `word = $words | !(word = "e.*") -> word != "é"` -/
def accentExpr : BoolExpr Unit Unit :=
  .implies (.or (.relExpr (.pos ()) .cmpEq (.varRef "words"))
    (.not (.relExpr (.pos ()) .cmpEq (.string "e.*" 0)))) (.relExpr (.pos ()) .cmpNeq (.string "é" 0))

/-- With one spelling in the word list every tree of the expression is as it should be. -/
theorem build_accentExpr :
    accentExpr.varRefs = [((), "words")] ∧ ∀ e' ∈ accentExpr.subexprs, ∃ t,
      (accentCorpus ["é", "e"] (by decide)).build e' = some t ∧
      (∀ cpos, (accentCorpus ["é", "e"] (by decide)).IsCpos cpos →
        (((accentCorpus ["é", "e"] (by decide)).evalBool t cpos).1 = true ↔
          (accentCorpus ["é", "e"] (by decide)).Truth e' cpos) ∧
        ((accentCorpus ["é", "e"] (by decide)).evalBool t cpos).2 = true) ∧
      ∀ items ∈ t.idLists, items.Pairwise (· < ·) := by
  refine ⟨rfl, (ConstraintCorpus.build_optimised_iff (accentCorpus ["é", "e"] (by decide)) accentExpr
    (by decide) (by decide)).mpr ?_⟩
  intro attr varName hmem v hv
  obtain ⟨rfl, rfl⟩ : attr = () ∧ varName = "words" := by simpa [accentExpr, BoolExpr.varRefs] using hmem
  obtain rfl : ⟨["é", "e"], by decide⟩ = v := Option.some.inj hv
  unfold ConstraintCorpus.DistinctEntries
  decide

/-- With both spellings the ID of `é` is listed twice. -/
theorem build_both_spellings :
    ∃ items, (accentCorpus ["é", "e\u0301"] (by decide)).build (.relExpr (.pos ()) .cmpEq (.varRef "words")) =
      some (.idList () items false) ∧ ¬ items.Pairwise (· < ·) :=
  ⟨[0, 0], by decide, by decide⟩

end CWB
