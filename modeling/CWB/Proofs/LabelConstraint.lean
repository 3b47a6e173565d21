import CWB.Proofs.Constraint

/-! When the optimisation of comparisons with label references keeps their value and their effect on
the reference table. The tree that the parser builds agrees with the tree as it was entered if every
label is set, none is deleted, the operators are `=` and `!=` and no two comparisons can be merged.
Wherever one of these fails, some lexicon and some strings tell the two trees apart. -/

namespace CWB

open Option List

namespace LabelExpr

variable {P σ : Type}

/-- The expression without its strings. -/
def shape : LabelExpr P σ → LabelExpr P Unit
  | .or left right => .or (shape left) (shape right)
  | .not left => .not (shape left)
  | .relExpr ref op _ => .relExpr ref op ()

def comparisons : LabelExpr P σ → List (LabelRef P × CmpOp)
  | .or left right => comparisons left ++ comparisons right
  | .not left => comparisons left
  | .relExpr ref op _ => [(ref, op)]

/-- The attribute and the label of every comparison. -/
def keys (e : LabelExpr P σ) : List (P × ℕ) := e.comparisons.map fun c => (c.1.attr, c.1.label)

theorem comparisons_shape (e : LabelExpr P σ) : e.shape.comparisons = e.comparisons := by
  induction e with
  | or left right ihl ihr => simp only [shape, comparisons, ihl, ihr]
  | not left ih => exact ih
  | relExpr => rfl

theorem keys_or (left right : LabelExpr P σ) : (LabelExpr.or left right).keys = left.keys ++ right.keys := by
  simp [keys, comparisons]

end LabelExpr

namespace LabelConstraint

variable {P S : Type} [DecidableEq P]

/-- In every corpus and for all strings, the tree that the parser builds evaluates as the tree of
all comparisons does: to the same value, with the same labels deleted. -/
def Preserved (S : Type) (sh : LabelExpr P Unit) (rt : RefTab) : Prop :=
  ∀ (corpus : ConstraintCorpus P S) (fresh : LabelConstraint P → LabelConstraint P → Bool)
    (e : LabelExpr P FlaggedString), e.shape = sh → (∀ c ∈ sh.comparisons, rt c.1.label < corpus.size) →
    ∀ t plain, build corpus fresh e = some t → buildPlain corpus e = some plain →
      evalBool corpus t rt = evalBool corpus plain rt

/-- All labels are set and stay, the operators are `=` and `!=`, and no two comparisons agree in
attribute and label. -/
structure Harmless {σ : Type} (e : LabelExpr P σ) (rt : RefTab) : Prop where
  set : ∀ c ∈ e.comparisons, 0 ≤ rt c.1.label
  kept : ∀ c ∈ e.comparisons, c.1.delete = false
  op : ∀ c ∈ e.comparisons, c.2 = .cmpEq ∨ c.2 = .cmpNeq
  nodup : e.keys.Nodup

section Build

variable {corpus : ConstraintCorpus P S} {fresh : LabelConstraint P → LabelConstraint P → Bool}
variable {left right : LabelExpr P FlaggedString} {t : LabelConstraint P}

theorem build_or (h : build corpus fresh (.or left right) = some t) :
    ∃ l r, build corpus fresh left = some l ∧ build corpus fresh right = some r ∧ t = boolOr fresh l r := by
  obtain ⟨l, hl, h⟩ := bind_eq_some_iff.mp h
  obtain ⟨r, hr, h⟩ := bind_eq_some_iff.mp h
  exact ⟨l, r, hl, hr, (some.inj h).symm⟩

theorem build_not (h : build corpus fresh (.not left) = some t) :
    ∃ l, build corpus fresh left = some l ∧ t = boolNot l := by
  obtain ⟨l, hl, h⟩ := bind_eq_some_iff.mp h
  exact ⟨l, hl, (some.inj h).symm⟩

theorem build_relExpr {ref : LabelRef P} {op : CmpOp} {s : String} {flags : ℕ}
    (h : build corpus fresh (.relExpr ref op (s, flags)) = some t) :
    ∃ leaf, corpus.doFlaggedString s flags = some leaf ∧ t = optimizeStringConstraint corpus ref op leaf := by
  obtain ⟨leaf, hl, h⟩ := bind_eq_some_iff.mp h
  exact ⟨leaf, hl, (some.inj h).symm⟩

omit [DecidableEq P] in
theorem buildPlain_or (h : buildPlain corpus (.or left right) = some t) :
    ∃ l r, buildPlain corpus left = some l ∧ buildPlain corpus right = some r ∧ t = .bOr l r := by
  obtain ⟨l, hl, h⟩ := bind_eq_some_iff.mp h
  obtain ⟨r, hr, h⟩ := bind_eq_some_iff.mp h
  exact ⟨l, r, hl, hr, (some.inj h).symm⟩

omit [DecidableEq P] in
theorem buildPlain_not (h : buildPlain corpus (.not left) = some t) :
    ∃ l, buildPlain corpus left = some l ∧ t = .bNot l := by
  obtain ⟨l, hl, h⟩ := bind_eq_some_iff.mp h
  exact ⟨l, hl, (some.inj h).symm⟩

omit [DecidableEq P] in
theorem buildPlain_relExpr {ref : LabelRef P} {op : CmpOp} {s : String} {flags : ℕ}
    (h : buildPlain corpus (.relExpr ref op (s, flags)) = some t) :
    ∃ leaf, corpus.doFlaggedString s flags = some leaf ∧ t = .cmp op ref leaf := by
  obtain ⟨leaf, hl, h⟩ := bind_eq_some_iff.mp h
  exact ⟨leaf, hl, (some.inj h).symm⟩

end Build

section Evaluation

variable {corpus : ConstraintCorpus P S} {rt : RefTab}

/-- `bool_not` negates, whatever it is applied to. -/
theorem evalBool_boolNot (t : LabelConstraint P) :
    evalBool corpus (boolNot t) rt = ((!(evalBool corpus t rt).1.1, (evalBool corpus t rt).1.2), (evalBool corpus t rt).2) := by
  unfold boolNot
  split
  · rfl
  · next ref items negated => cases negated <;> simp [evalBool_idList_eq]
  · rw [evalBool_bNot_eq, Bool.not_not]
  · rfl

/-- At a set label that is not deleted, a comparison is the one without label at that position. -/
theorem evalBool_cmp {ref : LabelRef P} (hkept : ref.delete = false) (hset : 0 ≤ rt ref.label) (op : CmpOp)
    (leaf : StringLeaf) : evalBool corpus (.cmp op ref leaf) rt =
      (corpus.evalBool (.cmp op (.paRef ref.attr) (.stringLeaf leaf)) (rt ref.label), rt) := by
  simp only [evalBool_cmp_eq, referencedPosition, hkept, Bool.false_eq_true, if_false, if_neg (not_lt.mpr hset),
    ConstraintCorpus.evalBool]
  cases corpus.getLeafValue (.paRef ref.attr) (rt ref.label) with
  | none => rfl
  | some lhs => cases corpus.getLeafValue (.stringLeaf leaf) (rt ref.label) <;> rfl

theorem evalBool_optimizeStringConstraint {ref : LabelRef P} (hkept : ref.delete = false)
    (hset : 0 ≤ rt ref.label) (op : CmpOp) (leaf : StringLeaf) :
    evalBool corpus (optimizeStringConstraint corpus ref op leaf) rt =
      (corpus.evalBool (corpus.optimizeStringConstraint ref.attr op leaf) (rt ref.label), rt) := by
  have hlist : ∀ items negated, evalBool corpus (.idList ref items negated) rt =
      (corpus.evalBool (.idList ref.attr items negated) (rt ref.label), rt) := by
    intro items negated
    simp [evalBool_idList_eq, referencedPosition, hkept, ConstraintCorpus.evalBool]
  cases leaf with
  | normal sconst =>
    simp only [optimizeStringConstraint, ConstraintCorpus.optimizeStringConstraint]
    cases (corpus.pos ref.attr).str2id sconst with
    | none => rfl
    | some id => exact evalBool_cmp hkept hset op _
  | regexp sconst canon =>
    simp only [optimizeStringConstraint, ConstraintCorpus.optimizeStringConstraint, regexConstraint,
      ConstraintCorpus.regexConstraint]
    split_ifs
    · rfl
    · rfl
    · exact hlist _ _
    · exact hlist _ _
    · exact evalBool_cmp hkept hset op _
  | cid id => exact evalBool_cmp hkept hset op _

theorem evalBool_eq_of_denotes {c c' : Constraint P S} {φ : ℤ → Prop} (h : corpus.Denotes c φ)
    (h' : corpus.Denotes c' φ) {cpos : ℤ} (hc : corpus.IsCpos cpos) :
    corpus.evalBool c cpos = corpus.evalBool c' cpos := by
  obtain ⟨hval, hrun⟩ := h cpos hc
  obtain ⟨hval', hrun'⟩ := h' cpos hc
  exact Prod.ext (Bool.eq_iff_iff.mpr (hval.trans hval'.symm)) (hrun.trans hrun'.symm)

/-- One comparison, optimised and as it was entered. -/
theorem evalBool_leaf {ref : LabelRef P} {op : CmpOp} {s : String} {flags : ℕ} {leaf : StringLeaf}
    (hleaf : corpus.doFlaggedString s flags = some leaf) (hkept : ref.delete = false)
    (hset : 0 ≤ rt ref.label) (hsize : rt ref.label < corpus.size) (hop : op = .cmpEq ∨ op = .cmpNeq) :
    evalBool corpus (optimizeStringConstraint corpus ref op leaf) rt = evalBool corpus (.cmp op ref leaf) rt ∧
      ∃ b, evalBool corpus (.cmp op ref leaf) rt = ((b, true), rt) := by
  have hc : corpus.IsCpos (rt ref.label) := ⟨hset, hsize⟩
  rw [evalBool_optimizeStringConstraint hkept hset, evalBool_cmp hkept hset]
  cases leaf with
  | normal sconst =>
    have hd : corpus.Denotes (.cmp op (.paRef ref.attr) (.stringLeaf (.normal sconst))) _ :=
      ConstraintCorpus.denotes_normal op ref.attr sconst
    rw [evalBool_eq_of_denotes (ConstraintCorpus.denotes_literal op hop sconst) hd hc]
    exact ⟨rfl, _, Prod.ext (Prod.ext rfl (hd _ hc).2) rfl⟩
  | regexp sconst canon =>
    have hd : corpus.Denotes (.cmp op (.paRef ref.attr) (.stringLeaf (.regexp sconst canon))) _ :=
      ConstraintCorpus.denotes_regexp op ref.attr sconst canon
    refine ⟨?_, _, Prod.ext (Prod.ext rfl (hd _ hc).2) rfl⟩
    simp only [ConstraintCorpus.optimizeStringConstraint]
    split_ifs
    · rw [evalBool_eq_of_denotes (ConstraintCorpus.denotes_regexConstraint op sconst canon) hd hc]
    · rfl
  | cid id =>
    simp only [ConstraintCorpus.doFlaggedString] at hleaf
    split_ifs at hleaf <;> simp at hleaf

end Evaluation

/-- The attributes and labels of the nodes of a tree. -/
def keys : LabelConstraint P → List (P × ℕ)
  | .bOr left right => keys left ++ keys right
  | .bNot left => keys left
  | .cmp _ ref _ | .idList ref _ _ => [(ref.attr, ref.label)]
  | .cnode _ => []

variable {e : LabelExpr P FlaggedString}

section Keys

variable {corpus : ConstraintCorpus P S} {fresh : LabelConstraint P → LabelConstraint P → Bool}
variable {left right : LabelConstraint P} {key : P × ℕ}

omit [DecidableEq P] in
theorem alternatives_mem_keys {t : LabelConstraint P} {ref : LabelRef P} {items : List ℤ}
    (h : t.alternatives = some (ref, items)) : (ref.attr, ref.label) ∈ t.keys := by
  unfold alternatives at h
  split at h
  · obtain ⟨rfl, rfl⟩ := Prod.mk.inj (some.inj h)
    exact mem_singleton.mpr rfl
  · obtain ⟨rfl, rfl⟩ := Prod.mk.inj (some.inj h)
    exact mem_singleton.mpr rfl
  · simp at h

theorem keys_tryOptimization (h : key ∈ (tryOptimization fresh left right).keys) : key ∈ left.keys ++ right.keys := by
  unfold tryOptimization at h
  split at h
  · next leftRef leftItems rightRef rightItems ha _ =>
    split_ifs at h
    · apply mem_append_left
      have hkey : key = (leftRef.attr, leftRef.label) := by
        split at h <;> exact mem_singleton.mp h
      rw [hkey]
      exact alternatives_mem_keys ha
    · exact h
  · exact h

theorem keys_boolOr (h : key ∈ (boolOr fresh left right).keys) : key ∈ left.keys ++ right.keys := by
  unfold boolOr at h
  split at h
  · exact mem_append_right _ h
  · exact mem_append_left _ h
  · exact mem_append_left _ h
  · exact mem_append_right _ h
  · exact keys_tryOptimization h

omit [DecidableEq P] in
theorem keys_boolNot : (boolNot left).keys = left.keys := by
  unfold boolNot
  split <;> rfl

omit [DecidableEq P] in
theorem keys_optimizeStringConstraint {ref : LabelRef P} {op : CmpOp} {leaf : StringLeaf}
    (h : key ∈ (optimizeStringConstraint corpus ref op leaf).keys) : key = (ref.attr, ref.label) := by
  unfold optimizeStringConstraint regexConstraint at h
  simp only at h
  split at h
  · split_ifs at h <;> simp [keys] at h <;> exact h
  · split at h
    · simp [keys] at h
    · simpa [keys] using h
  · simpa [keys] using h

/-- The parser invents no attributes and labels. -/
theorem keys_build {t : LabelConstraint P} (ht : build corpus fresh e = some t)
    (h : key ∈ t.keys) : key ∈ e.keys := by
  induction e generalizing t with
  | or left right ihl ihr =>
    obtain ⟨l, r, hl, hr, rfl⟩ := build_or ht
    rw [LabelExpr.keys_or]
    rcases mem_append.mp (keys_boolOr h) with h | h
    · exact mem_append_left _ (ihl hl h)
    · exact mem_append_right _ (ihr hr h)
  | not left ih =>
    obtain ⟨l, hl, rfl⟩ := build_not ht
    rw [keys_boolNot] at h
    exact ih hl h
  | relExpr ref op s =>
    obtain ⟨leaf, -, rfl⟩ := build_relExpr ht
    exact mem_singleton.mpr (keys_optimizeStringConstraint h)

end Keys

variable {plain : LabelConstraint P}

section Harmless

variable {corpus : ConstraintCorpus P S} {fresh : LabelConstraint P → LabelConstraint P → Bool} {rt : RefTab}

omit [DecidableEq P] in
theorem Harmless.left {σ : Type} {left right : LabelExpr P σ} (h : Harmless (.or left right) rt) : Harmless left rt :=
  ⟨fun c hc => h.set c (mem_append_left _ hc), fun c hc => h.kept c (mem_append_left _ hc),
    fun c hc => h.op c (mem_append_left _ hc), (nodup_append.mp (LabelExpr.keys_or left right ▸ h.nodup)).1⟩

omit [DecidableEq P] in
theorem Harmless.right {σ : Type} {left right : LabelExpr P σ} (h : Harmless (.or left right) rt) : Harmless right rt :=
  ⟨fun c hc => h.set c (mem_append_right _ hc), fun c hc => h.kept c (mem_append_right _ hc),
    fun c hc => h.op c (mem_append_right _ hc),
    (nodup_append.mp (LabelExpr.keys_or left right ▸ h.nodup)).2.1⟩

/-- Trees without a common attribute and label are not merged. -/
theorem tryOptimization_of_disjoint {left right : LabelConstraint P}
    (h : ∀ key ∈ left.keys, key ∉ right.keys) : tryOptimization fresh left right = .bOr left right := by
  unfold tryOptimization
  split
  · next leftRef leftItems rightRef rightItems ha ha' =>
    rw [if_neg]
    intro heq
    apply h _ (alternatives_mem_keys ha)
    rw [heq.1, heq.2]
    exact alternatives_mem_keys ha'
  · rfl

/-- The disjunction of two trees that are evaluated without effect. -/
theorem evalBool_boolOr {left right : LabelConstraint P} {b b' : Bool}
    (hdisj : ∀ key ∈ left.keys, key ∉ right.keys) (hl : evalBool corpus left rt = ((b, true), rt))
    (hr : evalBool corpus right rt = ((b', true), rt)) :
    evalBool corpus (boolOr fresh left right) rt = ((b || b', true), rt) := by
  unfold boolOr
  split
  · obtain ⟨⟨rfl, -⟩, -⟩ : (false = b ∧ true = true) ∧ rt = rt := by simpa [evalBool_cnode_eq] using hl
    exact hr
  · obtain ⟨⟨rfl, -⟩, -⟩ : (true = b ∧ true = true) ∧ rt = rt := by simpa [evalBool_cnode_eq] using hl
    exact hl
  · obtain ⟨⟨rfl, -⟩, -⟩ : (false = b' ∧ true = true) ∧ rt = rt := by simpa [evalBool_cnode_eq] using hr
    rw [hl, Bool.or_false]
  · obtain ⟨⟨rfl, -⟩, -⟩ : (true = b' ∧ true = true) ∧ rt = rt := by simpa [evalBool_cnode_eq] using hr
    rw [hr, Bool.or_true]
  · rw [tryOptimization_of_disjoint hdisj, evalBool_bOr_eq, hl]
    cases b
    · simp [hr]
    · rfl

/-- By induction on the expression: the tree built and the tree as entered have one value, and
evaluating them leaves the table as it is. -/
theorem evalBool_build (h : Harmless e rt)
    (hsize : ∀ c ∈ e.comparisons, rt c.1.label < corpus.size) {t : LabelConstraint P}
    (ht : build corpus fresh e = some t) (hp : buildPlain corpus e = some plain) :
    ∃ b, evalBool corpus t rt = ((b, true), rt) ∧ evalBool corpus plain rt = ((b, true), rt) := by
  induction e generalizing t plain with
  | or left right ihl ihr =>
    obtain ⟨l, r, hl, hr, rfl⟩ := build_or ht
    obtain ⟨l', r', hl', hr', rfl⟩ := buildPlain_or hp
    obtain ⟨b, hb, hbp⟩ := ihl h.left (fun c hc => hsize c (mem_append_left _ hc)) hl hl'
    obtain ⟨b', hb', hbp'⟩ := ihr h.right (fun c hc => hsize c (mem_append_right _ hc)) hr hr'
    have hdisj : ∀ key ∈ l.keys, key ∉ r.keys := by
      intro key hkl hkr
      have hnodup := nodup_append.mp (LabelExpr.keys_or left right ▸ h.nodup)
      exact hnodup.2.2 _ (keys_build hl hkl) _ (keys_build hr hkr) rfl
    refine ⟨b || b', evalBool_boolOr hdisj hb hb', ?_⟩
    rw [evalBool_bOr_eq, hbp]
    cases b
    · simp [hbp']
    · rfl
  | not left ih =>
    obtain ⟨l, hl, rfl⟩ := build_not ht
    obtain ⟨l', hl', rfl⟩ := buildPlain_not hp
    obtain ⟨b, hb, hbp⟩ := ih ⟨h.set, h.kept, h.op, h.nodup⟩ hsize hl hl'
    refine ⟨!b, by rw [evalBool_boolNot, hb], by rw [evalBool_bNot_eq, hbp]⟩
  | relExpr ref op s =>
    obtain ⟨leaf, hleaf, rfl⟩ := build_relExpr ht
    obtain ⟨leaf', hleaf', rfl⟩ := buildPlain_relExpr hp
    obtain rfl := some.inj (hleaf.symm.trans hleaf')
    have hmem : (ref, op) ∈ (LabelExpr.relExpr ref op s).comparisons := mem_singleton.mpr rfl
    obtain ⟨heq, b, hb⟩ := evalBool_leaf hleaf (h.kept _ hmem) (h.set _ hmem) (hsize _ hmem) (h.op _ hmem)
    exact ⟨b, heq.trans hb, hb⟩

end Harmless

/-- A corpus of the tokens `a … a b` over the lexicon `a`, `b`, for every attribute. The regular
expressions are `.*` and a string followed by `.*`, which matches that string. -/
def lettersCorpus (P S : Type) (n : ℕ) : ConstraintCorpus P S where
  size := n + 3
  pos _ :=
    { ids := replicate (n + 2) 0 ++ [1], lexsize := 2, lexsize_pos := Nat.two_pos
      id_lt := by simp
      occurs := by
        intro id hid
        have : id = 0 ∨ id = 1 := by omega
        rcases this with rfl | rfl <;> simp
      lexicon := ["a", "b"], lexicon_nodup := by decide, lexicon_length := rfl }
  pos_size _ := by simp
  struc _ _ := none
  utf8 := true
  canonical s := s
  latex2iso s := s
  newRegex _ _ := true
  regexMatch r _ s := r = ".*" || r = s ++ ".*"
  regexMatch_all _ _ _ _ := by simp
  findVariable _ := none

section Letters

variable {n : ℕ} {fresh : LabelConstraint P → LabelConstraint P → Bool} {ref : LabelRef P} {op : CmpOp}

omit [DecidableEq P] in
theorem letters_doFlaggedString {s : String} (hs : plainString s = false) :
    (lettersCorpus P S n).doFlaggedString s 0 = some (.regexp s 0) := by
  have hflags : ¬ 0 = ignoreRegex := by decide
  simp [ConstraintCorpus.doFlaggedString, lettersCorpus, hs, hflags]

omit [DecidableEq P] in
theorem letters_collectMatchingIds (attr : P) (s : String) :
    (lettersCorpus P S n).collectMatchingIds attr s 0 =
      (if s = ".*" ∨ s = "a.*" then [0] else []) ++ (if s = ".*" ∨ s = "b.*" then [1] else []) := by
  have ha : "a" ++ ".*" = "a.*" := by decide
  have hb : "b" ++ ".*" = "b.*" := by decide
  by_cases h1 : s = ".*" <;> by_cases h2 : s = "a.*" <;> by_cases h3 : s = "b.*" <;>
    simp [ConstraintCorpus.collectMatchingIds, lettersCorpus, PAttribute.id2str, range_succ, h1, h2, h3, ha, hb]

/-- A regular expression that makes the comparison a constant: all entries match it or none. -/
def constantRegex (op : CmpOp) (val : Bool) : String := if val = decide (op = .cmpEq) then ".*" else "c.*"

theorem letters_build_constant (val : Bool) :
    build (lettersCorpus P S n) fresh (.relExpr ref op (constantRegex op val, 0)) = some (.cnode val) := by
  have hpos : 0 < 2 ∧ 2 < makeIdlistBound := by decide
  have hplain : plainString (constantRegex op val) = false := by
    unfold constantRegex
    split_ifs <;> decide
  have hlex : ((lettersCorpus P S n).pos ref.attr).lexsize = 2 := rfl
  simp only [build, letters_doFlaggedString hplain, bind_eq_bind, bind_some, optimizeStringConstraint, hlex,
    if_pos hpos, regexConstraint, letters_collectMatchingIds, some.injEq]
  unfold constantRegex
  by_cases hop : op = .cmpEq <;> cases val <;> simp [hop]

omit [DecidableEq P] in
theorem letters_freq (attr : P) : ((lettersCorpus P S n).pos attr).idlist2freq [0] = n + 2 ∧
    ((lettersCorpus P S n).pos attr).idlist2freq [1] = 1 := by
  simp [PAttribute.idlist2freq, lettersCorpus, count_replicate]

/-- An ID list: `a` is the more frequent entry, so its list is inverted, that of `b` is not. -/
theorem letters_build_list (S : Type) (n : ℕ) (fresh : LabelConstraint P → LabelConstraint P → Bool) (ref : LabelRef P)
    (op : CmpOp) (negated : Bool) : ∃ s items,
    build (lettersCorpus P S n) fresh (.relExpr ref op (s, 0)) = some (.idList ref items negated) := by
  have hpos : 0 < 2 ∧ 2 < makeIdlistBound := by decide
  have hlex : ((lettersCorpus P S n).pos ref.attr).lexsize = 2 := rfl
  have hsize : (lettersCorpus P S n).size = n + 3 := rfl
  obtain ⟨ha, hb⟩ := letters_freq (S := S) (n := n) ref.attr
  by_cases hneg : negated = decide (op ≠ .cmpEq)
  · have hplain : plainString "b.*" = false := by decide
    have hrare : ¬ 1 > (n + 3) / 2 := by omega
    refine ⟨"b.*", [1], ?_⟩
    simp only [build, letters_doFlaggedString hplain, bind_eq_bind, bind_some, optimizeStringConstraint,
      hlex, if_pos hpos, regexConstraint, letters_collectMatchingIds]
    simp [hb, hsize, hrare, hneg]
  · have hplain : plainString "a.*" = false := by decide
    have hfreq : n + 2 > (n + 3) / 2 := by omega
    refine ⟨"a.*", ConstraintCorpus.invertItems 2 (-1) [0], ?_⟩
    simp only [build, letters_doFlaggedString hplain, bind_eq_bind, bind_some, optimizeStringConstraint,
      hlex, if_pos hpos, regexConstraint, letters_collectMatchingIds]
    rw [Bool.eq_not.mpr hneg]
    simp [ha, hsize, hfreq]

end Letters

/-- The trees that the parser can build for a shape in the letters corpus. -/
def Buildable (S : Type) (n : ℕ) (fresh : LabelConstraint P → LabelConstraint P → Bool) (sh : LabelExpr P Unit)
    (t : LabelConstraint P) : Prop :=
  ∃ e : LabelExpr P FlaggedString, e.shape = sh ∧ build (lettersCorpus P S n) fresh e = some t

/-- An expression of comparisons that are constants in the letters corpus. -/
def constants : LabelExpr P Bool → LabelExpr P FlaggedString
  | .or left right => .or (constants left) (constants right)
  | .not left => .not (constants left)
  | .relExpr ref op val => .relExpr ref op (constantRegex op val, 0)

def value : LabelExpr P Bool → Bool
  | .or left right => value left || value right
  | .not left => !value left
  | .relExpr _ _ val => val

/-- The tree of `constants`, as it was entered. -/
def plainConstants : LabelExpr P Bool → LabelConstraint P
  | .or left right => .bOr (plainConstants left) (plainConstants right)
  | .not left => .bNot (plainConstants left)
  | .relExpr ref op val => .cmp op ref (.regexp (constantRegex op val) 0)

section Constants

variable {n : ℕ} {fresh : LabelConstraint P → LabelConstraint P → Bool} {rt : RefTab}

omit [DecidableEq P] in
theorem shape_constants (x : LabelExpr P Bool) : (constants x).shape = x.shape := by
  induction x with
  | or left right ihl ihr => simp only [constants, LabelExpr.shape, ihl, ihr]
  | not left ih => simp only [constants, LabelExpr.shape, ih]
  | relExpr => rfl

theorem build_constants (x : LabelExpr P Bool) :
    build (lettersCorpus P S n) fresh (constants x) = some (.cnode (value x)) := by
  induction x with
  | or left right ihl ihr =>
    simp only [constants, build, ihl, ihr, bind_eq_bind, bind_some, value]
    cases value left <;> cases value right <;> rfl
  | not left ih => simp [constants, build, ih, boolNot, value]
  | relExpr => exact letters_build_constant _

omit [DecidableEq P] in
theorem buildPlain_constants (x : LabelExpr P Bool) :
    buildPlain (lettersCorpus P S n) (constants x) = some (plainConstants x) := by
  induction x with
  | or left right ihl ihr => simp [constants, buildPlain, ihl, ihr, plainConstants]
  | not left ih => simp [constants, buildPlain, ih, plainConstants]
  | relExpr ref op val =>
    have hplain : plainString (constantRegex op val) = false := by
      unfold constantRegex
      split_ifs <;> decide
    simp [constants, buildPlain, letters_doFlaggedString hplain, plainConstants]

omit [DecidableEq P] in
theorem exists_value (sh : LabelExpr P Unit) (val : Bool) : ∃ x : LabelExpr P Bool, x.shape = sh ∧ value x = val := by
  induction sh generalizing val with
  | or left right ihl ihr =>
    obtain ⟨x, rfl, hx⟩ := ihl val
    obtain ⟨y, rfl, hy⟩ := ihr val
    exact ⟨.or x y, rfl, by simp [value, hx, hy]⟩
  | not left ih =>
    obtain ⟨x, rfl, hx⟩ := ih (!val)
    exact ⟨.not x, rfl, by simp [value, hx]⟩
  | relExpr ref op s => exact ⟨.relExpr ref op val, rfl, rfl⟩

theorem buildable_constant (sh : LabelExpr P Unit) (val : Bool) : Buildable S n fresh sh (.cnode val) := by
  obtain ⟨x, hx, hval⟩ := exists_value sh val
  exact ⟨constants x, (shape_constants x).trans hx, by rw [build_constants, hval]⟩

theorem buildable_or {left right : LabelExpr P Unit} {l r : LabelConstraint P} (hl : Buildable S n fresh left l)
    (hr : Buildable S n fresh right r) : Buildable S n fresh (.or left right) (boolOr fresh l r) := by
  obtain ⟨el, rfl, hl⟩ := hl
  obtain ⟨er, rfl, hr⟩ := hr
  exact ⟨.or el er, rfl, by simp [build, hl, hr]⟩

theorem buildable_not {left : LabelExpr P Unit} {l : LabelConstraint P} (hl : Buildable S n fresh left l) :
    Buildable S n fresh (.not left) (boolNot l) := by
  obtain ⟨el, rfl, hl⟩ := hl
  exact ⟨.not el, rfl, by simp [build, hl]⟩

/-- With a false constant on the other side a disjunction is the tree of its part. -/
theorem buildable_left {left : LabelExpr P Unit} (right : LabelExpr P Unit) {t : LabelConstraint P}
    (h : Buildable S n fresh left t) : Buildable S n fresh (.or left right) t := by
  have hor : boolOr fresh t (.cnode false) = t := by
    cases t with
    | cnode val => cases val <;> rfl
    | _ => rfl
  rw [← hor]
  exact buildable_or h (buildable_constant right false)

theorem buildable_right (left : LabelExpr P Unit) {right : LabelExpr P Unit} {t : LabelConstraint P}
    (h : Buildable S n fresh right t) : Buildable S n fresh (.or left right) t :=
  buildable_or (buildable_constant left false) h

end Constants

section Deletion

variable {corpus : ConstraintCorpus P S} {rt : RefTab}

omit [DecidableEq P] in
theorem referencedPosition_table (ref : LabelRef P) (rt : RefTab) (label : ℕ) :
    (referencedPosition ref rt).2 label = rt label ∨ (referencedPosition ref rt).2 label = -1 := by
  simp only [referencedPosition, RefTab.set]
  split_ifs
  · by_cases hl : label = ref.label
    · subst hl
      exact .inr (Function.update_self ..)
    · exact .inl (Function.update_of_ne hl ..)
  · exact .inl rfl

theorem evalBool_cmp_table (corpus : ConstraintCorpus P S) (op : CmpOp) (ref : LabelRef P) (leaf : StringLeaf)
    (rt : RefTab) : (evalBool corpus (.cmp op ref leaf) rt).2 = (referencedPosition ref rt).2 := by
  rw [evalBool_cmp_eq]
  split_ifs
  · rfl
  · split <;> rfl

/-- An evaluation does nothing to the table but delete labels. -/
theorem evalBool_table (corpus : ConstraintCorpus P S) (t : LabelConstraint P) (rt : RefTab)
    (label : ℕ) : (evalBool corpus t rt).2 label = rt label ∨ (evalBool corpus t rt).2 label = -1 := by
  induction t generalizing rt with
  | bOr left right ihl ihr =>
    rw [evalBool_bOr_eq]
    split_ifs
    · exact ihl rt
    · rcases ihr (evalBool corpus left rt).2 with h | h
      · simp only [h]
        exact ihl rt
      · exact .inr h
  | bNot left ih => exact ih rt
  | cmp op ref leaf =>
    rw [evalBool_cmp_table]
    exact referencedPosition_table ref rt label
  | cnode val => exact .inl rfl
  | idList ref items negated => exact referencedPosition_table ref rt label

/-- What a disjunction without effect on the table says about its parts. -/
theorem evalBool_bOr_cases {left right : LabelConstraint P} {val : Bool}
    (h : evalBool corpus (.bOr left right) rt = ((val, true), rt)) :
    (evalBool corpus left rt = ((true, true), rt) ∧ val = true) ∨
      (evalBool corpus left rt = ((false, true), rt) ∧ evalBool corpus right rt = ((val, true), rt)) := by
  rcases hl : evalBool corpus left rt with ⟨⟨l, running⟩, rt'⟩
  simp only [evalBool_bOr_eq, hl] at h
  cases l with
  | true =>
    obtain ⟨⟨rfl, rfl⟩, rfl⟩ : (true = val ∧ running = true) ∧ rt' = rt := by simpa using h
    exact .inl ⟨rfl, rfl⟩
  | false =>
    obtain ⟨⟨hval, hrun, hrun'⟩, htable⟩ : ((evalBool corpus right rt').1.1 = val ∧ running = true ∧
        (evalBool corpus right rt').1.2 = true) ∧ (evalBool corpus right rt').2 = rt := by simpa using h
    -- a label that the left part deletes stays deleted
    have hrt : rt' = rt := by
      funext label
      have h1 : rt' label = rt label ∨ rt' label = -1 := by
        have := evalBool_table corpus left rt label
        rwa [hl] at this
      rcases evalBool_table corpus right rt' label with h2 | h2
      · rw [← h2, htable]
      · rw [htable] at h2
        rcases h1 with h1 | h1
        · exact h1
        · rw [h1, h2]
    subst hrt
    subst hrun
    exact .inr ⟨rfl, Prod.ext (Prod.ext hval hrun') htable⟩

/-- A comparison can only be true at a set label, and does not change the table if it is not
deleted. -/
theorem set_of_evalBool_cmp {op : CmpOp} {ref : LabelRef P} {leaf : StringLeaf}
    (h : evalBool corpus (.cmp op ref leaf) rt = ((true, true), rt)) : 0 ≤ rt ref.label ∧ ref.delete = false := by
  have hset : 0 ≤ rt ref.label := by
    by_contra hneg
    have hlt : (referencedPosition ref rt).1 < 0 := not_le.mp hneg
    simp [evalBool_cmp_eq, hlt] at h
  refine ⟨hset, ?_⟩
  have htable := evalBool_cmp_table corpus op ref leaf rt
  rw [h] at htable
  cases hdelete : ref.delete with
  | false => rfl
  | true =>
    have hdel : rt ref.label = -1 := by
      have := congrFun htable ref.label
      simpa [referencedPosition, hdelete, RefTab.set] using this
    omega

/-- If all constants evaluate as they should, every label is set and none is deleted: by induction
on the shape, and for a part of a disjunction with a false constant in the other part. -/
theorem set_of_constants {sh : LabelExpr P Unit}
    (h : ∀ x : LabelExpr P Bool, x.shape = sh → evalBool corpus (plainConstants x) rt = ((value x, true), rt)) :
    ∀ c ∈ sh.comparisons, 0 ≤ rt c.1.label ∧ c.1.delete = false := by
  induction sh with
  | or left right ihl ihr =>
    have hor : ∀ x y : LabelExpr P Bool, x.shape = left → y.shape = right →
        evalBool corpus (.bOr (plainConstants x) (plainConstants y)) rt = ((value x || value y, true), rt) := by
      intro x y hx hy
      exact h (.or x y) (by rw [LabelExpr.shape, hx, hy])
    obtain ⟨x₀, hx₀, hvx⟩ := exists_value left false
    obtain ⟨y₀, hy₀, hvy⟩ := exists_value right false
    have hfalse := evalBool_bOr_cases (hor x₀ y₀ hx₀ hy₀)
    rw [hvx, hvy] at hfalse
    obtain ⟨hx₀false, hy₀false⟩ := hfalse.resolve_left fun h => Bool.noConfusion h.2
    intro c hc
    rcases mem_append.mp hc with hc | hc
    · refine ihl (fun x hx => ?_) c hc
      rcases evalBool_bOr_cases (hor x y₀ hx hy₀) with ⟨heval, hval⟩ | ⟨heval, hval⟩
      · rw [heval, ← hval, hvy, Bool.or_false]
      · have hv : false = (value x || value y₀) := by simpa [hy₀false] using hval
        rw [heval, hv, hvy, Bool.or_false]
    · refine ihr (fun y hy => ?_) c hc
      rcases evalBool_bOr_cases (hor x₀ y hx₀ hy) with ⟨heval, -⟩ | ⟨-, hval⟩
      · rw [hx₀false] at heval
        simp at heval
      · rw [hval, hvx, Bool.false_or]
  | not left ih =>
    refine ih fun x hx => ?_
    have hnot := h (.not x) (by rw [LabelExpr.shape, hx])
    simp only [plainConstants, evalBool_bNot_eq, value] at hnot
    obtain ⟨⟨hval, hrun⟩, htable⟩ : ((evalBool corpus (plainConstants x) rt).1.1 = value x ∧
        (evalBool corpus (plainConstants x) rt).1.2 = true) ∧
        (evalBool corpus (plainConstants x) rt).2 = rt := by simpa using hnot
    exact Prod.ext (Prod.ext hval hrun) htable
  | relExpr ref op s =>
    intro c hc
    rw [mem_singleton.mp hc]
    exact set_of_evalBool_cmp (h (.relExpr ref op true) rfl)

end Deletion

section Divergence

variable {n : ℕ} {fresh : LabelConstraint P → LabelConstraint P → Bool} {rt : RefTab} {sh : LabelExpr P Unit}

variable {corpus : ConstraintCorpus P S}

/-- Comparing with a string is no error, whatever the operator. -/
theorem plain_running
    (hp : buildPlain corpus e = some plain) (rt : RefTab) : (evalBool corpus plain rt).1.2 = true := by
  induction e generalizing plain rt with
  | or left right ihl ihr =>
    obtain ⟨l, r, hl, hr, rfl⟩ := buildPlain_or hp
    rw [evalBool_bOr_eq]
    split_ifs
    · exact ihl hl rt
    · simp only [ihl hl, ihr hr, Bool.and_self]
  | not left ih =>
    obtain ⟨l, hl, rfl⟩ := buildPlain_not hp
    exact ih hl rt
  | relExpr ref op s =>
    obtain ⟨leaf, hleaf, rfl⟩ := buildPlain_relExpr hp
    have hstring : ∃ sconst, ∀ cpos, corpus.getLeafValue (.stringLeaf leaf) cpos = some (.string sconst) := by
      cases leaf with
      | normal sconst => exact ⟨sconst, fun _ => rfl⟩
      | regexp sconst canon => exact ⟨sconst, fun _ => rfl⟩
      | cid id =>
        simp only [ConstraintCorpus.doFlaggedString] at hleaf
        split_ifs at hleaf <;> simp at hleaf
    obtain ⟨sconst, hsconst⟩ := hstring
    have hattr : ∀ cpos, corpus.getLeafValue (.paRef ref.attr) cpos =
        ((corpus.pos ref.attr).cpos2id cpos).map (.paref ref.attr) := fun _ => rfl
    simp only [evalBool_cmp_eq, hsconst, hattr]
    split_ifs
    · rfl
    · cases (corpus.pos ref.attr).cpos2id (referencedPosition ref rt).1 <;> rfl

theorem plain_table
    (hp : buildPlain corpus e = some plain) (hkept : ∀ c ∈ e.comparisons, c.1.delete = false) (rt : RefTab) :
    (evalBool corpus plain rt).2 = rt := by
  induction e generalizing plain rt with
  | or left right ihl ihr =>
    obtain ⟨l, r, hl, hr, rfl⟩ := buildPlain_or hp
    have hlt := ihl hl fun c hc => hkept c (mem_append_left _ hc)
    have hrt := ihr hr fun c hc => hkept c (mem_append_right _ hc)
    rw [evalBool_bOr_eq]
    split_ifs
    · exact hlt rt
    · simp only [hrt, hlt]
  | not left ih =>
    obtain ⟨l, hl, rfl⟩ := buildPlain_not hp
    exact ih hl hkept rt
  | relExpr ref op s =>
    obtain ⟨leaf, -, rfl⟩ := buildPlain_relExpr hp
    have hdelete : ref.delete = false := hkept (ref, op) (mem_singleton.mpr rfl)
    rw [evalBool_cmp_table]
    simp [referencedPosition, hdelete]

/-- Both trees exist if the regular expressions compile. -/
theorem buildPlain_of_build {t : LabelConstraint P}
    (ht : build corpus fresh e = some t) : ∃ plain, buildPlain corpus e = some plain := by
  induction e generalizing t with
  | or left right ihl ihr =>
    obtain ⟨l, r, hl, hr, -⟩ := build_or ht
    obtain ⟨pl, hpl⟩ := ihl hl
    obtain ⟨pr, hpr⟩ := ihr hr
    exact ⟨.bOr pl pr, by simp [buildPlain, hpl, hpr]⟩
  | not left ih =>
    obtain ⟨l, hl, -⟩ := build_not ht
    obtain ⟨pl, hpl⟩ := ih hl
    exact ⟨.bNot pl, by simp [buildPlain, hpl]⟩
  | relExpr ref op s =>
    obtain ⟨leaf, hleaf, -⟩ := build_relExpr ht
    exact ⟨.cmp op ref leaf, by simp [buildPlain, hleaf]⟩

omit [DecidableEq P] in
/-- The label refers to one of the tokens `a`. -/
theorem letters_cpos2id (attr : P) {cpos : ℤ} (h : 0 ≤ cpos) (hn : cpos < n + 2) :
    ((lettersCorpus P S n).pos attr).cpos2id cpos = some 0 := by
  have hlt : cpos.toNat < n + 2 := by omega
  simp [PAttribute.cpos2id, lettersCorpus, not_lt.mpr h, getElem?_append, hlt]

/-- An operator other than `=` and `!=` becomes an illegal comparison with an ID. -/
theorem buildable_illegal {c : LabelRef P × CmpOp} (hc : c ∈ sh.comparisons) (hop : c.2 ≠ .cmpEq ∧ c.2 ≠ .cmpNeq)
    (hset : 0 ≤ rt c.1.label) (hn : rt c.1.label < n + 2) (hkept : c.1.delete = false) :
    ∃ t, Buildable S n fresh sh t ∧ (evalBool (lettersCorpus P S n) t rt).1.2 = false := by
  induction sh with
  | or left right ihl ihr =>
    rcases mem_append.mp hc with hc | hc
    · obtain ⟨t, ht, hrun⟩ := ihl hc
      exact ⟨t, buildable_left right ht, hrun⟩
    · obtain ⟨t, ht, hrun⟩ := ihr hc
      exact ⟨t, buildable_right left ht, hrun⟩
  | not left ih =>
    obtain ⟨t, ht, hrun⟩ := ih hc
    exact ⟨boolNot t, buildable_not ht, by rw [evalBool_boolNot]; exact hrun⟩
  | relExpr ref op s =>
    obtain rfl := mem_singleton.mp hc
    have hleaf : (lettersCorpus P S n).doFlaggedString "a" 0 = some (.normal "a") := by
      have : plainString "a" = true := by decide
      simp [ConstraintCorpus.doFlaggedString, lettersCorpus, this]
    have hid : ((lettersCorpus P S n).pos ref.attr).str2id "a" = some 0 := by
      simp [PAttribute.str2id, lettersCorpus]
    refine ⟨.cmp op ref (.cid 0), ⟨.relExpr ref op ("a", 0), rfl, ?_⟩, ?_⟩
    · simp [build, hleaf, optimizeStringConstraint, hid]
    · rw [evalBool_cmp hkept hset]
      simp only [ConstraintCorpus.evalBool, ConstraintCorpus.getLeafValue, letters_cpos2id ref.attr hset hn, map_some,
        ConstraintCorpus.compare, CmpOp.equality]
      cases op with
      | cmpEq => exact absurd rfl hop.1
      | cmpNeq => exact absurd rfl hop.2
      | _ => rfl

/-- Every comparison can be an ID list, negated or not, with constants all around it. -/
theorem buildable_list (S : Type) (n : ℕ) (fresh : LabelConstraint P → LabelConstraint P → Bool)
    {c : LabelRef P × CmpOp} (hc : c ∈ sh.comparisons) (negated : Bool) :
    ∃ items, Buildable S n fresh sh (.idList c.1 items negated) := by
  induction sh generalizing negated with
  | or left right ihl ihr =>
    rcases mem_append.mp hc with hc | hc
    · obtain ⟨items, h⟩ := ihl hc negated
      exact ⟨items, buildable_left right h⟩
    · obtain ⟨items, h⟩ := ihr hc negated
      exact ⟨items, buildable_right left h⟩
  | not left ih =>
    obtain ⟨items, h⟩ := ih hc !negated
    exact ⟨items, by simpa [boolNot] using buildable_not h⟩
  | relExpr ref op s =>
    obtain rfl := mem_singleton.mp hc
    obtain ⟨s, items, h⟩ := letters_build_list S n fresh ref op negated
    exact ⟨items, .relExpr ref op (s, 0), rfl, h⟩

/-- Two ID lists of one attribute and label are merged, and the memory that the new node is made
of may delete the label. -/
theorem buildable_deletion (hset : ∀ c ∈ sh.comparisons, 0 ≤ rt c.1.label) (hdup : ¬ sh.keys.Nodup) :
    ∃ t, Buildable S n (fun _ _ => true) sh t ∧ (evalBool (lettersCorpus P S n) t rt).2 ≠ rt := by
  induction sh with
  | or left right ihl ihr =>
    by_cases hdl : left.keys.Nodup
    · by_cases hdr : right.keys.Nodup
      · have hcommon : ∃ c ∈ left.comparisons, ∃ c' ∈ right.comparisons,
            c.1.attr = c'.1.attr ∧ c.1.label = c'.1.label := by
          by_contra hnone
          push Not at hnone
          apply hdup
          rw [LabelExpr.keys_or]
          refine nodup_append.mpr ⟨hdl, hdr, fun key hl key' hr heq => ?_⟩
          obtain ⟨c, hc, rfl⟩ := mem_map.mp hl
          obtain ⟨c', hc', rfl⟩ := mem_map.mp hr
          exact hnone c hc c' hc' (congrArg Prod.fst heq) (congrArg Prod.snd heq)
        obtain ⟨c, hc, c', hc', hattr, hlabel⟩ := hcommon
        obtain ⟨items, hl⟩ := buildable_list S n (fun _ _ => true) hc false
        obtain ⟨items', hr⟩ := buildable_list S n (fun _ _ => true) hc' false
        refine ⟨_, buildable_or hl hr, fun htable => ?_⟩
        have hpos := hset c (mem_append_left _ hc)
        have hdel := congrFun htable c.1.label
        simp [boolOr, tryOptimization, alternatives, hattr, hlabel, evalBool, referencedPosition, RefTab.set] at hdel
        rw [hlabel] at hpos
        omega
      · obtain ⟨t, ht, htable⟩ := ihr (fun c hc => hset c (mem_append_right _ hc)) hdr
        exact ⟨t, buildable_right left ht, htable⟩
    · obtain ⟨t, ht, htable⟩ := ihl (fun c hc => hset c (mem_append_left _ hc)) hdl
      exact ⟨t, buildable_left right ht, htable⟩
  | not left ih =>
    obtain ⟨t, ht, htable⟩ := ih hset hdup
    exact ⟨boolNot t, buildable_not ht, by rw [evalBool_boolNot]; exact htable⟩
  | relExpr ref op s => exact absurd (nodup_singleton _) hdup

/-- Where one of the conditions fails there are a corpus and strings for which the two trees differ. -/
theorem harmless_of_preserved (h : Preserved S sh rt) : Harmless sh rt := by
  obtain ⟨n, hn⟩ : ∃ n : ℕ, ∀ c ∈ sh.comparisons, rt c.1.label < n + 2 := by
    refine ⟨(sh.comparisons.map fun c => (rt c.1.label).toNat).sum, fun c hc => ?_⟩
    have := le_sum_of_mem
      (mem_map_of_mem (f := fun c : LabelRef P × CmpOp => (rt c.1.label).toNat) hc)
    omega
  have hsize : ∀ c ∈ sh.comparisons, rt c.1.label < (lettersCorpus P S n).size := by
    intro c hc
    have := hn c hc
    have : ((lettersCorpus P S n).size : ℤ) = n + 3 := rfl
    omega
  have hset : ∀ c ∈ sh.comparisons, 0 ≤ rt c.1.label ∧ c.1.delete = false :=
    set_of_constants fun x hx => (h (lettersCorpus P S n) (fun _ _ => true) (constants x)
      ((shape_constants x).trans hx) hsize _ _ (build_constants x) (buildPlain_constants x)).symm
  -- any tree that the parser builds does what a tree of comparisons does
  have hkept : ∀ t, Buildable S n (fun _ _ => true) sh t → (evalBool (lettersCorpus P S n) t rt).1.2 = true ∧
      (evalBool (lettersCorpus P S n) t rt).2 = rt := by
    intro t ht
    obtain ⟨e, he, ht⟩ := ht
    obtain ⟨plain, hp⟩ := buildPlain_of_build ht
    rw [h _ _ e he hsize t plain ht hp]
    rw [← he, LabelExpr.comparisons_shape] at hset
    exact ⟨plain_running hp rt, plain_table hp (fun c hc => (hset c hc).2) rt⟩
  refine ⟨fun c hc => (hset c hc).1, fun c hc => (hset c hc).2, fun c hc => ?_, ?_⟩
  · by_contra hop
    obtain ⟨t, ht, hrun⟩ := buildable_illegal hc (not_or.mp hop) (hset c hc).1 (hn c hc) (hset c hc).2
    rw [(hkept t ht).1] at hrun
    exact Bool.noConfusion hrun
  · by_contra hdup
    obtain ⟨t, ht, htable⟩ := buildable_deletion (fun c hc => (hset c hc).1) hdup
    exact htable (hkept t ht).2

end Divergence

/-- The optimisation preserves the meaning of a combination of comparisons with label references,
whatever the lexicon and the strings, exactly if all labels are set and none is deleted, the
operators are `=` and `!=` and no attribute is compared twice at one label. -/
theorem preserved_iff (sh : LabelExpr P Unit) (rt : RefTab) : Preserved S sh rt ↔ Harmless sh rt := by
  refine ⟨harmless_of_preserved, fun h corpus fresh e he hsize t plain ht hp => ?_⟩
  subst he
  have hcomp := LabelExpr.comparisons_shape e
  have hkeys : e.shape.keys = e.keys := by rw [LabelExpr.keys, LabelExpr.keys, hcomp]
  have he : Harmless e rt :=
    ⟨hcomp ▸ h.set, hcomp ▸ h.kept, hcomp ▸ h.op, hkeys ▸ h.nodup⟩
  obtain ⟨b, hb, hbp⟩ := evalBool_build he (hcomp ▸ hsize) ht hp
  rw [hb, hbp]

/-- `a.word != "c.*"` with an undefined label `a`: without a matching entry in the lexicon the
comparison is folded to the constant true, as it was entered it is false. -/
theorem not_preserved : ¬ Preserved (P := Unit) Unit (.relExpr ⟨(), 0, false⟩ .cmpNeq ()) RefTab.reset := by
  intro h
  have heval := h (lettersCorpus Unit Unit 0) (fun _ _ => false) (.relExpr ⟨(), 0, false⟩ .cmpNeq ("c.*", 0)) rfl
    (by decide) (.cnode true) (.cmp .cmpNeq ⟨(), 0, false⟩ (.regexp "c.*" 0)) (by decide) (by decide)
  simp [evalBool, referencedPosition, RefTab.reset] at heval

end LabelConstraint

end CWB
