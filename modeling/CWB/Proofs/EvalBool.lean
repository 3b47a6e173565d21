import CWB.Library.Faulting
import CWB.Spec.EvalBool

/-! Which constraint trees `eval_bool` and `get_leaf_value` evaluate without running into an assertion. -/

namespace CWB.EvalBool

open List Option Faulting

variable {P S D F : Type} (corpus : EvalCorpus P S D F)

/-! ## The trees of the parser -/

mutual

/-- A tree that the grammar allows as an operand of a comparison or as a parameter. -/
def LeafFormed : Constrainttree P S D F → Prop
  | .func predef dynattr args nrArgs =>
    nrArgs = args.length ∧ 0 < nrArgs ∧ ParamsFormed args ∧
      ((∃ bfId bf, predef = (bfId : ℕ) ∧ builtinFunction[bfId]? = some bf ∧ nrArgs = bf.argtypes.length) ∨
        (predef = -1 ∧ dynattr.isSome))
  | .paRef attr label _ => attr.isSome ∨ label.isSome
  | .saRef attr label _ => label.isSome → corpus.strucValues attr = true
  | .stringLeaf _ | .intLeaf _ | .floatLeaf _ | .varRef _ => True
  | _ => False

def ParamsFormed : ActualParamList P S D F → Prop
  | .nil => True
  | .cons param next => LeafFormed param ∧ ParamsFormed next

end

/-- A comparison or a test for existence. -/
def ComparisonFormed (op : BOps) (left right : Constrainttree P S D F) : Prop :=
  left.isReference = true ∧ LeafFormed corpus left ∧
    ((op = .cmpEx ∧ right = .null) ∨ (op ≠ .cmpEx ∧ right.isValue = true ∧ LeafFormed corpus right))

/-- The trees of the grammar rule `BoolExpr`. -/
def Formed : Constrainttree P S D F → Prop
  | .bnode .bAnd left right | .bnode .bOr left right | .bnode .bImplies left right =>
    Formed left ∧ Formed right
  | .bnode .bNot left right => Formed left ∧ right = .null
  | .bnode op left right => ComparisonFormed corpus op left right
  | .cnode _ => True
  | .idList attr _ _ _ _ => attr.isSome
  | _ => False

variable {corpus} {t : Constrainttree P S D F}

theorem not_null_of_formed (h : Formed corpus t) : t.isNull = false := by
  cases t with
  | null => exact h.elim
  | _ => rfl

variable {left right : Constrainttree P S D F} {op : BOps}

theorem formed_comparison (hop : op ≠ .bAnd ∧ op ≠ .bOr ∧ op ≠ .bImplies ∧ op ≠ .bNot)
    :
    Formed corpus (.bnode op left right) ↔ ComparisonFormed corpus op left right := by
  obtain ⟨h1, h2, h3, h4⟩ := hop
  cases op with
  | bAnd => exact absurd rfl h1
  | bOr => exact absurd rfl h2
  | bImplies => exact absurd rfl h3
  | bNot => exact absurd rfl h4
  | _ => simp only [Formed]

theorem doLabelReference_formed {labelName attrName : String} {autoDelete : Bool}
    (h : doLabelReference corpus labelName attrName autoDelete = some t) :
    t.isReference = true ∧ LeafFormed corpus t := by
  unfold doLabelReference at h
  obtain ⟨lab, -, h⟩ := bind_eq_some_iff.1 h
  split at h
  · rw [some.injEq] at h
    subst h
    exact ⟨rfl, by simp [LeafFormed]⟩
  · split_ifs at h with hv
    rw [some.injEq] at h
    subst h
    exact ⟨rfl, by simp [LeafFormed, hv]⟩
  · cases h

theorem doIDReference_formed {idName : String} {autoDelete : Bool}
    (h : doIDReference corpus idName autoDelete = some t) : t.isReference = true ∧ LeafFormed corpus t := by
  unfold doIDReference at h
  split at h
  · split_ifs at h
    rw [some.injEq] at h
    subst h
    exact ⟨rfl, by simp [LeafFormed]⟩
  · rw [some.injEq] at h
    subst h
    exact ⟨rfl, by simp [LeafFormed]⟩
  · split_ifs at h
    rw [some.injEq] at h
    subst h
    exact ⟨rfl, by simp [LeafFormed]⟩
  · cases h

theorem functionCall_formed {fName : String} {apl : ActualParamList P S D F}
    (hpos : 0 < apl.length) (hapl : ParamsFormed corpus apl) (h : functionCall corpus fName apl = some t) :
    t.isReference = true ∧ LeafFormed corpus t := by
  unfold functionCall at h
  split at h
  · split at h
    · rename_i bf hbf
      split_ifs at h with hlen
      rw [some.injEq] at h
      subst h
      exact ⟨rfl, rfl, hpos, hapl, .inl ⟨_, bf, rfl, hbf, hlen⟩⟩
    · cases h
  · split at h
    · rw [some.injEq] at h
      subst h
      exact ⟨rfl, rfl, hpos, hapl, .inr ⟨rfl, rfl⟩⟩
    · cases h

mutual

theorem buildLHS_formed {lhs : RelLHS F} {t : Constrainttree P S D F} (h : buildLHS corpus lhs = some t) :
    t.isReference = true ∧ LeafFormed corpus t := by
  match lhs with
  | .labelReference labelName attrName autoDelete => exact doLabelReference_formed h
  | .id idName autoDelete => exact doIDReference_formed h
  | .functionCall fName args =>
    obtain ⟨apl, hapl, h⟩ := bind_eq_some_iff.1 h
    obtain ⟨hpos, hformed⟩ := buildArgs_formed hapl
    exact functionCall_formed hpos hformed h

theorem buildRHS_formed {rhs : RelRHS F} {t : Constrainttree P S D F} (h : buildRHS corpus rhs = some t) :
    LeafFormed corpus t ∧ (t.isValue = true ∨ ∃ varName, t = .varRef varName) := by
  match rhs with
  | .relLHS lhs =>
    obtain ⟨href, hformed⟩ := buildLHS_formed (show buildLHS corpus lhs = some t from h)
    refine ⟨hformed, .inl ?_⟩
    cases t <;> first | rfl | cases href
  | .string s flags | .reVariable varName flags =>
    obtain ⟨leaf, -, h⟩ := bind_eq_some_iff.1 h
    rw [some.injEq] at h
    subst h
    exact ⟨by simp [LeafFormed], .inl rfl⟩
  | .variable varName =>
    simp only [buildRHS] at h
    split_ifs at h
    rw [some.injEq] at h
    subst h
    exact ⟨by simp [LeafFormed], .inr ⟨varName, rfl⟩⟩
  | .integer n =>
    rw [buildRHS, some.injEq] at h
    subst h
    exact ⟨by simp [LeafFormed], .inl rfl⟩
  | .doubleFloat x =>
    rw [buildRHS, some.injEq] at h
    subst h
    exact ⟨by simp [LeafFormed], .inl rfl⟩

theorem buildArgs_formed {args : FunctionArgList F} {apl : ActualParamList P S D F}
    (h : buildArgs corpus args = some apl) : 0 < apl.length ∧ ParamsFormed corpus apl := by
  match args with
  | .single arg =>
    obtain ⟨param, hparam, h⟩ := bind_eq_some_iff.1 h
    rw [some.injEq] at h
    subst h
    exact ⟨Nat.succ_pos _, (buildRHS_formed hparam).1, trivial⟩
  | .cons arg args =>
    obtain ⟨param, hparam, h⟩ := bind_eq_some_iff.1 h
    obtain ⟨next, hnext, h⟩ := bind_eq_some_iff.1 h
    rw [some.injEq] at h
    subst h
    exact ⟨Nat.succ_pos _, (buildRHS_formed hparam).1, (buildArgs_formed hnext).2⟩

end

theorem relOp_ne (op : CmpOp) :
    (relOp op ≠ .bAnd ∧ relOp op ≠ .bOr ∧ relOp op ≠ .bImplies ∧ relOp op ≠ .bNot) ∧ relOp op ≠ .cmpEx := by
  cases op <;> decide

theorem comparison_formed (hop : (op ≠ .bAnd ∧ op ≠ .bOr ∧ op ≠ .bImplies ∧ op ≠ .bNot) ∧ op ≠ .cmpEx)
    (href : left.isReference = true) (hleft : LeafFormed corpus left)
    (hval : right.isValue = true) (hright : LeafFormed corpus right) :
    Formed corpus (.bnode op left right) :=
  (formed_comparison hop.1).2 ⟨href, hleft, .inr ⟨hop.2, hval, hright⟩⟩

theorem regexConstraint_formed (attr : P) (label : Option LabelEntry) (delete : Bool) (op : BOps)
    (sconst : String) (canon : ℕ) :
    Formed corpus (regexConstraint corpus attr label delete op sconst canon : Constrainttree P S D F) := by
  unfold regexConstraint
  dsimp only
  split_ifs
  · trivial
  · trivial
  · rfl
  · rfl

theorem optimizeStringConstraint_formed
    (hop : (op ≠ .bAnd ∧ op ≠ .bOr ∧ op ≠ .bImplies ∧ op ≠ .bNot) ∧ op ≠ .cmpEx) (attr : Option P)
    (label : Option LabelEntry) (delete : Bool) (right : StringLeaf)
    (href : LeafFormed corpus (.paRef attr label delete)) :
    Formed corpus (optimizeStringConstraint corpus attr label delete op right) := by
  have hcmp : ∀ leaf, Formed corpus (.bnode op (.paRef attr label delete) (.stringLeaf leaf)) :=
    fun leaf => comparison_formed hop rfl href rfl (by simp [LeafFormed])
  unfold optimizeStringConstraint
  split
  · split_ifs
    · exact regexConstraint_formed _ _ _ _ _ _
    · exact hcmp _
  · split
    · simp [Formed]
    · exact hcmp _
  · simp [Formed]
  · exact hcmp _

theorem varref2IDList_formed {attr : Option P} {label : Option LabelEntry} {delete : Bool} {varName : String}
    (h : varref2IDList corpus attr label delete op varName = some t) : Formed corpus t := by
  obtain ⟨v, -, h⟩ := bind_eq_some_iff.1 h
  obtain ⟨attr, -, h⟩ := bind_eq_some_iff.1 h
  dsimp only at h
  split_ifs at h
  · rw [← some.inj h]
    trivial
  · rw [← some.inj h]
    rfl

theorem doRelExpr_formed (hop : (op ≠ .bAnd ∧ op ≠ .bOr ∧ op ≠ .bImplies ∧ op ≠ .bNot) ∧ op ≠ .cmpEx)
    (href : left.isReference = true) (hleft : LeafFormed corpus left)
    (hright : LeafFormed corpus right) (hval : right.isValue = true ∨ ∃ varName, right = .varRef varName)
    (h : doRelExpr corpus left op right = some t) : Formed corpus t := by
  unfold doRelExpr at h
  split at h
  · exact varref2IDList_formed h
  · cases h
  · rw [some.injEq] at h
    rw [← h]
    exact optimizeStringConstraint_formed hop _ _ _ _ hleft
  · rename_i hvar _ _
    rw [some.injEq] at h
    rw [← h]
    obtain hval | ⟨varName, rfl⟩ := hval
    · exact comparison_formed hop href hleft hval hright
    · exact absurd rfl (hvar varName)

theorem tryOptimization_formed [DecidableEq P] (hleft : Formed corpus left) (hright : Formed corpus right) :
    Formed corpus (tryOptimization corpus left right) := by
  have hor : Formed corpus (.bnode .bOr left right) := ⟨hleft, hright⟩
  unfold tryOptimization
  split
  · split_ifs
    · split <;> simp [Formed]
    · exact hor
  · exact hor

theorem boolOr_formed [DecidableEq P]
    (hleft : Formed corpus left) (hright : Formed corpus right) : Formed corpus (boolOr corpus left right) := by
  unfold boolOr
  split
  · exact hright
  · exact hleft
  · exact hleft
  · exact hright
  · exact tryOptimization_formed hleft hright

theorem boolNot_formed (hleft : Formed corpus left) :
    Formed corpus (boolNot left) := by
  unfold boolNot
  split
  · simp [Formed]
  · simpa [Formed] using hleft
  · exact hleft.1
  · exact ⟨hleft, rfl⟩

theorem boolImplies_formed
    (hleft : Formed corpus left) (hright : Formed corpus right) : Formed corpus (boolImplies left right) := by
  unfold boolImplies
  split
  · simp [Formed]
  · exact hright
  · exact boolNot_formed hleft
  · exact hright
  · exact ⟨hleft, hright⟩

theorem boolAnd_formed
    (hleft : Formed corpus left) (hright : Formed corpus right) : Formed corpus (boolAnd left right) := by
  unfold boolAnd
  split
  · exact hleft
  · exact hright
  · exact hright
  · exact hleft
  · exact ⟨hleft, hright⟩

theorem buildBool_formed [DecidableEq P] {e : BoolExpr F} (h : buildBool corpus e = some t) : Formed corpus t := by
  induction e generalizing t with
  | implies left right ihl ihr =>
    obtain ⟨l, hl, h⟩ := bind_eq_some_iff.1 h
    obtain ⟨r, hr, h⟩ := bind_eq_some_iff.1 h
    rw [← some.inj h]
    exact boolImplies_formed (ihl hl) (ihr hr)
  | or left right ihl ihr =>
    obtain ⟨l, hl, h⟩ := bind_eq_some_iff.1 h
    obtain ⟨r, hr, h⟩ := bind_eq_some_iff.1 h
    rw [← some.inj h]
    exact boolOr_formed (ihl hl) (ihr hr)
  | and left right ihl ihr =>
    obtain ⟨l, hl, h⟩ := bind_eq_some_iff.1 h
    obtain ⟨r, hr, h⟩ := bind_eq_some_iff.1 h
    rw [← some.inj h]
    exact boolAnd_formed (ihl hl) (ihr hr)
  | not left ih =>
    obtain ⟨l, hl, h⟩ := bind_eq_some_iff.1 h
    rw [← some.inj h]
    exact boolNot_formed (ih hl)
  | relExpr left op right =>
    obtain ⟨l, hl, h⟩ := bind_eq_some_iff.1 h
    obtain ⟨r, hr, h⟩ := bind_eq_some_iff.1 h
    obtain ⟨href, hleft⟩ := buildLHS_formed hl
    obtain ⟨hright, hval⟩ := buildRHS_formed hr
    exact doRelExpr_formed (relOp_ne op) href hleft hright hval h
  | mval left op negated s flags =>
    obtain ⟨l, hl, h⟩ := bind_eq_some_iff.1 h
    obtain ⟨r, hr, h⟩ := bind_eq_some_iff.1 h
    obtain ⟨href, hleft⟩ := buildLHS_formed hl
    refine doRelExpr_formed ?_ href hleft (by simp [LeafFormed]) (.inl rfl) h
    cases negated <;> decide
  | relExExpr left =>
    obtain ⟨l, hl, h⟩ := bind_eq_some_iff.1 h
    obtain ⟨href, hleft⟩ := buildLHS_formed hl
    rw [← some.inj h]
    exact (formed_comparison (by decide)).2 ⟨href, hleft, .inl ⟨rfl, rfl⟩⟩

theorem build_formed [DecidableEq P] {e : TokenConstraint F} (h : build corpus e = some t) : Formed corpus t := by
  match e with
  | .string s flags =>
    obtain ⟨attr, -, h⟩ := bind_eq_some_iff.1 h
    obtain ⟨leaf, -, h⟩ := bind_eq_some_iff.1 h
    rw [← some.inj h]
    exact optimizeStringConstraint_formed (by decide) _ _ _ _ (by simp [LeafFormed])
  | .variable varName =>
    obtain ⟨attr, -, h⟩ := bind_eq_some_iff.1 h
    exact varref2IDList_formed h
  | .boolExpr e => exact buildBool_formed h
  | .matchAll =>
    rw [← some.inj h]
    simp [Formed]

/-! ## The values of leaves -/

/-- A value that every consumer can handle: a string is not the null pointer. -/
def Sound (v : DynCallResult P F) : Prop := v ≠ .var ∧ v ≠ .string none

/-- Parameters are delivered as strings, never as lexicon IDs. -/
def Delivered (v : DynCallResult P F) : Prop := Sound v ∧ ∀ attr tokenId, v ≠ .paref attr tokenId

theorem delivered_none : Delivered (.none : DynCallResult P F) := by simp [Delivered, Sound]

theorem delivered_int (n : ℤ) : Delivered (.int n : DynCallResult P F) := by simp [Delivered, Sound]

theorem delivered_pos (n : ℤ) : Delivered (.pos n : DynCallResult P F) := by simp [Delivered, Sound]

theorem delivered_string (s : String) : Delivered (.string (some s) : DynCallResult P F) := by
  simp [Delivered, Sound]

variable {v r : DynCallResult P F} {param : Constrainttree P S D F}

theorem delivered_boundOf {boundary : ℤ × ℤ → ℤ} (h : boundOf corpus boundary param v = some r) : Delivered r := by
  unfold boundOf at h
  split at h
  · split at h
    · rw [← some.inj h]
      exact delivered_none
    · rw [← some.inj h]
      exact delivered_int _
  · cases h

theorem delivered_bufferedString {s : List Char} (h : bufferedString s = some r) :
    Delivered r := by
  unfold bufferedString at h
  split_ifs at h
  rw [← some.inj h]
  exact delivered_string _

theorem delivered_cardinality {count : ℤ} (h : cardinality count = some r) :
    Delivered r := by
  unfold cardinality at h
  split_ifs at h
  rw [← some.inj h]
  exact delivered_int _

theorem delivered_builtinF (h : builtinF corpus param v = .ok (some r)) : Delivered r := by
  unfold builtinF at h
  split at h
  · split at h
    · cases h
      exact delivered_int _
    · cases h
      exact delivered_int _
    · obtain ⟨id, -, rfl⟩ := map_eq_some_iff.1 (Except.ok.inj h)
      exact delivered_int _
    · cases h
  · cases h

variable {apl : List (DynCallResult P F)} {args : ActualParamList P S D F} {bfId : ℕ}

theorem delivered_callBuiltin (h : callBuiltin corpus bfId apl args = .ok (some r)) : Delivered r := by
  unfold callBuiltin at h
  split at h
  · exact delivered_builtinF h
  · cases h; exact delivered_int _
  · cases h; exact delivered_int _
  · cases h; exact delivered_int _
  · obtain ⟨s, -, h⟩ := except_bind_ok.1 h
    obtain ⟨n, -, rfl⟩ := map_eq_some_iff.1 (Except.ok.inj h)
    exact delivered_int _
  · split at h
    · cases h; exact delivered_int _
    · cases h
  · split at h
    · cases h; exact delivered_int _
    · cases h
  · -- `unify`
    split_ifs at h
    · cases h
    · obtain ⟨t, -, h⟩ := except_bind_ok.1 h
      cases h; exact delivered_string _
    · obtain ⟨t, -, h⟩ := except_bind_ok.1 h
      obtain ⟨s, -, h⟩ := except_bind_ok.1 h
      obtain ⟨n, -, rfl⟩ := map_eq_some_iff.1 (Except.ok.inj h)
      exact delivered_string _
  · exact delivered_cardinality (Except.ok.inj h)
  · obtain ⟨s, -, h⟩ := except_bind_ok.1 h
    exact delivered_cardinality (Except.ok.inj h)
  · cases h; exact delivered_int _
  · cases h; exact delivered_int _
  · cases h; exact delivered_int _
  · split_ifs at h
    · cases h
    · obtain ⟨s, -, h⟩ := except_bind_ok.1 h
      obtain ⟨t, -, h⟩ := except_bind_ok.1 h
      exact delivered_bufferedString (Except.ok.inj h)
  · split_ifs at h
    · cases h
    · obtain ⟨s, -, h⟩ := except_bind_ok.1 h
      obtain ⟨t, -, h⟩ := except_bind_ok.1 h
      cases h; exact delivered_int _
  · split_ifs at h
    · cases h
    · obtain ⟨s, -, h⟩ := except_bind_ok.1 h
      obtain ⟨t, -, h⟩ := except_bind_ok.1 h
      exact delivered_bufferedString (Except.ok.inj h)
  · cases h; exact delivered_int _
  · -- `normalize`
    split at h
    · obtain ⟨s, -, h⟩ := except_bind_ok.1 h
      cases h; exact delivered_string _
    · cases h
    · cases h
  · exact delivered_boundOf (Except.ok.inj h)
  · exact delivered_boundOf (Except.ok.inj h)
  · cases h

theorem delivered_callPredefinedFunction
    (h : callPredefinedFunction corpus bfId apl args = .ok (some r)) : Delivered r := by
  unfold callPredefinedFunction at h
  split at h
  · cases h
  · split_ifs at h
    · cases h
    · cases h
    · cases h; exact delivered_none
    · exact delivered_callBuiltin h

theorem delivered_callDynamic {attr : D} {fargs : List (DynCallResult P F)}
    (h : corpus.callDynamic attr fargs = some r) : Delivered r := by
  obtain ⟨n, rfl⟩ | ⟨n, rfl⟩ | ⟨s, rfl⟩ | ⟨x, rfl⟩ := corpus.callDynamic_type attr fargs r h
  · exact delivered_pos n
  · exact delivered_int n
  · exact delivered_string s
  · simp [Delivered, Sound]

/-- What `get_leaf_value` returns: a sound value, and one that a parameter may have if it is one. -/
def LeafResult (deliverStrings : Bool) (r : Option (DynCallResult P F)) : Prop :=
  ∀ v, r = some v → Sound v ∧ (deliverStrings = true → Delivered v)

theorem leafResult_none (deliverStrings : Bool) :
    LeafResult deliverStrings (none : Option (DynCallResult P F)) := fun v hv => by cases hv

theorem leafResult_some (deliverStrings : Bool) (hv : Delivered v) :
    LeafResult deliverStrings (some v) := by
  intro w hw
  rw [← some.inj hw]
  exact ⟨hv.1, fun _ => hv⟩

theorem yields_evaluationError {α : Type} {result : α} {post : α → Prop} (h : post result) :
    Faulting.Yields (evaluationError result) post :=
  yields_bind (yields_true _) fun _ _ => yields_pure h

variable (corpus)

theorem getLeafValue_func_yields (corppos : ℤ) (predef : ℤ) (dynattr : Option D) (args : ActualParamList P S D F)
    (nrArgs : ℕ) (deliverStrings : Bool) :
    Faulting.Yields (getLeafValue corpus corppos (.func predef dynattr args nrArgs) deliverStrings)
      (LeafResult deliverStrings) := by
  simp only [getLeafValue]
  by_cases hn : nrArgs = 0
  · rw [if_pos hn]
    exact yields_pure (leafResult_none _)
  · rw [if_neg hn]
    refine yields_bind (yields_true _) fun r _ => ?_
    cases r with
    | none => exact yields_pure (leafResult_none _)
    | some fargs =>
      dsimp only
      by_cases hlen : fargs.length ≠ nrArgs
      · rw [if_pos hlen]
        exact yields_throw _ _
      · rw [if_neg hlen]
        split_ifs
        · split
          · exact yields_throw _ _
          · exact yields_evaluationError (leafResult_none _)
          · rename_i h
            exact yields_pure (leafResult_some _ (delivered_callPredefinedFunction h))
        · split
          · exact yields_throw _ _
          · apply yields_pure
            intro v hv
            exact leafResult_some _ (delivered_callDynamic hv) v rfl

theorem getLeafValue_paRef_yields (corppos : ℤ) (attr : Option P) (label : Option LabelEntry) (delete deliverStrings : Bool) :
    Faulting.Yields (getLeafValue corpus corppos (.paRef attr label delete) deliverStrings)
      (LeafResult deliverStrings) := by
  cases attr with
  | none =>
    cases label with
    | none => exact yields_throw _ _
    | some label =>
      exact yields_bind (yields_true _) fun position _ => yields_pure (leafResult_some _ (delivered_pos _))
  | some attr =>
    simp only [getLeafValue]
    refine yields_bind (yields_true _) fun position _ => ?_
    split_ifs with hundefined hdeliver
    · exact yields_pure (leafResult_some _ delivered_none)
    · apply yields_pure
      intro v hv
      obtain ⟨id, -, rfl⟩ := map_eq_some_iff.1 hv
      exact leafResult_some _ (delivered_string _) _ rfl
    · apply yields_pure
      intro v hv
      obtain ⟨id, -, rfl⟩ := map_eq_some_iff.1 hv
      exact ⟨by simp [Sound], fun h => absurd h hdeliver⟩

theorem getLeafValue_saRef_yields (corppos : ℤ) {attr : S} {label : Option LabelEntry} {delete : Bool}
    (ht : LeafFormed corpus (.saRef attr label delete)) (deliverStrings : Bool) :
    Faulting.Yields (getLeafValue corpus corppos (.saRef attr label delete) deliverStrings)
      (LeafResult deliverStrings) := by
  cases label with
  | none =>
    simp only [getLeafValue]
    split
    · exact yields_pure (leafResult_some _ (delivered_int _))
    · exact yields_pure (leafResult_some _ (delivered_int _))
  | some label =>
    simp only [getLeafValue]
    refine yields_bind (yields_true _) fun position _ => ?_
    split_ifs
    · exact yields_pure (leafResult_some _ delivered_none)
    · split
      · rename_i charres h
        cases charres with
        | none => exact absurd rfl (corpus.structureValue_ok attr position none (ht rfl) h)
        | some s => exact yields_pure (leafResult_some _ (delivered_string s))
      · exact yields_pure (leafResult_some _ delivered_none)
      · exact yields_pure (leafResult_none _)

theorem getLeafValue_yields (corppos : ℤ) (ht : LeafFormed corpus t) (deliverStrings : Bool) :
    Faulting.Yields (getLeafValue corpus corppos t deliverStrings) (LeafResult deliverStrings) := by
  cases t with
  | func predef dynattr args nrArgs => exact getLeafValue_func_yields corpus corppos predef dynattr args nrArgs deliverStrings
  | paRef attr label delete => exact getLeafValue_paRef_yields corpus corppos attr label delete deliverStrings
  | saRef attr label delete => exact getLeafValue_saRef_yields corpus corppos ht deliverStrings
  | stringLeaf leaf =>
    cases leaf with
    | cid cidconst => exact yields_pure (leafResult_some _ (delivered_int _))
    | normal sconst => exact yields_pure (leafResult_some _ (delivered_string _))
    | regexp sconst canon => exact yields_pure (leafResult_some _ (delivered_string _))
  | intLeaf iconst => exact yields_pure (leafResult_some _ (delivered_int _))
  | floatLeaf fconst => exact yields_throw _ _
  | varRef varName => exact yields_evaluationError (leafResult_none _)
  | null => exact absurd ht (by simp [LeafFormed])
  | bnode => exact absurd ht (by simp [LeafFormed])
  | cnode => exact absurd ht (by simp [LeafFormed])
  | sbound => exact absurd ht (by simp [LeafFormed])
  | idList => exact absurd ht (by simp [LeafFormed])

/-- Every parameter has a value if the parameters have values at all. -/
theorem getArgs_yields (corppos : ℤ) : ∀ (args : ActualParamList P S D F), ParamsFormed corpus args →
    Faulting.Yields (getArgs corpus corppos args args.length) fun r =>
      ∀ fargs, r = some fargs → fargs.length = args.length ∧ ∀ v ∈ fargs, Delivered v
  | .nil, _ => by
    apply yields_pure
    intro fargs hfargs
    rw [← some.inj hfargs]
    exact ⟨rfl, by simp⟩
  | .cons param next, hargs => by
    simp only [ActualParamList.length, getArgs]
    refine yields_bind (getLeafValue_yields corpus corppos hargs.1 true) fun r hr => ?_
    cases r with
    | none => exact yields_pure fun fargs hfargs => by cases hfargs
    | some arg =>
      refine yields_bind (getArgs_yields corppos next hargs.2) fun r' hr' => ?_
      cases r' with
      | none => exact yields_pure fun fargs hfargs => by cases hfargs
      | some rest =>
        obtain ⟨hlen, hrest⟩ := hr' rest rfl
        apply yields_pure
        intro fargs hfargs
        rw [← some.inj hfargs]
        refine ⟨by rw [length_cons, hlen], ?_⟩
        intro v hv
        obtain rfl | hv := mem_cons.1 hv
        · exact (hr v rfl).2 rfl
        · exact hrest v hv

/-! ## Where the evaluation goes wrong -/

/-- A reference to a positional attribute, with or without a label. -/
def Constrainttree.isAttribute : Constrainttree P S D F → Bool
  | .paRef (some _) _ _ => true
  | _ => false

/-- Two built-in functions do not expect everything that passes the check of the argument types: `f` needs
an attribute to look the string up, and `int` needs a string. -/
def BuiltinSafe (predef : ℤ) (fargs : List (DynCallResult P F)) (args : ActualParamList P S D F) : Prop :=
  (predef = 0 → (∀ v ∈ fargs, v.fits .string = true) → args.param.isAttribute = true) ∧
    (predef = 4 → .none ∉ fargs)

mutual

/-- `get_leaf_value` does not get to a float constant, nor to a call that is not safe. -/
def LeafSafe (corppos : ℤ) : Constrainttree P S D F → EvalState → Prop
  | .func predef _ args nrArgs, st =>
    ParamsSafe corppos args st ∧ ∀ fargs st', getArgs corpus corppos args nrArgs st = .ok (some fargs, st') →
      BuiltinSafe predef fargs args
  | .floatLeaf _, _ => False
  | _, _ => True

def ParamsSafe (corppos : ℤ) : ActualParamList P S D F → EvalState → Prop
  | .nil, _ => True
  | .cons param next, st =>
    LeafSafe corppos param st ∧ ∀ v st', getLeafValue corpus corppos param true st = .ok (some v, st') →
      ParamsSafe corppos next st'

end

/-- `eval_bool` does not get to such a leaf. -/
def Safe [DecidableEq P] (corppos : ℤ) : Constrainttree P S D F → EvalState → Prop
  | .bnode .bAnd left right, st | .bnode .bImplies left right, st =>
    Safe corppos left st ∧ ∀ st', evalBool corpus corppos left st = .ok (true, st') → Safe corppos right st'
  | .bnode .bOr left right, st =>
    Safe corppos left st ∧ ∀ st', evalBool corpus corppos left st = .ok (false, st') → Safe corppos right st'
  | .bnode .bNot left _, st => Safe corppos left st
  | .bnode op left right, st =>
    LeafSafe corpus corppos left st ∧ (op ≠ .cmpEx → ∀ v st',
      getLeafValue corpus corppos left false st = .ok (some v, st') → LeafSafe corpus corppos right st')
  | _, _ => True

variable {corpus}

@[simp] theorem returns_evaluationError {α : Type} (result : α) (st : EvalState) :
    Returns (evaluationError result) st ↔ True :=
  ⟨fun _ => trivial, fun _ => ⟨_, rfl⟩⟩

@[simp] theorem returns_labelPosition (label : Option LabelEntry) (delete : Bool) (corppos : ℤ)
    (st : EvalState) : Returns (labelPosition label delete corppos) st ↔ True := by
  refine ⟨fun _ => trivial, fun _ => ?_⟩
  cases label with
  | none => exact ⟨_, rfl⟩
  | some label => cases delete <;> exact ⟨_, rfl⟩

theorem referencedPosition_eq (label : LabelEntry) (delete : Bool) (corppos : ℤ) :
    referencedPosition label delete corppos = labelPosition (some label) delete corppos := rfl

/-- A string that was delivered for a parameter. -/
theorem stringArg_ok (hv : Delivered v) (hfit : v.fits .string = true)
    (hnone : v.isNone = false) (param : Option (Constrainttree P S D F)) :
    ∃ s, stringArg corpus param v = .ok s := by
  cases v with
  | string charres =>
    cases charres with
    | none => exact absurd rfl hv.1.2
    | some s => exact ⟨s, rfl⟩
  | paref attr tokenId => exact absurd rfl (hv.2 attr tokenId)
  | none => cases hnone
  | var => cases hfit
  | int n => cases hfit
  | pos n => cases hfit
  | float x => cases hfit

theorem builtinF_ok_iff (hv : Delivered v)
    (hfit : v.fits .string = true) : (∃ r, builtinF corpus param v = .ok r) ↔ param.isAttribute = true := by
  by_cases hattr : param.isAttribute = true
  · refine ⟨fun _ => hattr, fun _ => ?_⟩
    match param, hattr with
    | .paRef (some attr) label delete, _ =>
      cases v with
      | string charres =>
        cases charres with
        | none => exact absurd rfl hv.1.2
        | some s => exact ⟨_, rfl⟩
      | paref attr tokenId => exact ⟨_, rfl⟩
      | none => exact ⟨_, rfl⟩
      | var => cases hfit
      | int n => cases hfit
      | pos n => cases hfit
      | float x => cases hfit
  · refine ⟨fun ⟨r, hr⟩ => ?_, fun h => absurd h hattr⟩
    unfold builtinF at hr
    split at hr
    · exact absurd rfl hattr
    · cases hr

theorem stringPair {w : DynCallResult P F} (hapl : ∀ x ∈ [v, w], Delivered x)
    (hfit : ∀ a ∈ [v, w].zip [ArgType.string, .string], a.1.fits a.2 = true) :
    Delivered v ∧ Delivered w ∧ v.fits .string = true ∧ w.fits .string = true :=
  ⟨hapl v (by simp), hapl w (by simp), hfit (v, .string) (by simp), hfit (w, .string) (by simp)⟩

/-- A built-in function of two strings that are both defined. -/
theorem stringPair_ok {w : DynCallResult P F} (hapl : ∀ x ∈ [v, w], Delivered x)
    (hfit : ∀ a ∈ [v, w].zip [ArgType.string, .string], a.1.fits a.2 = true)
    (param : Option (Constrainttree P S D F)) (f : String → String → Option (DynCallResult P F)) :
    ∃ r, (if (v.isNone || w.isNone) = true then pure none
      else do
        let s ← stringArg corpus param v
        let t ← stringArg (S := S) (D := D) corpus none w
        pure (f s t) : Except Fault (Option (DynCallResult P F))) = .ok r := by
  obtain ⟨hv, hw, hfv, hfw⟩ := stringPair hapl hfit
  by_cases hnone : (v.isNone || w.isNone) = true
  · rw [if_pos hnone]
    exact ⟨_, rfl⟩
  · rw [if_neg hnone]
    rw [Bool.or_eq_true, not_or, Bool.not_eq_true, Bool.not_eq_true] at hnone
    obtain ⟨s, hs⟩ := stringArg_ok hv hfv hnone.1 param
    obtain ⟨t, ht⟩ := stringArg_ok hw hfw hnone.2 (none : Option (Constrainttree P S D F))
    rw [hs, ht]
    exact ⟨_, rfl⟩

theorem callBuiltin_ok (h0 : bfId ≠ 0) (h4 : bfId ≠ 4)
    {bf : BuiltinF} (hbf : builtinFunction[bfId]? = some bf) (hapl : ∀ v ∈ apl, Delivered v)
    (hfit : ∀ a ∈ apl.zip bf.argtypes, a.1.fits a.2 = true) (args : ActualParamList P S D F) :
    ∃ r, callBuiltin corpus bfId apl args = .ok r := by
  unfold callBuiltin
  split
  · exact absurd rfl h0
  · exact ⟨_, rfl⟩
  · exact ⟨_, rfl⟩
  · exact ⟨_, rfl⟩
  · exact absurd rfl h4
  · split <;> exact ⟨_, rfl⟩
  · split <;> exact ⟨_, rfl⟩
  · -- `unify`
    rename_i v w
    obtain rfl : (⟨"unify", [.string, .string]⟩ : BuiltinF) = bf := some.inj hbf
    obtain ⟨hv, hw, hfv, hfw⟩ := stringPair hapl hfit
    by_cases hnone : w.isNone = true
    · rw [if_pos hnone]
      exact ⟨_, rfl⟩
    · rw [if_neg hnone]
      obtain ⟨t, ht⟩ := stringArg_ok hw hfw (by rwa [Bool.not_eq_true] at hnone) (none : Option (Constrainttree P S D F))
      rw [ht]
      cases hvnone : v.isNone with
      | true => exact ⟨_, rfl⟩
      | false =>
        obtain ⟨s, hs⟩ := stringArg_ok hv hfv hvnone (some args.param)
        rw [hs]
        exact ⟨_, rfl⟩
  · exact ⟨_, rfl⟩
  · -- `ambiguity`
    rename_i v hnone
    obtain rfl : (⟨"ambiguity", [.string]⟩ : BuiltinF) = bf := some.inj hbf
    have hfv := hfit (v, .string) (mem_singleton_self _)
    have hnone' : v.isNone = false := by
      cases v with
      | none => exact absurd rfl hnone
      | _ => rfl
    obtain ⟨s, hs⟩ := stringArg_ok (hapl v (mem_singleton_self _)) hfv hnone' (some args.param)
    rw [hs]
    exact ⟨_, rfl⟩
  · exact ⟨_, rfl⟩
  · exact ⟨_, rfl⟩
  · exact ⟨_, rfl⟩
  · obtain rfl : (⟨"prefix", [.string, .string]⟩ : BuiltinF) = bf := some.inj hbf
    exact stringPair_ok hapl hfit _ _
  · obtain rfl : (⟨"is_prefix", [.string, .string]⟩ : BuiltinF) = bf := some.inj hbf
    exact stringPair_ok hapl hfit _ _
  · obtain rfl : (⟨"minus", [.string, .string]⟩ : BuiltinF) = bf := some.inj hbf
    exact stringPair_ok hapl hfit _ _
  · exact ⟨_, rfl⟩
  · -- `normalize`
    rename_i v w
    obtain rfl : (⟨"normalize", [.string, .string]⟩ : BuiltinF) = bf := some.inj hbf
    obtain ⟨hv, hw, hfv, hfw⟩ := stringPair hapl hfit
    split
    · rename_i mode hvnone
      obtain ⟨s, hs⟩ := stringArg_ok hv hfv hvnone (some args.param)
      rw [hs]
      exact ⟨_, rfl⟩
    · exact absurd rfl hw.1.2
    · exact ⟨_, rfl⟩
  · exact ⟨_, rfl⟩
  · exact ⟨_, rfl⟩
  · exact ⟨_, rfl⟩

theorem builtinSafe_of_ne (h0 : bfId ≠ 0) (h4 : bfId ≠ 4) (fargs : List (DynCallResult P F))
    (args : ActualParamList P S D F) : BuiltinSafe bfId fargs args :=
  ⟨fun h => absurd (by exact_mod_cast h) h0, fun h => absurd (by exact_mod_cast h) h4⟩

theorem callBuiltin_f (v : DynCallResult P F) (args : ActualParamList P S D F) :
    callBuiltin corpus 0 [v] args = builtinF corpus args.param v :=
  rfl

theorem callBuiltin_int (v : DynCallResult P F) (args : ActualParamList P S D F) :
    callBuiltin corpus 4 [v] args =
      (stringArg corpus (some args.param) v).bind fun s => .ok ((corpus.atoi s).map .int) :=
  rfl

theorem builtinF_call_iff (hv : Delivered v) (args : ActualParamList P S D F) :
    (∃ r, callPredefinedFunction corpus 0 [v] args = .ok r) ↔ BuiltinSafe 0 [v] args := by
  cases hfit : v.fits .string with
  | true =>
    have hcall : callPredefinedFunction corpus 0 [v] args = builtinF corpus args.param v := by
      simp [callPredefinedFunction, builtinFunction, hfit, callBuiltin_f]
    rw [hcall, builtinF_ok_iff hv hfit]
    simp [BuiltinSafe, hfit]
  | false =>
    have hnone : v.isNone = false := by
      cases v with
      | none => cases hfit
      | _ => rfl
    have hcall : callPredefinedFunction corpus 0 [v] args = .ok none := by
      simp [callPredefinedFunction, builtinFunction, hfit, hnone]
    rw [hcall]
    simp [BuiltinSafe, hfit]

theorem builtinInt_call_iff (hv : Delivered v) (args : ActualParamList P S D F) :
    (∃ r, callPredefinedFunction corpus 4 [v] args = .ok r) ↔ BuiltinSafe 4 [v] args := by
  cases hnone : v.isNone with
  | true =>
    obtain rfl : v = .none := by
      cases v with
      | none => rfl
      | _ => cases hnone
    have hcall : callPredefinedFunction corpus 4 [.none] args = .error .undefined := by
      simp [callPredefinedFunction, builtinFunction, DynCallResult.fits, callBuiltin_int, stringArg, Except.bind]
    rw [hcall]
    simp [BuiltinSafe]
  | false =>
    have hne : v ≠ .none := fun h => by rw [h] at hnone; cases hnone
    cases hfit : v.fits .string with
    | true =>
      obtain ⟨s, hs⟩ : ∃ s, stringArg corpus (some args.param) v = .ok s := stringArg_ok hv hfit hnone _
      have hcall : callPredefinedFunction corpus 4 [v] args = .ok ((corpus.atoi s).map .int) := by
        simp [callPredefinedFunction, builtinFunction, hfit, callBuiltin_int, hs, Except.bind]
      rw [hcall]
      simp [BuiltinSafe, hne.symm]
    | false =>
      have hcall : callPredefinedFunction corpus 4 [v] args = .ok none := by
        simp [callPredefinedFunction, builtinFunction, hfit, hnone]
      rw [hcall]
      simp [BuiltinSafe, hne.symm]

theorem callPredefinedFunction_ok_iff {bf : BuiltinF} (hbf : builtinFunction[bfId]? = some bf)
    (hlen : apl.length = bf.argtypes.length) (hapl : ∀ v ∈ apl, Delivered v)
    (args : ActualParamList P S D F) :
    (∃ r, callPredefinedFunction corpus bfId apl args = .ok r) ↔ BuiltinSafe bfId apl args := by
  by_cases h0 : bfId = 0
  · subst h0
    obtain rfl : (⟨"f", [.string]⟩ : BuiltinF) = bf := some.inj hbf
    obtain ⟨v, rfl⟩ := length_eq_one_iff.1 hlen
    exact builtinF_call_iff (hapl v (mem_singleton_self _)) args
  · by_cases h4 : bfId = 4
    · subst h4
      obtain rfl : (⟨"int", [.string]⟩ : BuiltinF) = bf := some.inj hbf
      obtain ⟨v, rfl⟩ := length_eq_one_iff.1 hlen
      exact builtinInt_call_iff (hapl v (mem_singleton_self _)) args
    · refine ⟨fun _ => builtinSafe_of_ne h0 h4 _ _, fun _ => ?_⟩
      unfold callPredefinedFunction
      rw [hbf]
      dsimp only
      rw [if_neg (not_not.2 hlen)]
      split_ifs with herror hnone
      · exact ⟨_, rfl⟩
      · exact ⟨_, rfl⟩
      · refine callBuiltin_ok h0 h4 hbf hapl (fun a ha => ?_) args
        by_contra hfit
        refine hnone (List.any_eq_true.2 ⟨a, ha, ?_⟩)
        rw [Bool.not_eq_true] at hfit
        rw [hfit]
        rfl

/-- A call returns if the parameters can be computed and are safe for the function. -/
theorem call_returns_iff {corppos : ℤ} {predef : ℤ} {dynattr : Option D}
    {nrArgs : ℕ} (ht : LeafFormed corpus (.func predef dynattr args nrArgs)) (deliverStrings : Bool)
    (st : EvalState) (hargs : Returns (getArgs corpus corppos args args.length) st ↔ ParamsSafe corpus corppos args st) :
    Returns (getLeafValue corpus corppos (.func predef dynattr args nrArgs) deliverStrings) st ↔
      LeafSafe corpus corppos (.func predef dynattr args nrArgs) st := by
  obtain ⟨rfl, hpos, hformed, hfunc⟩ := ht
  simp only [getLeafValue, LeafSafe]
  rw [if_neg hpos.ne', returns_bind_iff, hargs]
  refine and_congr_right fun _ => ⟨fun h fargs st' hf => ?_, fun h r st' hr => ?_⟩
  · obtain ⟨hlen, hdelivered⟩ := getArgs_yields corpus corppos args hformed st _ st' hf fargs rfl
    specialize h (some fargs) st' hf
    obtain ⟨bfId, bf, rfl, hbf, harity⟩ | ⟨rfl, -⟩ := hfunc
    · have hsafe : (∃ r, callPredefinedFunction corpus bfId fargs args = .ok r) ↔ BuiltinSafe bfId fargs args :=
        callPredefinedFunction_ok_iff hbf (hlen.trans harity) hdelivered args
      rw [← hsafe]
      dsimp only at h
      rw [if_neg (not_not.2 hlen), if_pos (Int.natCast_nonneg bfId), Int.toNat_natCast] at h
      cases hcall : callPredefinedFunction corpus bfId fargs args with
      | error fault =>
        rw [hcall] at h
        exact absurd h (by simp)
      | ok r => exact ⟨r, rfl⟩
    · exact ⟨fun h0 => by omega, fun h4 => by omega⟩
  · cases r with
    | none => simp
    | some fargs =>
      obtain ⟨hlen, hdelivered⟩ := getArgs_yields corpus corppos args hformed st _ st' hr fargs rfl
      dsimp only
      rw [if_neg (not_not.2 hlen)]
      obtain ⟨bfId, bf, rfl, hbf, harity⟩ | ⟨rfl, hdyn⟩ := hfunc
      · rw [if_pos (Int.natCast_nonneg bfId), Int.toNat_natCast]
        obtain ⟨r, hcall⟩ : ∃ r, callPredefinedFunction corpus bfId fargs args = .ok r :=
          (callPredefinedFunction_ok_iff hbf (hlen.trans harity) hdelivered args).2 (h fargs st' hr)
        rw [hcall]
        cases r with
        | none => simp
        | some v => simp
      · rw [if_neg (by decide)]
        obtain ⟨attr, rfl⟩ := isSome_iff_exists.1 hdyn
        simp

mutual

theorem getLeafValue_returns_iff (corppos : ℤ) (t : Constrainttree P S D F) (ht : LeafFormed corpus t)
    (deliverStrings : Bool) (st : EvalState) :
    Returns (getLeafValue corpus corppos t deliverStrings) st ↔ LeafSafe corpus corppos t st := by
  match t with
  | .func predef dynattr args nrArgs =>
    exact call_returns_iff ht deliverStrings st (getArgs_returns_iff corppos args ht.2.2.1 st)
  | .paRef none none delete => exact absurd ht (by simp [LeafFormed])
  | .paRef none (some label) delete =>
    simp only [getLeafValue, LeafSafe, referencedPosition_eq, returns_bind_iff, returns_labelPosition,
      returns_pure, implies_true, and_self]
  | .paRef (some attr) label delete =>
    simp only [getLeafValue, LeafSafe, returns_bind_iff, returns_labelPosition, true_and, iff_true]
    intro position st' _
    split_ifs <;> simp
  | .saRef attr none delete =>
    simp only [getLeafValue, LeafSafe, iff_true]
    split <;> simp
  | .saRef attr (some label) delete =>
    simp only [getLeafValue, LeafSafe, referencedPosition_eq, returns_bind_iff, returns_labelPosition,
      true_and, iff_true]
    intro position st' _
    split_ifs
    · simp
    · split <;> simp
  | .stringLeaf (.cid cidconst) | .stringLeaf (.normal sconst) | .stringLeaf (.regexp sconst canon) =>
    simp [getLeafValue, LeafSafe]
  | .intLeaf iconst => simp [getLeafValue, LeafSafe]
  | .floatLeaf fconst => simp [getLeafValue, LeafSafe]
  | .varRef varName => simp [getLeafValue, LeafSafe]

theorem getArgs_returns_iff (corppos : ℤ) (args : ActualParamList P S D F) (hargs : ParamsFormed corpus args)
    (st : EvalState) :
    Returns (getArgs corpus corppos args args.length) st ↔ ParamsSafe corpus corppos args st := by
  match args with
  | .nil => simp [getArgs, ParamsSafe]
  | .cons param next =>
    simp only [ActualParamList.length, getArgs, ParamsSafe]
    rw [returns_bind_iff, getLeafValue_returns_iff corppos param hargs.1 true st]
    refine and_congr_right fun _ => ⟨fun h v st' hv => ?_, fun h r st' hr => ?_⟩
    · have hnext := h (some v) st' hv
      rw [returns_bind_iff, getArgs_returns_iff corppos next hargs.2 st'] at hnext
      exact hnext.1
    · cases r with
      | none => simp
      | some v =>
        dsimp only
        rw [returns_bind_iff, getArgs_returns_iff corppos next hargs.2 st']
        refine ⟨h v st' hr, fun r' st'' _ => ?_⟩
        cases r' <;> simp

end

/-! ## Comparisons and boolean operators -/

@[simp] theorem returns_equality (op : BOps) (equal : Bool) (st : EvalState) :
    Returns (op.equality equal) st ↔ True := by
  cases op <;> simp [BOps.equality]

@[simp] theorem returns_numeric (op : BOps) (holds : CmpOp → Bool) (st : EvalState) :
    Returns (op.numeric holds) st ↔ True := by
  cases op <;> simp [BOps.numeric]

theorem returns_existence (st : EvalState) : Returns (existence corpus v) st := by
  cases v <;> simp [existence]

theorem returns_compareStrings (op : BOps) (ls rs : String) (right : Constrainttree P S D F) (st : EvalState) :
    Returns (compareStrings corpus op (some ls) (some rs) right) st := by
  unfold compareStrings
  dsimp only
  split <;> simp

theorem sound_posToInt (hv : Sound v) : Sound v.posToInt := by
  cases v with
  | pos n => exact (delivered_int n).1
  | _ => exact hv

theorem returns_compare [DecidableEq P] {lhs rhs : DynCallResult P F} (hl : Sound lhs)
    (hr : Sound rhs) (right : Constrainttree P S D F) (st : EvalState) :
    Returns (compare corpus op lhs rhs right) st := by
  have hl' := sound_posToInt hl
  have hr' := sound_posToInt hr
  unfold compare
  generalize lhs.posToInt = l at hl'
  generalize rhs.posToInt = r at hr'
  split
  · simp
  · simp
  · simp
  · split_ifs <;> simp
  · rename_i rs
    cases rs with
    | none => exact absurd rfl hr'.2
    | some rs => exact returns_compareStrings _ _ _ _ _
  · rename_i ls rs
    cases ls with
    | none => exact absurd rfl hl'.2
    | some ls =>
      cases rs with
      | none => exact absurd rfl hr'.2
      | some rs => exact returns_compareStrings _ _ _ _ _
  · rename_i ls _ _
    cases ls with
    | none => exact absurd rfl hl'.2
    | some ls => exact returns_compareStrings _ _ _ _ _
  · simp
  · simp
  · exact absurd rfl hl'.1
  · simp

/-- Of a comparison only the leaves matter; without a value on the left, the right side does not. -/
theorem evalComparison_returns_iff [DecidableEq P] (corppos : ℤ)
    (h : ComparisonFormed corpus op left right) (st : EvalState) :
    Returns (evalComparison corpus corppos op left right) st ↔
      LeafSafe corpus corppos left st ∧ (op ≠ .cmpEx → ∀ v st',
        getLeafValue corpus corppos left false st = .ok (some v, st') → LeafSafe corpus corppos right st') := by
  obtain ⟨href, hleft, hright⟩ := h
  have hnull : ¬(left.isNull || decide (op ≠ .cmpEx) && right.isNull) = true := by
    have hl : left.isNull = false := by cases left <;> first | rfl | cases href
    obtain ⟨rfl, rfl⟩ | ⟨hop, hval, -⟩ := hright
    · simp [hl]
    · have hr : right.isNull = false := by cases right <;> first | rfl | cases hval
      simp [hl, hr]
  unfold evalComparison
  rw [if_neg hnull, if_pos href, returns_bind_iff, getLeafValue_returns_iff corppos left hleft false st]
  refine and_congr_right fun _ => ?_
  obtain ⟨rfl, rfl⟩ | ⟨hop, hval, hformed⟩ := hright
  · refine ⟨fun _ hop => absurd rfl hop, fun _ r st' hr => ?_⟩
    cases r with
    | none => simp
    | some lhs => exact returns_existence st'
  · refine ⟨fun h _ v st' hv => ?_, fun h r st' hr => ?_⟩
    · have hrest := h (some v) st' hv
      dsimp only at hrest
      rw [if_neg hop, if_pos hval, returns_bind_iff, getLeafValue_returns_iff corppos right hformed false st'] at hrest
      exact hrest.1
    · cases r with
      | none => simp
      | some lhs =>
        dsimp only
        rw [if_neg hop, if_pos hval, returns_bind_iff, getLeafValue_returns_iff corppos right hformed false st']
        refine ⟨h hop lhs st' hr, fun r' st'' hr' => ?_⟩
        cases r' with
        | none => simp
        | some rhs =>
          exact returns_compare (getLeafValue_yields corpus corppos hleft false st _ st' hr lhs rfl).1
            (getLeafValue_yields corpus corppos hformed false st' _ st'' hr' rhs rfl).1 right st''

theorem operands_not_null (hl : Formed corpus left)
    (hr : Formed corpus right) : ¬(left.isNull || right.isNull) = true := by
  rw [not_null_of_formed hl, not_null_of_formed hr]
  decide

/-- A connective evaluates its right side for one truth value of the left side, `b`. -/
theorem connective_returns_iff {left right : Eval Bool} {leftSafe : EvalState → Prop}
    {rightSafe : EvalState → Prop} (hl : ∀ st, Returns left st ↔ leftSafe st)
    (hr : ∀ st, Returns right st ↔ rightSafe st) (b : Bool) (rest : Bool → Eval Bool)
    (hrest : rest b = right) (hconst : ∃ c, rest (!b) = pure c) (st : EvalState) :
    Returns (left >>= rest) st ↔ leftSafe st ∧ ∀ st', left st = .ok (b, st') → rightSafe st' := by
  rw [returns_bind_iff, hl]
  refine and_congr_right fun _ => ⟨fun h st' hb => ?_, fun h b' st' hb => ?_⟩
  · rw [← hr, ← hrest]
    exact h b st' hb
  · obtain rfl | hne := eq_or_ne b' b
    · rw [hrest, hr]
      exact h st' hb
    · obtain ⟨c, hc⟩ := hconst
      rw [Bool.eq_not_of_ne hne, hc]
      simp

theorem evalBool_returns_iff [DecidableEq P] (corppos : ℤ) (t : Constrainttree P S D F)
    (ht : Formed corpus t) (st : EvalState) :
    Returns (evalBool corpus corppos t) st ↔ Safe corpus corppos t st := by
  match t with
  | .bnode .bAnd left right =>
    simp only [evalBool, Safe]
    rw [if_neg (operands_not_null ht.1 ht.2)]
    exact connective_returns_iff (evalBool_returns_iff corppos left ht.1) (evalBool_returns_iff corppos right ht.2)
      true (fun b => if b = true then evalBool corpus corppos right else pure false) rfl ⟨_, rfl⟩ st
  | .bnode .bImplies left right =>
    simp only [evalBool, Safe]
    rw [if_neg (operands_not_null ht.1 ht.2)]
    exact connective_returns_iff (evalBool_returns_iff corppos left ht.1) (evalBool_returns_iff corppos right ht.2)
      true (fun b => if b = true then evalBool corpus corppos right else pure true) rfl ⟨_, rfl⟩ st
  | .bnode .bOr left right =>
    simp only [evalBool, Safe]
    rw [if_neg (operands_not_null ht.1 ht.2)]
    exact connective_returns_iff (evalBool_returns_iff corppos left ht.1) (evalBool_returns_iff corppos right ht.2)
      false (fun b => if b = true then pure true else evalBool corpus corppos right) rfl ⟨_, rfl⟩ st
  | .bnode .bNot left right =>
    obtain ⟨hleft, rfl⟩ := ht
    simp only [evalBool, Safe]
    rw [not_null_of_formed hleft]
    simp only [Bool.false_eq_true, if_false, Constrainttree.isNull, Bool.not_true]
    rw [returns_bind_iff, evalBool_returns_iff corppos left hleft st]
    simp
  | .bnode .cmpGt left right | .bnode .cmpLt left right | .bnode .cmpGet left right
  | .bnode .cmpLet left right | .bnode .cmpEq left right | .bnode .cmpNeq left right
  | .bnode .cmpEx left right =>
    simp only [evalBool, Safe]
    exact evalComparison_returns_iff corppos ht st
  | .cnode val => simp [evalBool, Safe]
  | .idList (some attr) label delete items negated =>
    simp only [evalBool, Safe, returns_bind_iff, returns_labelPosition, returns_pure, implies_true, and_self]

mutual

/-- A leaf that is safe wherever it is evaluated. -/
def LeafHarmless : Constrainttree P S D F → Prop
  | .func predef _ args _ =>
    (predef = 0 → args.param.isAttribute = true) ∧ predef ≠ 4 ∧ ParamsHarmless args
  | .floatLeaf _ => False
  | _ => True

def ParamsHarmless : ActualParamList P S D F → Prop
  | .nil => True
  | .cons param next => LeafHarmless param ∧ ParamsHarmless next

end

/-- A tree without float constants, without `int` and with `f` of attributes only. -/
def Harmless : Constrainttree P S D F → Prop
  | .bnode _ left right => Harmless left ∧ Harmless right
  | t => LeafHarmless t

mutual

theorem leafSafe_of_harmless (corppos : ℤ) (t : Constrainttree P S D F) (ht : LeafHarmless t) (st : EvalState) :
    LeafSafe corpus corppos t st := by
  match t with
  | .func predef dynattr args nrArgs =>
    obtain ⟨h0, h4, hargs⟩ := ht
    exact ⟨paramsSafe_of_harmless corppos args hargs st, fun _ _ _ => ⟨fun h _ => h0 h, fun h => absurd h h4⟩⟩
  | .floatLeaf fconst => exact absurd ht (by simp [LeafHarmless])
  | .paRef .. | .saRef .. | .stringLeaf _ | .intLeaf _ | .varRef _ | .null | .bnode .. | .cnode _ | .sbound ..
  | .idList .. => simp [LeafSafe]

theorem paramsSafe_of_harmless (corppos : ℤ) (args : ActualParamList P S D F) (hargs : ParamsHarmless args)
    (st : EvalState) : ParamsSafe corpus corppos args st := by
  match args with
  | .nil => simp [ParamsSafe]
  | .cons param next =>
    exact ⟨leafSafe_of_harmless corppos param hargs.1 st,
      fun _ st' _ => paramsSafe_of_harmless corppos next hargs.2 st'⟩

end

theorem operandSafe_of_harmless (corppos : ℤ) (ht : Harmless t) (st : EvalState) :
    LeafSafe corpus corppos t st := by
  cases t with
  | bnode op left right => simp [LeafSafe]
  | _ => exact leafSafe_of_harmless corppos _ ht st

/-- The condition on the tree alone covers every reference table and every position. -/
theorem safe_of_harmless [DecidableEq P] (corppos : ℤ) (t : Constrainttree P S D F) (ht : Harmless t)
    (st : EvalState) : Safe corpus corppos t st := by
  match t with
  | .bnode .bAnd left right | .bnode .bImplies left right | .bnode .bOr left right =>
    exact ⟨safe_of_harmless corppos left ht.1 st, fun st' _ => safe_of_harmless corppos right ht.2 st'⟩
  | .bnode .bNot left right => exact safe_of_harmless corppos left ht.1 st
  | .bnode .cmpGt left right | .bnode .cmpLt left right | .bnode .cmpGet left right
  | .bnode .cmpLet left right | .bnode .cmpEq left right | .bnode .cmpNeq left right
  | .bnode .cmpEx left right =>
    exact ⟨operandSafe_of_harmless corppos ht.1 st, fun _ _ st' _ => operandSafe_of_harmless corppos ht.2 st'⟩
  | .func .. | .floatLeaf _ | .paRef .. | .saRef .. | .stringLeaf _ | .intLeaf _ | .varRef _ | .null | .cnode _
  | .sbound .. | .idList .. => simp [Safe]

theorem evalBool_returns_of_harmless [DecidableEq P] (corppos : ℤ)
    (ht : Formed corpus t) (h : Harmless t) (st : EvalState) : Returns (evalBool corpus corppos t) st :=
  (evalBool_returns_iff corppos t ht st).2 (safe_of_harmless corppos t h st)

/-! ## The result -/

/-- A corpus of the one token `a`, with the attribute `word` and without labels. -/
def oneToken : EvalCorpus Unit Empty Empty ℚ where
  size := 1
  pos _ :=
    { ids := [0], lexsize := 1, lexsize_pos := Nat.one_pos
      id_lt := by simp
      occurs := by simp
      lexicon := ["a"], lexicon_nodup := by decide, lexicon_length := rfl }
  pos_size _ := rfl
  struc _ _ := none
  utf8 := true
  canonical s := s
  latex2iso s := s
  newRegex _ _ := true
  regexMatch r _ s := r = ".*" || r = s
  regexMatch_all _ _ _ _ := by simp
  findVariable _ := none
  findPos name := if name = "word" then some () else none
  findStruc _ := none
  findDyn _ := none
  defUnbrAttr := some ()
  labellookup _ := none
  withinGc := false
  strucValues _ := false
  structureValue _ _ := (.other, none)
  structureValue_ok a := a.elim
  callDynamic _ _ := none
  callDynamic_type d := d.elim
  setIntersection _ _ := none
  setSize _ := -1
  atoi _ := some 0
  fold _ _ s := s
  floatNonzero x := x ≠ 0
  compareFloat op x y :=
    match op with
    | .cmpGt => x > y
    | .cmpLt => x < y
    | .cmpGet => x ≥ y
    | .cmpLet => x ≤ y
    | .cmpEq => x = y
    | .cmpNeq => x ≠ y
  validateEncoding _ := true
  fresh := false

end CWB.EvalBool
