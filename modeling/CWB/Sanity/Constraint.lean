import CWB.Sanity.Matchlist
import CWB.Spec.Constraint

/-! What the nodes of a constraint tree evaluate to, and what the parser keeps about the ID
lists of the trees it builds: their order, and that they hold no error codes. -/

namespace CWB

open Option List

variable {id : ℕ}

namespace PAttribute

variable {attr : PAttribute}

theorem id2str_eq (h : id < attr.lexicon.length) : attr.id2str id = attr.lexicon[id] := by
  simp [id2str, h]

theorem id2str_mem (h : id < attr.lexsize) : attr.id2str id ∈ attr.lexicon := by
  have hlen : id < attr.lexicon.length := by rw [attr.lexicon_length]; exact h
  rw [id2str_eq hlen]
  exact getElem_mem hlen

theorem id2str_inj {id' : ℕ} (h : id < attr.lexsize) (h' : id' < attr.lexsize) :
    attr.id2str id = attr.id2str id' ↔ id = id' := by
  rw [← attr.lexicon_length] at h h'
  rw [id2str_eq h, id2str_eq h']
  exact attr.lexicon_nodup.getElem_inj_iff

/-- `cl_str2id` and `cl_id2str` are inverse to each other. -/
theorem str2id_eq_some {s : String} : attr.str2id s = some id ↔ id < attr.lexsize ∧ attr.id2str id = s := by
  unfold str2id
  constructor
  · intro h
    split_ifs at h with hs
    have hid : attr.lexicon.idxOf s = id := by simpa using h
    have hlt : attr.lexicon.idxOf s < attr.lexicon.length := idxOf_lt_length_iff.mpr hs
    subst hid
    rw [id2str_eq hlt, getElem_idxOf]
    exact ⟨by rw [← attr.lexicon_length]; exact hlt, rfl⟩
  · intro h
    obtain ⟨hlt, rfl⟩ := h
    rw [if_pos (id2str_mem hlt)]
    rw [← attr.lexicon_length] at hlt
    rw [id2str_eq hlt, attr.lexicon_nodup.idxOf_getElem]

theorem str2id_eq_none {s : String} : attr.str2id s = none ↔ s ∉ attr.lexicon := by
  unfold str2id
  split_ifs with hs <;> simp [hs]

end PAttribute

variable {cpos : ℤ} {items : List ℤ}

namespace ConstraintCorpus

section Lists

variable {P S : Type} {corpus : ConstraintCorpus P S} {attr : P}

/-- A position of the corpus. -/
def IsCpos (corpus : ConstraintCorpus P S) (cpos : ℤ) : Prop := 0 ≤ cpos ∧ cpos < corpus.size

theorem cpos2id_isSome (h : corpus.IsCpos cpos) (attr : P) :
    ∃ id, (corpus.pos attr).cpos2id cpos = some id ∧ id < (corpus.pos attr).lexsize := by
  have hlt : cpos.toNat < (corpus.pos attr).ids.length := by
    rw [corpus.pos_size]
    have := h.1
    have := h.2
    omega
  refine ⟨(corpus.pos attr).ids[cpos.toNat], ?_, (corpus.pos attr).id_lt _ (getElem_mem hlt)⟩
  rw [PAttribute.cpos2id, if_neg (not_lt.mpr h.1), getElem?_eq_getElem hlt]

/-- The string of the token at a position. -/
def tokenAt (corpus : ConstraintCorpus P S) (attr : P) (cpos : ℤ) : String :=
  (((corpus.pos attr).cpos2id cpos).map (corpus.pos attr).id2str).getD ""

/-- The token has one of the IDs. -/
def HasId (corpus : ConstraintCorpus P S) (attr : P) (items : List ℤ) (cpos : ℤ) : Prop :=
  ∃ id, (corpus.pos attr).cpos2id cpos = some id ∧ (id : ℤ) ∈ items

theorem tokenAt_eq (h : (corpus.pos attr).cpos2id cpos = some id) :
    corpus.tokenAt attr cpos = (corpus.pos attr).id2str id := by
  simp [tokenAt, h]

theorem hasId_iff (h : (corpus.pos attr).cpos2id cpos = some id) (items : List ℤ) :
    corpus.HasId attr items cpos ↔ (id : ℤ) ∈ items := by
  simp [HasId, h]

/-- What a string of a variable is looked up as. -/
def lookupForm (corpus : ConstraintCorpus P S) (sval : String) : String :=
  if corpus.utf8 then corpus.canonical sval else sval

theorem mem_intRange {m n x : ℤ} : x ∈ Int.range m n ↔ m ≤ x ∧ x < n := Int.mem_range_iff

theorem pairwise_intRange (m n : ℤ) : (Int.range m n).Pairwise (· < ·) := by
  unfold Int.range
  rw [pairwise_map]
  exact pairwise_lt_range.imp fun h => by omega

theorem mem_collectMatchingIds {sconst : String} {canon : ℕ} {x : ℤ} :
    x ∈ corpus.collectMatchingIds attr sconst canon ↔ ∃ id : ℕ, x = id ∧ id < (corpus.pos attr).lexsize ∧
      corpus.regexMatch sconst canon ((corpus.pos attr).id2str id) = true := by
  simp only [collectMatchingIds, List.mem_map, mem_filter, mem_range]
  constructor
  · intro h
    obtain ⟨id, ⟨hlt, hm⟩, rfl⟩ := h
    exact ⟨id, rfl, hlt, hm⟩
  · intro h
    obtain ⟨id, rfl, hlt, hm⟩ := h
    exact ⟨id, ⟨hlt, hm⟩, rfl⟩

theorem sorted_collectMatchingIds (corpus : ConstraintCorpus P S) (attr : P) (sconst : String) (canon : ℕ) :
    (corpus.collectMatchingIds attr sconst canon).Pairwise (· < ·) := by
  unfold collectMatchingIds
  rw [pairwise_map]
  exact (pairwise_lt_range.filter _).imp fun h => Int.ofNat_lt.mpr h

/-- The inverted list holds what lies between the items, in order. -/
theorem invertItems_spec {range : ℤ} (lastId : ℤ) (hs : (lastId :: items).Pairwise (· < ·))
    (hr : ∀ x ∈ items, x < range) :
    (∀ x, x ∈ invertItems range lastId items ↔ lastId < x ∧ x < range ∧ x ∉ items) ∧
      (invertItems range lastId items).Pairwise (· < ·) := by
  induction items generalizing lastId with
  | nil =>
    constructor
    · intro x
      simp only [invertItems, mem_intRange, not_mem_nil, not_false_eq_true, and_true]
      omega
    · exact pairwise_intRange _ _
  | cons id items ih =>
    obtain ⟨hlast, hs'⟩ := pairwise_cons.mp hs
    have hafter := (pairwise_cons.mp hs').1
    obtain ⟨hmem, hsorted⟩ := ih id hs' fun x hx => hr x (mem_cons_of_mem _ hx)
    have hid : lastId < id := hlast id (by simp)
    have hidr : id < range := hr id (by simp)
    constructor
    · intro x
      simp only [invertItems, mem_append, mem_intRange, hmem, mem_cons, not_or]
      constructor
      · intro h
        rcases h with h | h
        · refine ⟨by omega, by omega, by omega, fun hx => ?_⟩
          have := hafter x hx
          omega
        · exact ⟨by omega, h.2.1, by omega, h.2.2⟩
      · intro h
        obtain ⟨h1, h2, h3, h4⟩ := h
        by_cases hx : x < id
        · exact .inl ⟨by omega, hx⟩
        · exact .inr ⟨by omega, h2, h4⟩
    · simp only [invertItems]
      rw [pairwise_append]
      refine ⟨pairwise_intRange _ _, hsorted, fun x hx y hy => ?_⟩
      have := (mem_intRange.mp hx).2
      have := ((hmem y).mp hy).1
      omega

/-- The inverted list of a regular expression: the IDs that do not match. -/
theorem invertItems_matching (corpus : ConstraintCorpus P S) (attr : P) (sconst : String) (canon : ℕ) :
    (∀ x, x ∈ invertItems (corpus.pos attr).lexsize (-1) (corpus.collectMatchingIds attr sconst canon) ↔
      -1 < x ∧ x < (corpus.pos attr).lexsize ∧ x ∉ corpus.collectMatchingIds attr sconst canon) ∧
    (invertItems (corpus.pos attr).lexsize (-1) (corpus.collectMatchingIds attr sconst canon)).Pairwise (· < ·) := by
  have hrange : ∀ x ∈ corpus.collectMatchingIds attr sconst canon, -1 < x ∧ x < (corpus.pos attr).lexsize := by
    intro x hx
    obtain ⟨id, rfl, hlex, -⟩ := mem_collectMatchingIds.mp hx
    omega
  exact invertItems_spec (-1)
    (pairwise_cons.mpr ⟨fun x hx => (hrange x hx).1, sorted_collectMatchingIds corpus attr sconst canon⟩)
    fun x hx => (hrange x hx).2

theorem itemId_eq_some {sval : String} {x : ℤ} : corpus.itemId attr sval = some x ↔
    ∃ id : ℕ, x = id ∧ id < (corpus.pos attr).lexsize ∧ (corpus.pos attr).id2str id = corpus.lookupForm sval := by
  have hform : corpus.itemId attr sval =
      ((corpus.pos attr).str2id (corpus.lookupForm sval)).map Int.ofNat := rfl
  rw [hform, map_eq_some_iff]
  constructor
  · intro h
    obtain ⟨id, hid, rfl⟩ := h
    exact ⟨id, rfl, PAttribute.str2id_eq_some.mp hid⟩
  · intro h
    obtain ⟨id, rfl, hid⟩ := h
    exact ⟨id, PAttribute.str2id_eq_some.mpr hid, rfl⟩

/-- The IDs of a variable are those of the entries that its strings are looked up as. -/
theorem mem_getVariableItems {v : Variable} {x : ℤ} : x ∈ corpus.getVariableItems v attr ↔
    ∃ sval ∈ v.items, ∃ id : ℕ, x = id ∧ id < (corpus.pos attr).lexsize ∧
      (corpus.pos attr).id2str id = corpus.lookupForm sval := by
  simp only [getVariableItems, mem_insertionSort, mem_filterMap, itemId_eq_some]

theorem ascending_getVariableItems (v : Variable) (attr : P) : (corpus.getVariableItems v attr).Pairwise (· ≤ ·) :=
  pairwise_insertionSort _ _

end Lists

end ConstraintCorpus

/-- The IDs of a tree are no error codes, and its ID lists are in the order `R`. -/
def Constraint.Ordered {P S : Type} (R : ℤ → ℤ → Prop) : Constraint P S → Prop
  | .bAnd left right | .bOr left right | .bImplies left right => Ordered R left ∧ Ordered R right
  | .bNot left => Ordered R left
  | .idList _ items _ => items.Pairwise R ∧ ∀ id ∈ items, 0 ≤ id
  | .cmp _ _ (.stringLeaf (.cid id)) => 0 ≤ id
  | .cmp .. | .cmpEx _ | .cnode _ => True

/-- The attributes that the expression compares with variables. -/
def BoolExpr.varRefs {P S : Type} : BoolExpr P S → List (P × String)
  | .implies left right | .or left right | .and left right => varRefs left ++ varRefs right
  | .not left => varRefs left
  | .relExpr (.pos attr) _ (.varRef varName) => [(attr, varName)]
  | .relExpr .. | .relExExpr _ => []

section Order

variable {P S : Type} {corpus : ConstraintCorpus P S} {R : ℤ → ℤ → Prop} {attr : P}
variable {left right t : Constraint P S} {e : BoolExpr P S}

namespace ConstraintCorpus

theorem ordered_boolNot (ho : left.Ordered R) : (boolNot left).Ordered R := by
  unfold boolNot
  split
  · trivial
  · exact ho
  · exact ho
  · exact ho

theorem ordered_boolAnd (hol : left.Ordered R) (hor : right.Ordered R) : (boolAnd left right).Ordered R := by
  unfold boolAnd
  split <;> first | assumption | exact ⟨hol, hor⟩

theorem ordered_boolImplies (hol : left.Ordered R) (hor : right.Ordered R) : (boolImplies left right).Ordered R := by
  unfold boolImplies
  split <;> first | assumption | exact ⟨hol, hor⟩ | exact ordered_boolNot hol

theorem alternatives_ordered (h : t.alternatives = some (attr, items))
    (ho : t.Ordered R) : items.Pairwise R ∧ ∀ id ∈ items, 0 ≤ id := by
  unfold Constraint.alternatives at h
  split at h
  · simp only [some.injEq, Prod.mk.injEq] at h
    obtain ⟨rfl, rfl⟩ := h
    exact ⟨pairwise_singleton _ _, by simpa [Constraint.Ordered] using ho⟩
  · simp only [some.injEq, Prod.mk.injEq] at h
    obtain ⟨rfl, rfl⟩ := h
    exact ho
  · simp at h

theorem build_one [DecidableEq P] {f : Constraint P S → Constraint P S}
    (h : (do some (f (← corpus.build e))) = some t) : ∃ l, corpus.build e = some l ∧ t = f l := by
  cases hl : corpus.build e with
  | none => simp [hl] at h
  | some l => exact ⟨l, rfl, by simpa [hl] using h.symm⟩

theorem build_two [DecidableEq P] {e' : BoolExpr P S} {f : Constraint P S → Constraint P S → Constraint P S}
    (h : (do some (f (← corpus.build e) (← corpus.build e'))) = some t) :
    ∃ l r, corpus.build e = some l ∧ corpus.build e' = some r ∧ t = f l r := by
  cases hl : corpus.build e with
  | none => simp [hl] at h
  | some l =>
    cases hr : corpus.build e' with
    | none => simp [hl, hr] at h
    | some r => exact ⟨l, r, rfl, rfl, by simpa [hl, hr] using h.symm⟩

section Build

variable (hlt : ∀ x y, x < y → R x y)

include hlt

theorem ordered_regexConstraint (op : CmpOp) (sconst : String) (canon : ℕ) :
    (corpus.regexConstraint attr op sconst canon).Ordered R := by
  have hs := sorted_collectMatchingIds corpus attr sconst canon
  unfold regexConstraint
  simp only
  split_ifs
  · trivial
  · trivial
  · obtain ⟨hinv, hsorted⟩ := invertItems_matching corpus attr sconst canon
    refine ⟨hsorted.imp fun h => hlt _ _ h, fun x hx => ?_⟩
    have := ((hinv x).mp hx).1
    omega
  · refine ⟨hs.imp fun h => hlt _ _ h, fun x hx => ?_⟩
    obtain ⟨id, rfl, -⟩ := mem_collectMatchingIds.mp hx
    omega

theorem ordered_optimizeStringConstraint {s : String} {flags : ℕ} {leaf : StringLeaf}
    (hleaf : corpus.doFlaggedString s flags = some leaf) (op : CmpOp) :
    (corpus.optimizeStringConstraint attr op leaf).Ordered R := by
  cases leaf with
  | normal sconst =>
    simp only [optimizeStringConstraint]
    split
    · trivial
    · exact Int.natCast_nonneg _
  | regexp sconst canon =>
    simp only [optimizeStringConstraint]
    split_ifs
    · exact ordered_regexConstraint hlt op sconst canon
    · trivial
  | cid id =>
    simp only [doFlaggedString] at hleaf
    split_ifs at hleaf <;> simp at hleaf

theorem ordered_doRelExpr {ref : AttributeRef P S} {op : CmpOp} {rhs : RelRHS P S}
    (ht : corpus.doRelExpr ref op rhs = some t)
    (hvar : ∀ attr varName v, ref = .pos attr → rhs = .varRef varName → corpus.findVariable varName = some v →
      (corpus.getVariableItems v attr).Pairwise R) : t.Ordered R := by
  unfold doRelExpr at ht
  split at ht
  · next attr varName =>
    cases hv : corpus.findVariable varName with
    | none => simp [varref2IDList, hv] at ht
    | some v =>
      simp only [varref2IDList, hv, bind_eq_bind, bind_some] at ht
      split_ifs at ht <;> obtain rfl := some.inj ht
      · trivial
      · refine ⟨hvar attr varName v rfl rfl hv, fun x hx => ?_⟩
        obtain ⟨-, -, id, rfl, -⟩ := mem_getVariableItems.mp hx
        omega
  · simp at ht
  · next attr s flags =>
    cases hleaf : corpus.doFlaggedString s flags with
    | none => simp [hleaf] at ht
    | some leaf =>
      simp only [hleaf, bind_eq_bind, bind_some, some.injEq] at ht
      subst ht
      exact ordered_optimizeStringConstraint hlt hleaf op
  · next attr s flags =>
    cases hleaf : corpus.doFlaggedString s flags with
    | none => simp [hleaf] at ht
    | some leaf =>
      simp only [hleaf, bind_eq_bind, bind_some, some.injEq] at ht
      subst ht
      cases leaf with
      | normal | regexp => trivial
      | cid id =>
        simp only [doFlaggedString] at hleaf
        split_ifs at hleaf <;> simp at hleaf
  · obtain rfl := some.inj ht
    trivial
  · next ref' =>
    obtain rfl := some.inj ht
    cases ref' <;> trivial

variable [DecidableEq P] (hle : ∀ x y, R x y → x ≤ y)

include hle

theorem unionItems_spec {l l' : List ℤ} (hl : l.Pairwise R ∧ ∀ x ∈ l, 0 ≤ x) (hl' : l'.Pairwise R ∧ ∀ x ∈ l', 0 ≤ x) :
    (∀ x, x ∈ unionItems l l' ↔ x ∈ l ∨ x ∈ l') ∧ (unionItems l l').Pairwise R ∧ ∀ x ∈ unionItems l l', 0 ≤ x := by
  obtain ⟨hmem, hsorted⟩ := setopUnion_starts hlt hle hl.2 hl'.2 hl.1 hl'.1
  refine ⟨hmem, hsorted, fun x hx => ?_⟩
  rcases (hmem x).mp hx with h | h
  · exact hl.2 x h
  · exact hl'.2 x h

theorem ordered_tryOptimization (hol : left.Ordered R) (hor : right.Ordered R) :
    (tryOptimization left right).Ordered R := by
  unfold tryOptimization
  split
  · next ha ha' =>
    have hl := alternatives_ordered ha hol
    have hr := alternatives_ordered ha' hor
    split_ifs
    · split
      · exact (unionItems_spec hlt hle hr hl).2
      · exact (unionItems_spec hlt hle hl hr).2
    · exact ⟨hol, hor⟩
  · exact ⟨hol, hor⟩

theorem ordered_boolOr (hol : left.Ordered R) (hor : right.Ordered R) : (boolOr left right).Ordered R := by
  unfold boolOr
  split <;> first | assumption | exact ordered_tryOptimization hlt hle hol hor

/-- The ID lists of every tree that is built are in order if those of the variables are. -/
theorem ordered_build (ht : corpus.build e = some t)
    (hvar : ∀ attr varName, (attr, varName) ∈ e.varRefs → ∀ v, corpus.findVariable varName = some v →
      (corpus.getVariableItems v attr).Pairwise R) : t.Ordered R := by
  induction e generalizing t with
  | implies left right ihl ihr =>
    obtain ⟨l, r, hl, hr, rfl⟩ := build_two ht
    exact ordered_boolImplies (ihl hl fun a n h => hvar a n (mem_append_left _ h))
      (ihr hr fun a n h => hvar a n (mem_append_right _ h))
  | or left right ihl ihr =>
    obtain ⟨l, r, hl, hr, rfl⟩ := build_two ht
    exact ordered_boolOr hlt hle (ihl hl fun a n h => hvar a n (mem_append_left _ h))
      (ihr hr fun a n h => hvar a n (mem_append_right _ h))
  | and left right ihl ihr =>
    obtain ⟨l, r, hl, hr, rfl⟩ := build_two ht
    exact ordered_boolAnd (ihl hl fun a n h => hvar a n (mem_append_left _ h))
      (ihr hr fun a n h => hvar a n (mem_append_right _ h))
  | not left ih =>
    obtain ⟨l, hl, rfl⟩ := build_one ht
    exact ordered_boolNot (ih hl hvar)
  | relExpr ref op rhs =>
    refine ordered_doRelExpr hlt ht fun attr varName v href hrhs hv => hvar attr varName ?_ v hv
    simp [href, hrhs, BoolExpr.varRefs]
  | relExExpr ref =>
    obtain rfl := some.inj ht
    trivial

end Build

theorem ascending_build [DecidableEq P] (ht : corpus.build e = some t) :
    t.Ordered (· ≤ ·) :=
  ordered_build (fun _ _ h => le_of_lt h) (fun _ _ h => h) ht fun attr _ _ v _ => ascending_getVariableItems v attr

end ConstraintCorpus

end Order

section Evaluation

variable {P S : Type} [DecidableEq P] {corpus : ConstraintCorpus P S} {left right : Constraint P S} {φ ψ : ℤ → Prop}

namespace ConstraintCorpus

/-! One equation for each kind of node. -/

@[simp]
theorem evalBool_bAnd (cpos : ℤ) : corpus.evalBool (.bAnd left right) cpos =
    if (corpus.evalBool left cpos).1 then
      ((corpus.evalBool right cpos).1, (corpus.evalBool left cpos).2 && (corpus.evalBool right cpos).2)
    else (false, (corpus.evalBool left cpos).2) := rfl

@[simp]
theorem evalBool_bOr (cpos : ℤ) : corpus.evalBool (.bOr left right) cpos =
    if (corpus.evalBool left cpos).1 then (true, (corpus.evalBool left cpos).2)
    else ((corpus.evalBool right cpos).1, (corpus.evalBool left cpos).2 && (corpus.evalBool right cpos).2) := rfl

@[simp]
theorem evalBool_bImplies (cpos : ℤ) : corpus.evalBool (.bImplies left right) cpos =
    if (corpus.evalBool left cpos).1 then
      ((corpus.evalBool right cpos).1, (corpus.evalBool left cpos).2 && (corpus.evalBool right cpos).2)
    else (true, (corpus.evalBool left cpos).2) := rfl

@[simp]
theorem evalBool_bNot (cpos : ℤ) : corpus.evalBool (.bNot left) cpos =
    (!(corpus.evalBool left cpos).1, (corpus.evalBool left cpos).2) := rfl

@[simp]
theorem evalBool_cnode (val : Bool) (cpos : ℤ) : corpus.evalBool (.cnode val) cpos = (val, true) := rfl

@[simp]
theorem evalBool_idList (attr : P) (items : List ℤ) (negated : Bool) (cpos : ℤ) :
    corpus.evalBool (.idList attr items negated) cpos =
      (if negated then !corpus.idListMember attr items cpos else corpus.idListMember attr items cpos, true) := rfl

theorem evalBool_cmp {op : CmpOp} {l r : Operand P S} {lhs rhs : DynCallResult P}
    (hl : corpus.getLeafValue l cpos = some lhs) (hr : corpus.getLeafValue r cpos = some rhs) :
    corpus.evalBool (.cmp op l r) cpos = corpus.compare op lhs rhs r := by
  unfold evalBool
  rw [hl, hr]

omit [DecidableEq P] in
theorem getLeafValue_paRef {attr : P} (hid : (corpus.pos attr).cpos2id cpos = some id) :
    corpus.getLeafValue (.paRef attr) cpos = some (.paref attr id) := by
  have h : corpus.getLeafValue (.paRef attr) cpos = ((corpus.pos attr).cpos2id cpos).map (.paref attr) := rfl
  rw [h, hid, map_some]

/-- The tree evaluates to `φ` at every position, without an error. -/
def Denotes (corpus : ConstraintCorpus P S) (t : Constraint P S) (φ : ℤ → Prop) : Prop :=
  ∀ cpos, corpus.IsCpos cpos → ((corpus.evalBool t cpos).1 = true ↔ φ cpos) ∧ (corpus.evalBool t cpos).2 = true

theorem Denotes.congr {t : Constraint P S} (h : corpus.Denotes t φ)
    (heq : ∀ cpos, corpus.IsCpos cpos → (φ cpos ↔ ψ cpos)) : corpus.Denotes t ψ :=
  fun cpos hc => ⟨(h cpos hc).1.trans (heq cpos hc), (h cpos hc).2⟩

theorem denotes_cnode (val : Bool) : corpus.Denotes (.cnode val) fun _ => val = true := fun _ _ => ⟨Iff.rfl, rfl⟩

theorem denotes_bNot (hl : corpus.Denotes left φ) : corpus.Denotes (.bNot left) fun cpos => ¬ φ cpos := by
  intro cpos hc
  obtain ⟨hv, hr⟩ := hl cpos hc
  simp only [evalBool_bNot, Bool.not_eq_true', ← hv]
  exact ⟨by simp, hr⟩

theorem denotes_bAnd (hl : corpus.Denotes left φ) (hr : corpus.Denotes right ψ) :
    corpus.Denotes (.bAnd left right) fun cpos => φ cpos ∧ ψ cpos := by
  intro cpos hc
  obtain ⟨hlv, hlr⟩ := hl cpos hc
  obtain ⟨hrv, hrr⟩ := hr cpos hc
  cases h : (corpus.evalBool left cpos).1 <;> simp [h, hlr, hrr, ← hlv, ← hrv]

theorem denotes_bOr (hl : corpus.Denotes left φ) (hr : corpus.Denotes right ψ) :
    corpus.Denotes (.bOr left right) fun cpos => φ cpos ∨ ψ cpos := by
  intro cpos hc
  obtain ⟨hlv, hlr⟩ := hl cpos hc
  obtain ⟨hrv, hrr⟩ := hr cpos hc
  cases h : (corpus.evalBool left cpos).1 <;> simp [h, hlr, hrr, ← hlv, ← hrv]

theorem denotes_bImplies (hl : corpus.Denotes left φ) (hr : corpus.Denotes right ψ) :
    corpus.Denotes (.bImplies left right) fun cpos => φ cpos → ψ cpos := by
  intro cpos hc
  obtain ⟨hlv, hlr⟩ := hl cpos hc
  obtain ⟨hrv, hrr⟩ := hr cpos hc
  cases h : (corpus.evalBool left cpos).1 <;> simp [h, hlr, hrr, ← hlv, ← hrv]

omit [DecidableEq P] in
/-- The binary search in an ascending ID list. -/
theorem idListMember_iff {attr : P} (hs : items.Pairwise (· ≤ ·)) (hid : (corpus.pos attr).cpos2id cpos = some id) :
    corpus.idListMember attr items cpos = true ↔ (id : ℤ) ∈ items := by
  unfold idListMember
  split_ifs with hlen
  · simp [length_eq_zero_iff.mp hlen]
  · rw [hid]
    exact BinarySearch.search_iff_mem hs

theorem denotes_idList {attr : P} (hs : items.Pairwise (· ≤ ·)) (negated : Bool) :
    corpus.Denotes (.idList attr items negated) fun cpos => corpus.HasId attr items cpos ↔ negated = false := by
  intro cpos hc
  obtain ⟨id, hid, -⟩ := cpos2id_isSome hc attr
  refine ⟨?_, rfl⟩
  simp only [evalBool_idList, HasId, hid, some.injEq, exists_eq_left', ← idListMember_iff hs hid]
  cases negated <;> simp

theorem Denotes.unique {t : Constraint P S} (h : corpus.Denotes t φ) (h' : corpus.Denotes t ψ)
    (hc : corpus.IsCpos cpos) : φ cpos ↔ ψ cpos :=
  (h cpos hc).1.symm.trans (h' cpos hc).1

theorem denotes_plainList {attr : P} (hs : items.Pairwise (· ≤ ·)) :
    corpus.Denotes (.idList attr items false) (corpus.HasId attr items) :=
  (denotes_idList hs false).congr fun cpos _ => by simp

theorem denotes_cid (op : CmpOp) (hop : op = .cmpEq ∨ op = .cmpNeq) (attr : P) (id : ℤ) :
    corpus.Denotes (.cmp op (.paRef attr) (.stringLeaf (.cid id))) fun cpos =>
      corpus.HasId attr [id] cpos ↔ op = .cmpEq := by
  intro cpos hc
  obtain ⟨tokenId, hid, -⟩ := cpos2id_isSome hc attr
  rw [evalBool_cmp (getLeafValue_paRef hid) rfl]
  rcases hop with rfl | rfl <;> simp [compare, hid, CmpOp.equality, HasId]

/-- A regular expression that is kept for the comparison of strings. -/
theorem denotes_regexp (op : CmpOp) (attr : P) (sconst : String) (canon : ℕ) :
    corpus.Denotes (.cmp op (.paRef attr) (.stringLeaf (.regexp sconst canon)))
      fun cpos => corpus.regexMatch sconst canon (corpus.tokenAt attr cpos) = true ↔ op = .cmpEq := by
  intro cpos hc
  obtain ⟨id, hid, hlex⟩ := cpos2id_isSome hc attr
  rw [evalBool_cmp (getLeafValue_paRef hid) rfl]
  simp only [compare, compareStrings, tokenAt_eq hid, and_true]
  split_ifs with hall heq
  · simp [hall, corpus.regexMatch_all attr _ (PAttribute.id2str_mem hlex)]
  · simp [heq]
  · simp [heq]

/-- A literal string that is kept for the comparison of strings. -/
theorem denotes_normal (op : CmpOp) (attr : P) (sconst : String) :
    corpus.Denotes (.cmp op (.paRef attr) (.stringLeaf (.normal sconst)))
      fun cpos => corpus.tokenAt attr cpos = sconst ↔ op = .cmpEq := by
  intro cpos hc
  obtain ⟨id, hid, -⟩ := cpos2id_isSome hc attr
  rw [evalBool_cmp (getLeafValue_paRef hid) rfl]
  simp only [compare, compareStrings, tokenAt_eq hid, and_true]
  split_ifs with heq <;> simp [heq]

end ConstraintCorpus

end Evaluation

end CWB
