import CWB.Proofs.Constraint
import CWB.Sanity.InitialMatchlist

/-! The index lookup against the evaluation position by position. A lookup that is not stopped
by an error finds the positions of the query corpus where `eval_bool` is true, provided that it
meets no ordering of an attribute and a string, and complements no list with
repeated positions. -/

namespace CWB

open Option List

namespace Constraint

variable {P S : Type}

def isConst : Constraint P S → Bool
  | .cnode _ => true
  | .bAnd .. | .bOr .. | .bImplies .. | .bNot _ | .cmp .. | .cmpEx _ | .idList .. => false

/-- The list of the tree has no repeated positions. -/
def distinct : Constraint P S → Bool
  | .bAnd left _ => distinct left
  | .bOr left right => distinct left && distinct right
  | .idList _ items negated => negated || items.Nodup
  | .bImplies .. | .bNot _ | .cmp .. | .cmpEx _ | .cnode _ => true

/-- The lookup compares attributes and strings by `=` and `!=` only, and complements no list with
repeated positions. -/
def indexSafe : Constraint P S → Bool
  | .bAnd left _ => indexSafe left
  | .bOr left right => indexSafe left && indexSafe right
  | .bNot left => indexSafe left && distinct left
  | .cmp op (.paRef _) (.stringLeaf _) => op = .cmpEq || op = .cmpNeq
  | .idList _ items negated => !negated || items.Nodup
  | .bImplies .. | .cmp .. | .cmpEx _ | .cnode _ => true

/-- No comparison of the tree is one that `eval_bool` refuses. -/
def wellTyped : Constraint P S → Bool
  | .bAnd left right | .bOr left right | .bImplies left right => wellTyped left && wellTyped right
  | .bNot left => wellTyped left
  | .cmp _ (.paRef _) (.stringLeaf (.normal _)) | .cmp _ (.paRef _) (.stringLeaf (.regexp _ _)) => true
  | .cmp op (.paRef _) _ => op = .cmpEq || op = .cmpNeq
  | .cmp _ (.saRef _) (.saRef _) | .cmp _ (.saRef _) (.intLeaf _) => true
  | .cmp .. => false
  | .cmpEx _ | .cnode _ | .idList .. => true

/-- What the parser builds: constants only at the root, and attributes on the left of comparisons. -/
def Parsed : Constraint P S → Prop
  | .bAnd left right | .bOr left right | .bImplies left right =>
    (Parsed left ∧ left.isConst = false) ∧ (Parsed right ∧ right.isConst = false)
  | .bNot left => Parsed left ∧ left.isConst = false
  | .cmp _ (.paRef _) _ | .cmp _ (.saRef _) _ | .cmpEx (.paRef _) | .cmpEx (.saRef _) => True
  | .cmp .. | .cmpEx _ => False
  | .cnode _ | .idList .. => True

end Constraint

section Index

variable {P S : Type} {corpus : ConstraintCorpus P S} {attr : P}

namespace ConstraintCorpus

theorem mem_positions {id : ℕ} {x : ℤ} :
    x ∈ (positions (corpus.pos attr).ids id).map Int.ofNat ↔ (corpus.pos attr).cpos2id x = some id := by
  simp only [positions, List.mem_map, mem_filter, mem_range, decide_eq_true_eq, PAttribute.cpos2id]
  constructor
  · intro h
    obtain ⟨n, ⟨-, hn⟩, rfl⟩ := h
    rw [if_neg (by simp), Int.ofNat_eq_natCast, Int.toNat_natCast, hn]
  · intro h
    split_ifs at h with hneg
    refine ⟨x.toNat, ⟨?_, h⟩, by simp only [Int.ofNat_eq_natCast]; omega⟩
    exact (List.getElem?_eq_some_iff.mp h).1

theorem sorted_positions (ids : List ℕ) (id : ℕ) : ((positions ids id).map Int.ofNat).Pairwise (· < ·) := by
  rw [pairwise_map]
  exact (pairwise_lt_range.filter _).imp fun h => Int.ofNat_lt.mpr h

theorem cpos2id_isCpos {id : ℕ} {x : ℤ} (h : (corpus.pos attr).cpos2id x = some id) : corpus.IsCpos x := by
  unfold PAttribute.cpos2id at h
  split_ifs at h with hneg
  have hlt := (List.getElem?_eq_some_iff.mp h).1
  rw [corpus.pos_size] at hlt
  exact ⟨by omega, by omega⟩

theorem mem_idlist2cpos {items : List ℤ} (hn : ∀ id ∈ items, 0 ≤ id) {x : ℤ} :
    x ∈ corpus.idlist2cpos attr items ↔ corpus.HasId attr items x := by
  simp only [idlist2cpos, mem_insertionSort, mem_flatMap, mem_positions, HasId]
  constructor
  · intro h
    obtain ⟨id, hmem, hid⟩ := h
    have h0 := hn id hmem
    exact ⟨id.toNat, hid, by rwa [Int.toNat_of_nonneg h0]⟩
  · intro h
    obtain ⟨id, hid, hmem⟩ := h
    exact ⟨id, hmem, by simpa using hid⟩

theorem sorted_idlist2cpos (items : List ℤ) : (corpus.idlist2cpos attr items).Pairwise (· ≤ ·) :=
  pairwise_insertionSort _ _

/-- The lists of different IDs have no position in common. -/
theorem strict_idlist2cpos {items : List ℤ} (hn : ∀ id ∈ items, 0 ≤ id) (hd : items.Nodup) :
    (corpus.idlist2cpos attr items).Pairwise (· < ·) := by
  have hnodup : (corpus.idlist2cpos attr items).Nodup := by
    rw [idlist2cpos, (perm_insertionSort _ _).nodup_iff, nodup_flatMap]
    refine ⟨fun id _ => (sorted_positions _ _).imp fun h => ne_of_lt h, ?_⟩
    refine hd.imp_of_mem fun {id id'} hid hid' hne x hx hx' => ?_
    rw [mem_positions] at hx hx'
    have := some.inj (hx.symm.trans hx')
    have := hn id hid
    have := hn id' hid'
    omega
  exact ((sorted_idlist2cpos items).and hnodup).imp fun h => lt_of_le_of_ne h.1 h.2

/-- The positions of the tokens that match a regular expression. -/
theorem getMatchedCorpusPositions_spec (corpus : ConstraintCorpus P S) (attr : P) (regstr : String) (canon : ℕ) :
    (corpus.getMatchedCorpusPositions attr regstr canon).Pairwise (· < ·) ∧
      ∀ x, x ∈ corpus.getMatchedCorpusPositions attr regstr canon ↔
        corpus.IsCpos x ∧ corpus.regexMatch regstr canon (corpus.tokenAt attr x) = true := by
  have hall : (∀ id < (corpus.pos attr).lexsize,
      corpus.regexMatch regstr canon ((corpus.pos attr).id2str id) = true) →
      ∀ x, x ∈ allPositions corpus.size ↔
        corpus.IsCpos x ∧ corpus.regexMatch regstr canon (corpus.tokenAt attr x) = true := by
    intro h x
    rw [mem_allPositions]
    constructor
    · intro hx
      obtain ⟨id, hid, hlex⟩ := cpos2id_isSome hx attr
      exact ⟨hx, by rw [tokenAt_eq hid]; exact h id hlex⟩
    · exact fun hx => hx.1
  have hnonneg : ∀ id ∈ corpus.collectMatchingIds attr regstr canon, 0 ≤ id := by
    intro x hx
    obtain ⟨id, rfl, -⟩ := mem_collectMatchingIds.mp hx
    omega
  have hids : ∀ x, corpus.HasId attr (corpus.collectMatchingIds attr regstr canon) x ↔
      corpus.IsCpos x ∧ corpus.regexMatch regstr canon (corpus.tokenAt attr x) = true := by
    intro x
    constructor
    · intro h
      obtain ⟨id, hid, hmem⟩ := h
      obtain ⟨id', he, -, hm⟩ := mem_collectMatchingIds.mp hmem
      exact ⟨cpos2id_isCpos hid, by rw [tokenAt_eq hid, Int.ofNat_inj.mp he]; exact hm⟩
    · intro h
      obtain ⟨id, hid, hlex⟩ := cpos2id_isSome h.1 attr
      exact ⟨id, hid, mem_collectMatchingIds.mpr ⟨id, rfl, hlex, by rw [← tokenAt_eq hid]; exact h.2⟩⟩
  unfold getMatchedCorpusPositions
  simp only
  split_ifs with hstar hfull hsome
  · refine ⟨sorted_allPositions _, hall fun id hlex => ?_⟩
    rw [hstar]
    exact corpus.regexMatch_all attr _ (PAttribute.id2str_mem hlex) canon
  · refine ⟨sorted_allPositions _, hall fun id hlex => ?_⟩
    have hrange : ∀ id ∈ List.range (corpus.pos attr).lexsize,
        corpus.regexMatch regstr canon ((corpus.pos attr).id2str id) = true := by
      rw [← length_filter_eq_length_iff, length_range]
      simpa [collectMatchingIds] using hfull
    exact hrange id (mem_range.mpr hlex)
  · refine ⟨strict_idlist2cpos hnonneg ?_, fun x => (mem_idlist2cpos hnonneg).trans (hids x)⟩
    exact (sorted_collectMatchingIds corpus attr regstr canon).imp fun h => ne_of_lt h
  · refine ⟨List.Pairwise.nil, fun x => ?_⟩
    rw [← hids x, length_eq_zero_iff.mp (Nat.eq_zero_of_not_pos hsome)]
    simp [HasId]

theorem getCorpusPositions_spec (corpus : ConstraintCorpus P S) (attr : P) (wordform : String) :
    (corpus.getCorpusPositions attr wordform).Pairwise (· < ·) ∧
      ∀ x, x ∈ corpus.getCorpusPositions attr wordform ↔ corpus.IsCpos x ∧ corpus.tokenAt attr x = wordform := by
  unfold getCorpusPositions
  cases hid : (corpus.pos attr).str2id wordform with
  | none =>
    refine ⟨List.Pairwise.nil, fun x => ?_⟩
    simp only [not_mem_nil, false_iff, not_and]
    intro hx he
    obtain ⟨id, htoken, hlex⟩ := cpos2id_isSome hx attr
    rw [tokenAt_eq htoken] at he
    exact PAttribute.str2id_eq_none.mp hid (he ▸ PAttribute.id2str_mem hlex)
  | some id =>
    obtain ⟨hlex, rfl⟩ := PAttribute.str2id_eq_some.mp hid
    have hnonneg : ∀ x ∈ [(id : ℤ)], 0 ≤ x := by simp
    refine ⟨strict_idlist2cpos hnonneg (nodup_singleton _), fun x => ?_⟩
    simp only
    rw [mem_idlist2cpos hnonneg]
    constructor
    · intro h
      obtain ⟨id', hid', hmem⟩ := h
      rw [tokenAt_eq hid', Int.ofNat_inj.mp (mem_singleton.mp hmem)]
      exact ⟨cpos2id_isCpos hid', rfl⟩
    · intro h
      obtain ⟨id', hid', hlex'⟩ := cpos2id_isSome h.1 attr
      have := h.2
      rw [tokenAt_eq hid', PAttribute.id2str_inj hlex' hlex] at this
      exact ⟨id', hid', by simp [this]⟩

/-- The positions of an ID, restricted by the index to the query corpus. -/
theorem getPositions_spec (qc : QueryCorpus corpus.size) (attr : P) {id : ℤ} (hn : 0 ≤ id) :
    (corpus.getPositions attr id qc.range).Pairwise (· < ·) ∧
      (∀ x ∈ corpus.getPositions attr id qc.range, corpus.IsCpos x) ∧
      ∀ x, qc.Contains x → (x ∈ corpus.getPositions attr id qc.range ↔ corpus.HasId attr [id] x) := by
  have hid : ∀ x, (corpus.pos attr).cpos2id x = some id.toNat ↔ corpus.HasId attr [id] x := by
    intro x
    simp only [HasId, mem_singleton]
    constructor
    · exact fun h => ⟨id.toNat, h, Int.toNat_of_nonneg hn⟩
    · intro h
      obtain ⟨id', h, rfl⟩ := h
      simpa using h
  unfold getPositions
  split_ifs with hrange
  · refine ⟨List.Pairwise.nil, by simp, fun x hx => ?_⟩
    simp only [not_mem_nil, false_iff]
    intro h
    obtain ⟨id', hid', hmem⟩ := h
    obtain ⟨id'', hid'', hlex⟩ := cpos2id_isSome (cpos2id_isCpos hid') attr
    have := some.inj (hid'.symm.trans hid'')
    have := mem_singleton.mp hmem
    omega
  · refine ⟨(sorted_positions _ _).filter _, fun x hx => ?_, fun x hx => ?_⟩
    · exact cpos2id_isCpos (mem_positions.mp (mem_filter.mp hx).1)
    · have hcov : (qc.range.any fun r => decide (r.start ≤ x ∧ x ≤ r.stop)) = true := (qc.contains_iff x).mp hx
      rw [mem_filter, mem_positions, hcov, Bool.or_true, hid]
      simp

theorem getLeafValue_saRef (corpus : ConstraintCorpus P S) (attr : S) (cpos : ℤ) :
    ∃ n, corpus.getLeafValue (.saRef attr) cpos = some (.int n) := by
  simp only [getLeafValue]
  split <;> exact ⟨_, rfl⟩

end ConstraintCorpus

end Index

variable {op : CmpOp}

section Loops

variable {P S : Type} [DecidableEq P] {corpus : ConstraintCorpus P S}

namespace ConstraintCorpus

/-- A scan that is not stopped keeps the cells where the tree is true. -/
theorem scanLoop_spec (t : Constraint P S) (start : List ℤ) (running : Bool) (hc : ∀ c ∈ start, c = -1 ∨ 0 ≤ c) :
    ((corpus.scanLoop t start running).2 = true → running = true) ∧
      ∀ cells, (corpus.scanLoop t start running).1 = some cells →
        cells.filter (· ≠ -1) = (start.filter (· ≠ -1)).filter fun c => (corpus.evalBool t c).1 := by
  fun_induction scanLoop corpus t start running with
  | case1 running => simp
  | case2 cpos start running hstop => simp
  | case3 cpos start running hrun hpos value running' heval cells' running'' hrec ih =>
    obtain ⟨hr, hcells⟩ := ih fun c h => hc c (mem_cons_of_mem _ h)
    rw [hrec] at hr hcells
    refine ⟨fun h => (Bool.and_eq_true_iff.mp (hr h)).1, fun cells hsome => ?_⟩
    simp only [map_eq_some_iff] at hsome
    obtain ⟨rest, hrest, rfl⟩ := hsome
    have hne : cpos ≠ -1 := by omega
    have hvalue : (corpus.evalBool t cpos).1 = value := by rw [heval]
    rw [filter_cons_of_pos (a := cpos) (by simpa using hne)]
    cases value with
    | true => rw [if_pos rfl, filter_cons_of_pos (by simpa using hne), filter_cons_of_pos (by simpa using hvalue),
        hcells rest hrest]
    | false => rw [if_neg (by simp), filter_cons_of_neg (by simp), filter_cons_of_neg (by simp [hvalue]),
        hcells rest hrest]
  | case4 cpos start running hrun hneg cells' running'' hrec ih =>
    obtain ⟨hr, hcells⟩ := ih fun c h => hc c (mem_cons_of_mem _ h)
    rw [hrec] at hr hcells
    refine ⟨hr, fun cells hsome => ?_⟩
    simp only [map_eq_some_iff] at hsome
    obtain ⟨rest, hrest, rfl⟩ := hsome
    have hmark : cpos = -1 := by
      rcases hc cpos (by simp) with h | h
      · exact h
      · exact absurd h hneg
    rw [filter_cons_of_neg (by simp [hmark]), filter_cons_of_neg (by simp [hmark]), hcells rest hrest]

/-- Without errors the scan is not stopped. -/
theorem scanLoop_completes {t : Constraint P S} (h : ∀ c, (corpus.evalBool t c).2 = true) (start : List ℤ) :
    ∃ cells, corpus.scanLoop t start true = (some cells, true) := by
  induction start with
  | nil => exact ⟨[], rfl⟩
  | cons cpos start ih =>
    obtain ⟨cells, hcells⟩ := ih
    unfold scanLoop
    by_cases hpos : cpos ≥ 0 <;> simp [hpos, h cpos, hcells]

/-- The loop of a conjunction drops cells of the left list, and all that it should if it is not stopped. -/
theorem andLoop_spec (t : Constraint P S) (start : List ℤ) (running : Bool) (hn : ∀ c ∈ start, 0 ≤ c) :
    ((corpus.andLoop t start running).1.filter (· ≠ -1)).Sublist start ∧
      ((corpus.andLoop t start running).2 = true → running = true ∧
        (corpus.andLoop t start running).1.filter (· ≠ -1) = start.filter fun c => (corpus.evalBool t c).1) := by
  fun_induction andLoop corpus t start running with
  | case1 running => simp
  | case2 cpos start running hstop =>
    refine ⟨filter_sublist, fun h => ?_⟩
    have hrun : running = true := h
    simp [hrun] at hstop
  | case3 cpos start running hrun hpos value running' heval cells running'' hrec ih =>
    obtain ⟨hsub, hdone⟩ := ih fun c h => hn c (mem_cons_of_mem _ h)
    rw [hrec] at hsub hdone
    have hne : cpos ≠ -1 := by omega
    have hvalue : (corpus.evalBool t cpos).1 = value := by rw [heval]
    cases value with
    | true =>
      rw [if_pos rfl, filter_cons_of_pos (by simpa using hne), filter_cons_of_pos (by simpa using hvalue)]
      exact ⟨hsub.cons_cons cpos, fun h => ⟨(Bool.and_eq_true_iff.mp (hdone h).1).1, by rw [(hdone h).2]⟩⟩
    | false =>
      rw [if_neg (by simp), filter_cons_of_neg (by simp), filter_cons_of_neg (by simp [hvalue])]
      exact ⟨hsub.cons cpos, fun h => ⟨(Bool.and_eq_true_iff.mp (hdone h).1).1, (hdone h).2⟩⟩
  | case4 cpos start running hrun hneg cells running'' hrec ih => exact absurd (hn cpos (by simp)) hneg

theorem andLoop_running {t : Constraint P S} (h : ∀ c, (corpus.evalBool t c).2 = true) (start : List ℤ) :
    (corpus.andLoop t start true).2 = true := by
  induction start with
  | nil => rfl
  | cons cpos start ih =>
    unfold andLoop
    by_cases hpos : cpos ≥ 0 <;> simp [hpos, h cpos, ih]

theorem equality_running (h : op = .cmpEq ∨ op = .cmpNeq) (b : Bool) : (op.equality b).2 = true := by
  rcases h with rfl | rfl <;> rfl

theorem compare_running {left right : Operand P S} (h : (Constraint.cmp op left right).wellTyped = true)
    {cpos : ℤ} {lhs rhs : DynCallResult P} (hl : corpus.getLeafValue left cpos = some lhs)
    (hr : corpus.getLeafValue right cpos = some rhs) : (corpus.compare op lhs rhs right).2 = true := by
  have hop : ∀ {b : Bool}, (op = .cmpEq || op = .cmpNeq : Bool) = true → (op.equality b).2 = true :=
    fun h => equality_running (by simpa using h) _
  cases left with
  | stringLeaf leaf => simp [Constraint.wellTyped] at h
  | intLeaf n => simp [Constraint.wellTyped] at h
  | saRef attr =>
    obtain ⟨n, hn⟩ := getLeafValue_saRef corpus attr cpos
    obtain rfl := some.inj (hn.symm.trans hl)
    cases right with
    | paRef attr' => simp [Constraint.wellTyped] at h
    | stringLeaf leaf => simp [Constraint.wellTyped] at h
    | saRef attr' =>
      obtain ⟨n', hn'⟩ := getLeafValue_saRef corpus attr' cpos
      obtain rfl := some.inj (hn'.symm.trans hr)
      rfl
    | intLeaf n' =>
      obtain rfl := some.inj hr
      rfl
  | paRef attr =>
    simp only [getLeafValue, map_eq_some_iff] at hl
    obtain ⟨id, -, rfl⟩ := hl
    cases right with
    | paRef attr' =>
      simp only [getLeafValue, map_eq_some_iff] at hr
      obtain ⟨id', -, rfl⟩ := hr
      simp only [compare]
      split_ifs <;> exact hop h
    | saRef attr' =>
      obtain ⟨n', hn'⟩ := getLeafValue_saRef corpus attr' cpos
      obtain rfl := some.inj (hn'.symm.trans hr)
      exact hop h
    | intLeaf n' =>
      obtain rfl := some.inj hr
      exact hop h
    | stringLeaf leaf =>
      cases leaf with
      | normal sconst | regexp sconst canon =>
        obtain rfl := some.inj hr
        rfl
      | cid id' =>
        obtain rfl := some.inj hr
        exact hop h

/-- A well-typed tree is evaluated without an error, anywhere. -/
theorem evalBool_running {t : Constraint P S} (h : t.wellTyped = true) (cpos : ℤ) : (corpus.evalBool t cpos).2 = true := by
  induction t with
  | bAnd left right ihl ihr | bOr left right ihl ihr | bImplies left right ihl ihr =>
    obtain ⟨hl, hr⟩ := Bool.and_eq_true_iff.mp h
    cases hv : (corpus.evalBool left cpos).1 <;> simp [hv, ihl hl, ihr hr]
  | bNot left ih => exact ih h
  | cmp op left right =>
    simp only [evalBool]
    split
    · next hl hr => exact compare_running h hl hr
    · rfl
  | cmpEx left =>
    simp only [evalBool]
    split <;> rfl
  | cnode val => rfl
  | idList attr items negated => rfl

end ConstraintCorpus

end Loops

section Parser

variable {P S : Type} {left right : Constraint P S}

namespace Constraint

theorem isConst_eq_false (h : left = .cnode false → False) (h' : left = .cnode true → False) :
    left.isConst = false := by
  cases left with
  | cnode val => cases val <;> simp_all
  | bAnd | bOr | bImplies | bNot | cmp | cmpEx | idList => rfl

theorem parsed_boolNot (hl : left.Parsed) : (boolNot left).Parsed := by
  unfold boolNot
  split
  · trivial
  · trivial
  · exact hl.1
  · next hconst _ _ => exact ⟨hl, isConst_eq_false (hconst _) (hconst _)⟩

theorem parsed_boolAnd (hl : left.Parsed) (hr : right.Parsed) : (boolAnd left right).Parsed := by
  unfold boolAnd
  split
  · exact hl
  · exact hr
  · exact hr
  · exact hl
  · next h1 h2 h3 h4 => exact ⟨⟨hl, isConst_eq_false h1 h2⟩, hr, isConst_eq_false h3 h4⟩

theorem parsed_boolImplies (hl : left.Parsed) (hr : right.Parsed) : (boolImplies left right).Parsed := by
  unfold boolImplies
  split
  · trivial
  · exact hr
  · exact parsed_boolNot hl
  · exact hr
  · next h1 h2 h3 h4 => exact ⟨⟨hl, isConst_eq_false h1 h2⟩, hr, isConst_eq_false h3 h4⟩

variable {corpus : ConstraintCorpus P S}

theorem parsed_doRelExpr {ref : AttributeRef P S} {rhs : RelRHS P S} {t : Constraint P S}
    (ht : corpus.doRelExpr ref op rhs = some t) : t.Parsed := by
  have hcmp : ∀ right : Operand P S, (Constraint.cmp op ref.operand right).Parsed := by
    intro right
    cases ref <;> trivial
  have hstring : ∀ (attr : P) (leaf : StringLeaf), (corpus.optimizeStringConstraint attr op leaf).Parsed := by
    intro attr leaf
    unfold ConstraintCorpus.optimizeStringConstraint ConstraintCorpus.regexConstraint
    simp only
    split
    · split_ifs <;> trivial
    · split <;> trivial
    · trivial
  unfold ConstraintCorpus.doRelExpr at ht
  split at ht
  · next attr varName =>
    cases hv : corpus.findVariable varName with
    | none => simp [ConstraintCorpus.varref2IDList, hv] at ht
    | some v =>
      simp only [ConstraintCorpus.varref2IDList, hv, bind_eq_bind, bind_some] at ht
      split_ifs at ht <;> obtain rfl := some.inj ht <;> trivial
  · simp at ht
  · next attr s flags =>
    cases hleaf : corpus.doFlaggedString s flags with
    | none => simp [hleaf] at ht
    | some leaf =>
      simp only [hleaf, bind_eq_bind, bind_some, some.injEq] at ht
      exact ht ▸ hstring attr leaf
  · next attr s flags =>
    cases hleaf : corpus.doFlaggedString s flags with
    | none => simp [hleaf] at ht
    | some leaf =>
      simp only [hleaf, bind_eq_bind, bind_some, some.injEq] at ht
      exact ht ▸ hcmp _
  · obtain rfl := some.inj ht
    exact hcmp _
  · obtain rfl := some.inj ht
    exact hcmp _

variable [DecidableEq P]

theorem parsed_boolOr (hl : left.Parsed) (hr : right.Parsed) : (boolOr left right).Parsed := by
  unfold boolOr
  split
  · exact hr
  · exact hl
  · exact hl
  · exact hr
  · next h1 h2 h3 h4 =>
    have hkeep : (Constraint.bOr left right).Parsed := ⟨⟨hl, isConst_eq_false h1 h2⟩, hr, isConst_eq_false h3 h4⟩
    unfold tryOptimization
    split
    · split_ifs
      · split <;> trivial
      · exact hkeep
    · exact hkeep

theorem parsed_build {e : BoolExpr P S} {t : Constraint P S} (ht : corpus.build e = some t) : t.Parsed := by
  induction e generalizing t with
  | implies left right ihl ihr =>
    obtain ⟨l, r, hl, hr, rfl⟩ := ConstraintCorpus.build_two ht
    exact parsed_boolImplies (ihl hl) (ihr hr)
  | or left right ihl ihr =>
    obtain ⟨l, r, hl, hr, rfl⟩ := ConstraintCorpus.build_two ht
    exact parsed_boolOr (ihl hl) (ihr hr)
  | and left right ihl ihr =>
    obtain ⟨l, r, hl, hr, rfl⟩ := ConstraintCorpus.build_two ht
    exact parsed_boolAnd (ihl hl) (ihr hr)
  | not left ih =>
    obtain ⟨l, hl, rfl⟩ := ConstraintCorpus.build_one ht
    exact parsed_boolNot (ih hl)
  | relExpr ref op rhs => exact parsed_doRelExpr ht
  | relExExpr ref =>
    obtain rfl := some.inj ht
    cases ref <;> trivial

end Constraint

end Parser

section Lookup

variable {P S : Type} [DecidableEq P] {corpus : ConstraintCorpus P S} {qc : QueryCorpus corpus.size}
variable {t left right : Constraint P S}

namespace ConstraintCorpus

/-- What a lookup returns. The list is in order even if the evaluation was stopped, so that
it can be complemented. -/
structure LookedUp (corpus : ConstraintCorpus P S) (qc : QueryCorpus corpus.size) (t : Constraint P S)
    (r : LookupResult) : Prop where
  notInverted : r.matchlist.isInverted = false
  sorted : r.matchlist.start.Pairwise (· ≤ ·)
  strict : t.distinct = true → r.matchlist.start.Pairwise (· < ·)
  inCorpus : ∀ x ∈ r.matchlist.start, corpus.IsCpos x
  mem : r.ok = true → r.running = true → ∀ x, qc.Contains x →
    (x ∈ r.matchlist.start ↔ (corpus.evalBool t x).1 = true)

theorem LookedUp.failed (running : Bool) : LookedUp corpus qc t { ok := false, matchlist := {}, running } :=
  ⟨rfl, List.Pairwise.nil, fun _ => List.Pairwise.nil, by simp, by simp⟩

/-- A strictly ascending list with the right positions of the query corpus. -/
theorem LookedUp.of_list {start : List ℤ} (hs : start.Pairwise (· < ·)) (hr : ∀ x ∈ start, corpus.IsCpos x)
    (hmem : ∀ x, qc.Contains x → (x ∈ start ↔ (corpus.evalBool t x).1 = true)) (running : Bool) :
    LookedUp corpus qc t { ok := true, matchlist := { start := start }, running } :=
  ⟨rfl, hs.imp fun h => le_of_lt h, fun _ => hs, hr, fun _ _ => hmem⟩

/-- What a lookup that starts with `running` returns, and that it goes on if there is no error. -/
def Returns (corpus : ConstraintCorpus P S) (qc : QueryCorpus corpus.size) (t : Constraint P S) (running : Bool)
    (res : Option LookupResult) : Prop :=
  ∃ r, res = some r ∧ LookedUp corpus qc t r ∧ (r.running = true → running = true) ∧
    (t.wellTyped = true → running = true → r.ok = true ∧ r.running = true)

/-- A lookup that evaluates nothing. -/
theorem Returns.of_list {start : List ℤ} (hs : start.Pairwise (· < ·)) (hr : ∀ x ∈ start, corpus.IsCpos x)
    (hmem : ∀ x, qc.Contains x → (x ∈ start ↔ (corpus.evalBool t x).1 = true)) (running : Bool) :
    Returns corpus qc t running (some { ok := true, matchlist := { start := start }, running }) :=
  ⟨_, rfl, .of_list hs hr hmem running, fun h => h, fun _ h => ⟨rfl, h⟩⟩

/-- All positions of the query corpus, tried one by one. -/
theorem scanCorpus_returns (t : Constraint P S) (running : Bool) :
    Returns corpus qc t running (corpus.scanCorpus qc t running) := by
  obtain ⟨all, hall, hsorted, hmem⟩ :=
    complement_spec (List.Pairwise.nil : ([] : List ℤ).Pairwise (· < ·)) (fun x hx => absurd hx (not_mem_nil))
  have hr : ∀ x ∈ all, 0 ≤ x ∧ x < corpus.size := fun x hx => ((hmem x).mp hx).1
  obtain ⟨hmark, -, hcells⟩ := markOffrangeCells_spec qc (hsorted.imp fun h => le_of_lt h) hr
  obtain ⟨hrun, hscan⟩ := scanLoop_spec t (qc.markOffrangeCells all).1 running hcells
  have hdone : t.wellTyped = true → running = true →
      ∃ cells, corpus.scanLoop t (qc.markOffrangeCells all).1 running = (some cells, true) := by
    intro hwell hrunning
    subst hrunning
    exact scanLoop_completes (fun c => evalBool_running hwell c) _
  unfold Returns scanCorpus
  rw [hall, bind_eq_bind, bind_some]
  rcases hres : corpus.scanLoop t (qc.markOffrangeCells all).1 running with ⟨_ | cells, running'⟩
  · refine ⟨_, rfl, .failed running', ?_, ?_⟩
    · rwa [hres] at hrun
    · intro hwell hrunning
      obtain ⟨cells, hcells⟩ := hdone hwell hrunning
      simp [hres] at hcells
  · rw [hres] at hrun hscan
    have hlist : cells.filter (· ≠ -1) =
        (all.filter (coveredBy qc.range)).filter fun c => (corpus.evalBool t c).1 := by
      rw [hscan cells rfl, hmark]
    refine ⟨_, rfl, ?_, hrun, ?_⟩
    · have hreduce : ({ start := cells } : InitialMatchlist).reduce = { start := cells.filter (· ≠ -1) } := rfl
      simp only [hreduce, hlist]
      refine .of_list ((hsorted.filter _).filter _) (fun x hx => ?_) (fun x hx => ?_) running'
      · exact hr x (mem_filter.mp (mem_filter.mp hx).1).1
      · rw [mem_filter, mem_filter_coveredBy hx, hmem]
        have := QueryCorpus.contains_isCpos hx
        simp [this]
    · intro hwell hrunning
      obtain ⟨cells', hcells'⟩ := hdone hwell hrunning
      rw [hres] at hcells'
      exact ⟨rfl, (Prod.mk.inj hcells').2⟩

/-- The list of an attribute and a string, complemented for `!=`. -/
theorem returns_of_start (hop : op = .cmpEq ∨ op = .cmpNeq) {start : List ℤ} {φ : ℤ → Prop}
    (hs : start.Pairwise (· < ·)) (hr : ∀ x ∈ start, corpus.IsCpos x)
    (hmem : ∀ x, qc.Contains x → (x ∈ start ↔ φ x))
    (hd : ∀ x, corpus.IsCpos x → ((corpus.evalBool t x).1 = true ↔ (φ x ↔ op = .cmpEq))) (running : Bool) :
    Returns corpus qc t running (do
      if op = .cmpNeq then
        some { ok := true, matchlist := ← (qc.restrict { start := start }).complement corpus.size, running }
      else some { ok := true, matchlist := qc.restrict { start := start }, running }) := by
  have hfilter : (start.filter (coveredBy qc.range)).Pairwise (· < ·) := hs.filter _
  have hr' : ∀ x ∈ start.filter (coveredBy qc.range), corpus.IsCpos x := fun x hx => hr x (mem_filter.mp hx).1
  rw [restrict_eq qc (hs.imp fun h => le_of_lt h) hr]
  rcases hop with rfl | rfl
  · rw [if_neg (by simp)]
    refine .of_list hfilter hr' (fun x hx => ?_) running
    rw [mem_filter_coveredBy hx, hmem x hx, hd x (QueryCorpus.contains_isCpos hx)]
    simp
  · obtain ⟨out, hout, hsorted, hout'⟩ := complement_spec hfilter hr'
    rw [if_pos rfl, hout]
    refine .of_list hsorted (fun x hx => ((hout' x).mp hx).1) (fun x hx => ?_) running
    have hc := QueryCorpus.contains_isCpos hx
    rw [hout', mem_filter_coveredBy hx, hmem x hx, hd x hc]
    simp [hc]

theorem lookupString_returns (hop : op = .cmpEq ∨ op = .cmpNeq) {attr : P} {leaf : StringLeaf}
    (hid : ∀ id, leaf = .cid id → 0 ≤ id) (running : Bool) :
    Returns corpus qc (.cmp op (.paRef attr) (.stringLeaf leaf)) running
      (corpus.lookupString qc op attr leaf running) := by
  unfold lookupString
  split
  · next canon =>
    obtain ⟨hs, hmem⟩ := getMatchedCorpusPositions_spec corpus attr ".*" 0
    have hall : ∀ x, corpus.IsCpos x → ∀ flags, corpus.regexMatch ".*" flags (corpus.tokenAt attr x) = true := by
      intro x hx flags
      obtain ⟨id, hid, hlex⟩ := cpos2id_isSome hx attr
      rw [tokenAt_eq hid]
      exact corpus.regexMatch_all attr _ (PAttribute.id2str_mem hlex) flags
    have hd : ∀ x, corpus.IsCpos x →
        ((corpus.evalBool (.cmp op (.paRef attr) (.stringLeaf (.regexp ".*" canon))) x).1 = true ↔ op = .cmpEq) := by
      intro x hx
      rw [(denotes_regexp op attr ".*" canon x hx).1]
      simp [hall x hx canon]
    rcases hop with rfl | rfl
    · rw [if_neg (by simp), restrict_eq qc (hs.imp fun h => le_of_lt h) fun x hx => ((hmem x).mp hx).1]
      refine .of_list (hs.filter _) (fun x hx => ((hmem x).mp (mem_filter.mp hx).1).1) (fun x hx => ?_) running
      have hc := QueryCorpus.contains_isCpos hx
      rw [mem_filter_coveredBy hx, hmem, hd x hc]
      simp only [iff_true]
      exact ⟨hc, hall x hc 0⟩
    · rw [if_pos rfl]
      refine .of_list List.Pairwise.nil (by simp) (fun x hx => ?_) running
      rw [hd x (QueryCorpus.contains_isCpos hx)]
      simp
  · cases leaf with
    | regexp sconst canon =>
      obtain ⟨hs, hmem⟩ := getMatchedCorpusPositions_spec corpus attr sconst canon
      refine returns_of_start hop hs (fun x hx => ((hmem x).mp hx).1) (fun x hx => hmem x) (fun x hx => ?_) running
      rw [(denotes_regexp op attr sconst canon x hx).1]
      simp [hx]
    | normal sconst =>
      obtain ⟨hs, hmem⟩ := getCorpusPositions_spec corpus attr sconst
      refine returns_of_start hop hs (fun x hx => ((hmem x).mp hx).1) (fun x hx => hmem x) (fun x hx => ?_) running
      rw [(denotes_normal op attr sconst x hx).1]
      simp [hx]
    | cid id =>
      obtain ⟨hs, hr, hmem⟩ := getPositions_spec qc attr (hid id rfl)
      exact returns_of_start hop hs hr hmem (fun x hx => (denotes_cid op hop attr id x hx).1) running

theorem reduce_start (start : List ℤ) (b : Bool) :
    (InitialMatchlist.reduce ⟨start, b⟩).start = start.filter (· ≠ -1) := rfl

/-- The left list of a conjunction, filtered by the right part. -/
theorem bAnd_returns {running : Bool} (hl : Returns corpus qc left running (corpus.calculateInitialMatchlist1 qc left running)) :
    Returns corpus qc (.bAnd left right) running (corpus.calculateInitialMatchlist1 qc (.bAnd left right) running) := by
  obtain ⟨l, hres, hlook, hrun, hdone⟩ := hl
  unfold Returns
  rw [calculateInitialMatchlist1_bAnd, hres, bind_eq_bind, bind_some]
  cases hok : l.ok with
  | false =>
    rw [if_neg (by simp)]
    refine ⟨_, rfl, .failed _, hrun, fun hwell hr => ?_⟩
    have := (hdone (Bool.and_eq_true_iff.mp hwell).1 hr).1
    simp [hok] at this
  | true =>
    rw [if_pos rfl]
    obtain ⟨hsub, hall⟩ := andLoop_spec right l.matchlist.start l.running fun c hc => (hlook.inCorpus c hc).1
    refine ⟨_, rfl, ⟨rfl, ?_, fun hd => ?_, fun x hx => ?_, fun _ hr x hx => ?_⟩, fun hr => ?_, fun hwell hr => ?_⟩
    · exact hlook.sorted.sublist hsub
    · exact (hlook.strict hd).sublist hsub
    · exact hlook.inCorpus x (hsub.subset hx)
    · obtain ⟨hlr, hcells⟩ := hall hr
      simp only [reduce_start]
      rw [hcells, mem_filter, hlook.mem hok hlr x hx]
      cases hv : (corpus.evalBool left x).1 <;> simp [hv]
    · exact hrun (hall hr).1
    · obtain ⟨hwl, hwr⟩ := Bool.and_eq_true_iff.mp hwell
      have hlr := (hdone hwl hr).2
      refine ⟨rfl, ?_⟩
      simp only [hlr]
      exact andLoop_running (fun c => evalBool_running hwr c) _

/-- The union of the two lists of a disjunction. -/
theorem bOr_returns {running : Bool} (hl : Returns corpus qc left running (corpus.calculateInitialMatchlist1 qc left running))
    (hr : ∀ running, Returns corpus qc right running (corpus.calculateInitialMatchlist1 qc right running)) :
    Returns corpus qc (.bOr left right) running (corpus.calculateInitialMatchlist1 qc (.bOr left right) running) := by
  obtain ⟨l, hlres, hllook, hlrun, hldone⟩ := hl
  obtain ⟨r, hrres, hrlook, hrrun, hrdone⟩ := hr l.running
  unfold Returns
  rw [calculateInitialMatchlist1_bOr, hlres, bind_eq_bind, bind_some]
  cases hlok : l.ok with
  | false =>
    rw [if_neg (by simp)]
    refine ⟨_, rfl, .failed _, hlrun, fun hwell hrunning => ?_⟩
    have := (hldone (Bool.and_eq_true_iff.mp hwell).1 hrunning).1
    simp [hlok] at this
  | true =>
    rw [if_pos rfl, hrres, bind_some]
    cases hrok : r.ok with
    | false =>
      rw [if_neg (by simp)]
      refine ⟨_, rfl, .failed _, fun h => hlrun (hrrun h), fun hwell hrunning => ?_⟩
      obtain ⟨hwl, hwr⟩ := Bool.and_eq_true_iff.mp hwell
      have := (hrdone hwr (hldone hwl hrunning).2).1
      simp [hrok] at this
    | true =>
      have hln : ∀ x ∈ l.matchlist.start, 0 ≤ x := fun x hx => (hllook.inCorpus x hx).1
      have hrn : ∀ x ∈ r.matchlist.start, 0 ≤ x := fun x hx => (hrlook.inCorpus x hx).1
      have hl : l.matchlist = ⟨l.matchlist.start, false⟩ := by rw [← hllook.notInverted]
      have hr : r.matchlist = ⟨r.matchlist.start, false⟩ := by rw [← hrlook.notInverted]
      -- the union is computed once, and is in the order of its parts
      obtain ⟨out, hout, hsorted, hmem⟩ := union_spec corpus.size (fun _ _ h => le_of_lt h) (fun _ _ h => h) hln hrn
        hllook.sorted hrlook.sorted
      rw [← hl, ← hr] at hout
      rw [if_pos rfl, InitialMatchlist.complementIfInverted, InitialMatchlist.complementIfInverted,
        if_neg (by simp [hllook.notInverted]), if_neg (by simp [hrlook.notInverted])]
      simp only [bind_eq_bind, bind_some, hout]
      refine ⟨_, rfl, ⟨rfl, hsorted, fun hd => ?_, fun x hx => ?_, fun _ hrunning x hx => ?_⟩,
        fun h => hlrun (hrrun h), fun hwell hrunning => ⟨rfl, ?_⟩⟩
      · obtain ⟨hdl, hdr⟩ := Bool.and_eq_true_iff.mp hd
        obtain ⟨out', hout', hstrict, -⟩ := union_spec corpus.size (fun _ _ h => h) (fun _ _ h => le_of_lt h) hln hrn
          (hllook.strict hdl) (hrlook.strict hdr)
        rw [← hl, ← hr, hout] at hout'
        obtain rfl := congrArg InitialMatchlist.start (some.inj hout')
        exact hstrict
      · rcases (hmem x).mp hx with h | h
        · exact hllook.inCorpus x h
        · exact hrlook.inCorpus x h
      · rw [hmem, hllook.mem hlok (hrrun hrunning) x hx, hrlook.mem hrok hrunning x hx]
        cases hv : (corpus.evalBool left x).1 <;> simp [hv]
      · obtain ⟨hwl, hwr⟩ := Bool.and_eq_true_iff.mp hwell
        exact (hrdone hwr (hldone hwl hrunning).2).2

/-- The complement of the list of a negated tree. -/
theorem bNot_returns {running : Bool} (hd : left.distinct = true)
    (hl : Returns corpus qc left running (corpus.calculateInitialMatchlist1 qc left running)) :
    Returns corpus qc (.bNot left) running (corpus.calculateInitialMatchlist1 qc (.bNot left) running) := by
  obtain ⟨l, hres, hlook, hrun, hdone⟩ := hl
  unfold Returns
  rw [calculateInitialMatchlist1_bNot, hres, bind_eq_bind, bind_some]
  cases hok : l.ok with
  | false =>
    rw [if_neg (by simp)]
    refine ⟨_, rfl, .failed _, hrun, fun hwell hr => ?_⟩
    have := (hdone hwell hr).1
    simp [hok] at this
  | true =>
    have hl : l.matchlist = ⟨l.matchlist.start, false⟩ := by rw [← hlook.notInverted]
    obtain ⟨out, hout, hsorted, hmem⟩ := complement_spec (hlook.strict hd) hlook.inCorpus
    rw [← hl] at hout
    have hr : ∀ x ∈ out, corpus.IsCpos x := fun x hx => ((hmem x).mp hx).1
    rw [if_pos rfl, hout]
    simp only [bind_eq_bind, bind_some, restrict_eq qc (hsorted.imp fun h => le_of_lt h) hr]
    have hfilter : (out.filter (coveredBy qc.range)).Pairwise (· < ·) := hsorted.filter _
    refine ⟨_, rfl, ⟨rfl, hfilter.imp fun h => le_of_lt h, fun _ => hfilter, fun x hx => ?_, fun _ hrunning x hx => ?_⟩,
      hrun, fun hwell hrunning => ⟨rfl, (hdone hwell hrunning).2⟩⟩
    · exact hr x (mem_filter.mp hx).1
    · have hc := QueryCorpus.contains_isCpos hx
      rw [mem_filter_coveredBy hx, hmem, hlook.mem hok hrunning x hx]
      simp [hc]

/-- The positions of an ID list, or their complement. -/
theorem idList_returns {attr : P} {items : List ℤ} {negated : Bool} (ho : (.idList attr items negated : Constraint P S).Ordered (· ≤ ·))
    (hsafe : negated = true → items.Nodup) (running : Bool) :
    Returns corpus qc (.idList attr items negated) running
      (corpus.calculateInitialMatchlist1 qc (.idList attr items negated) running) := by
  have hlist : (if items.length > 0 then ({ start := corpus.idlist2cpos attr items } : InitialMatchlist) else {}) =
      { start := corpus.idlist2cpos attr items } := by
    split_ifs with hlen
    · rfl
    · rw [length_eq_zero_iff.mp (Nat.eq_zero_of_not_pos hlen)]
      rfl
  have hr : ∀ x ∈ corpus.idlist2cpos attr items, corpus.IsCpos x := by
    intro x hx
    obtain ⟨id, hid, -⟩ := (mem_idlist2cpos ho.2).mp hx
    exact cpos2id_isCpos hid
  have hd : corpus.Denotes (.idList attr items negated) _ := denotes_idList ho.1 negated
  rw [calculateInitialMatchlist1_idList]
  simp only [hlist]
  cases negated with
  | true =>
    obtain ⟨out, hout, hsorted, hmem⟩ := complement_spec (strict_idlist2cpos ho.2 (hsafe rfl)) hr
    have hr' : ∀ x ∈ out, corpus.IsCpos x := fun x hx => ((hmem x).mp hx).1
    rw [if_pos rfl, hout]
    simp only [bind_eq_bind, bind_some, restrict_eq qc (hsorted.imp fun h => le_of_lt h) hr']
    refine .of_list (hsorted.filter _) (fun x hx => hr' x (mem_filter.mp hx).1) (fun x hx => ?_) running
    have hc := QueryCorpus.contains_isCpos hx
    rw [mem_filter_coveredBy hx, hmem, mem_idlist2cpos ho.2, (hd x hc).1]
    simp [hc]
  | false =>
    rw [if_neg (by simp), restrict_eq qc (sorted_idlist2cpos items) hr]
    refine ⟨_, rfl, ⟨rfl, (sorted_idlist2cpos items).filter _, fun hdist => ?_, fun x hx => hr x (mem_filter.mp hx).1,
      fun _ _ x hx => ?_⟩, fun h => h, fun _ h => ⟨rfl, h⟩⟩
    · have hnodup : items.Nodup := by simpa [Constraint.distinct] using hdist
      exact (strict_idlist2cpos ho.2 hnodup).filter _
    · rw [mem_filter_coveredBy hx, mem_idlist2cpos ho.2, (hd x (QueryCorpus.contains_isCpos hx)).1]
      simp

/-- The lookup of every tree of the parser, by induction over the tree. -/
theorem calculateInitialMatchlist1_returns (hp : t.Parsed) (ho : t.Ordered (· ≤ ·)) (hsafe : t.indexSafe = true)
    (hconst : t ≠ .cnode true) (running : Bool) :
    Returns corpus qc t running (corpus.calculateInitialMatchlist1 qc t running) := by
  have hne : ∀ {t : Constraint P S}, t.isConst = false → t ≠ .cnode true := by
    intro t h he
    simp [he, Constraint.isConst] at h
  induction t generalizing running with
  | bAnd left right ihl ihr => exact bAnd_returns (ihl hp.1.1 ho.1 hsafe (hne hp.1.2) running)
  | bOr left right ihl ihr =>
    obtain ⟨hsl, hsr⟩ := Bool.and_eq_true_iff.mp hsafe
    exact bOr_returns (ihl hp.1.1 ho.1 hsl (hne hp.1.2) running) (ihr hp.2.1 ho.2 hsr (hne hp.2.2))
  | bImplies left right ihl ihr => exact scanCorpus_returns _ running
  | bNot left ih =>
    obtain ⟨hs, hd⟩ := Bool.and_eq_true_iff.mp hsafe
    exact bNot_returns hd (ih hp.1 ho hs (hne hp.2) running)
  | cmp op left right =>
    cases left with
    | stringLeaf leaf => exact absurd hp (by simp [Constraint.Parsed])
    | intLeaf n => exact absurd hp (by simp [Constraint.Parsed])
    | saRef attr => exact scanCorpus_returns _ running
    | paRef attr =>
      cases right with
      | stringLeaf leaf =>
        refine lookupString_returns (by simpa [Constraint.indexSafe] using hsafe) (fun id hid => ?_) running
        subst hid
        exact ho
      | paRef | saRef | intLeaf => exact scanCorpus_returns _ running
  | cmpEx left =>
    cases left with
    | stringLeaf leaf => exact absurd hp (by simp [Constraint.Parsed])
    | intLeaf n => exact absurd hp (by simp [Constraint.Parsed])
    | saRef | paRef => exact scanCorpus_returns _ running
  | cnode val =>
    cases val with
    | true => exact absurd rfl hconst
    | false => exact .of_list List.Pairwise.nil (by simp) (by simp) running
  | idList attr items negated =>
    refine idList_returns ho (fun hneg => ?_) running
    simpa [Constraint.indexSafe, hneg] using hsafe

theorem calculateInitialMatchlist_returns (hp : t.Parsed) (ho : t.Ordered (· ≤ ·)) (hsafe : t.indexSafe = true)
    (hconst : t ≠ .cnode true) (running : Bool) :
    Returns corpus qc t running (corpus.calculateInitialMatchlist qc t running) := by
  obtain ⟨r, hres, hlook, hrun, hdone⟩ : Returns corpus qc t running _ :=
    calculateInitialMatchlist1_returns hp ho hsafe hconst running
  unfold Returns
  rw [calculateInitialMatchlist, hres, bind_eq_bind, bind_some]
  cases hok : r.ok with
  | false =>
    rw [if_neg (by simp)]
    exact ⟨r, rfl, hlook, hrun, hdone⟩
  | true =>
    have hr : r.matchlist = ⟨r.matchlist.start, false⟩ := by rw [← hlook.notInverted]
    rw [if_pos rfl, InitialMatchlist.materialise, if_neg (by simp [hlook.notInverted]), hr]
    simp only [bind_eq_bind, bind_some, restrict_eq qc hlook.sorted hlook.inCorpus]
    refine ⟨_, rfl, ⟨rfl, hlook.sorted.filter _, fun hd => (hlook.strict hd).filter _, fun x hx => ?_,
      fun _ hrunning x hx => ?_⟩, hrun, fun hwell hrunning => ?_⟩
    · exact hlook.inCorpus x (mem_filter.mp hx).1
    · rw [mem_filter_coveredBy hx]
      exact hlook.mem hok hrunning x hx
    · exact ⟨rfl, (hdone hwell hrunning).2⟩

/-- The lookup of a pattern finds the positions where the pattern is true, unless it is stopped by an error. -/
def Agrees (corpus : ConstraintCorpus P S) (qc : QueryCorpus corpus.size) (pattern : WordformPattern P S) : Prop :=
  ∃ r, corpus.matchfirstpattern qc pattern true = some r ∧
    (r.ok = true → r.running = true → ∀ cpos, qc.Contains cpos →
      (cpos ∈ r.matchlist.start ↔ (corpus.evalPattern pattern cpos).1 = true))

omit [DecidableEq P] in
/-- The lookup takes every operator but `!=` for `=`. -/
theorem lookupString_eq (hop : op ≠ .cmpNeq) (attr : P) (leaf : StringLeaf) (running : Bool) :
    corpus.lookupString qc op attr leaf running = corpus.lookupString qc .cmpEq attr leaf running := by
  unfold lookupString
  split <;> simp [hop]

theorem evalBool_ordering_string (hop : op ≠ .cmpEq) {attr : P} {leaf : StringLeaf}
    (hleaf : ∀ id, leaf ≠ .cid id) {cpos : ℤ} (hc : corpus.IsCpos cpos) :
    (corpus.evalBool (.cmp op (.paRef attr) (.stringLeaf leaf)) cpos).1 = true ↔
      ¬ (corpus.evalBool (.cmp .cmpEq (.paRef attr) (.stringLeaf leaf)) cpos).1 = true := by
  cases leaf with
  | cid id => exact absurd rfl (hleaf id)
  | normal sconst =>
    rw [(denotes_normal op attr sconst cpos hc).1, (denotes_normal .cmpEq attr sconst cpos hc).1]
    simp [hop]
  | regexp sconst canon =>
    rw [(denotes_regexp op attr sconst canon cpos hc).1, (denotes_regexp .cmpEq attr sconst canon cpos hc).1]
    simp [hop]

theorem evalBool_ordering_cid (hop : op ≠ .cmpEq) (hop' : op ≠ .cmpNeq) (attr : P) (id : ℤ) {cpos : ℤ}
    (hc : corpus.IsCpos cpos) :
    (corpus.evalBool (.cmp op (.paRef attr) (.stringLeaf (.cid id))) cpos).1 = false := by
  obtain ⟨tokenId, hid, -⟩ := cpos2id_isSome hc attr
  cases op with
  | cmpEq => exact absurd rfl hop
  | cmpNeq => exact absurd rfl hop'
  | cmpGt | cmpLt | cmpGet | cmpLet =>
    rw [evalBool_cmp (getLeafValue_paRef hid) rfl]
    rfl

/-- A comparison of an attribute and a string: the two evaluators agree exactly for `=` and `!=`, and
otherwise only as long as no position of the query corpus holds the string. -/
theorem agrees_string_iff {attr : P} {leaf : StringLeaf} (hid : ∀ id, leaf = .cid id → 0 ≤ id) :
    Agrees corpus qc (.pattern (.cmp op (.paRef attr) (.stringLeaf leaf))) ↔
      op = .cmpEq ∨ op = .cmpNeq ∨ ∀ cpos, qc.Contains cpos → ∃ id, leaf = .cid id ∧ ¬ corpus.HasId attr [id] cpos := by
  have hord : ∀ op', (Constraint.cmp op' (.paRef attr) (.stringLeaf leaf) : Constraint P S).Ordered (· ≤ ·) := by
    intro op'
    cases leaf with
    | cid id => exact hid id rfl
    | normal | regexp => trivial
  have hsafe : ∀ op', op' = .cmpEq ∨ op' = .cmpNeq → Returns corpus qc (.cmp op' (.paRef attr) (.stringLeaf leaf)) true
      (corpus.calculateInitialMatchlist qc (.cmp op' (.paRef attr) (.stringLeaf leaf)) true) := by
    intro op' hop
    have hparsed : (Constraint.cmp op' (.paRef attr) (.stringLeaf leaf) : Constraint P S).Parsed := trivial
    exact calculateInitialMatchlist_returns hparsed (hord op') (by simpa [Constraint.indexSafe] using hop) (by simp) true
  by_cases hop : op = .cmpEq ∨ op = .cmpNeq
  · obtain ⟨r, hres, hlook, -⟩ := hsafe op hop
    exact iff_of_true ⟨r, hres, hlook.mem⟩ (by tauto)
  · obtain ⟨hne, hne'⟩ := not_or.mp hop
    -- the list is that of `=`
    obtain ⟨r, hres, hlook, -, hdone⟩ := hsafe .cmpEq (.inl rfl)
    have hsame : corpus.matchfirstpattern qc (.pattern (.cmp op (.paRef attr) (.stringLeaf leaf))) true = some r := by
      rw [← hres]
      simp only [matchfirstpattern, calculateInitialMatchlist, calculateInitialMatchlist1_string, lookupString_eq hne']
    have hwell : (Constraint.cmp .cmpEq (.paRef attr) (.stringLeaf leaf) : Constraint P S).wellTyped = true := by
      cases leaf <;> rfl
    obtain ⟨hok, hrunning⟩ := hdone hwell rfl
    rw [or_iff_right hne, or_iff_right hne']
    have hagree : Agrees corpus qc (.pattern (.cmp op (.paRef attr) (.stringLeaf leaf))) ↔
        ∀ cpos, qc.Contains cpos → ((corpus.evalBool (.cmp .cmpEq (.paRef attr) (.stringLeaf leaf)) cpos).1 = true ↔
          (corpus.evalBool (.cmp op (.paRef attr) (.stringLeaf leaf)) cpos).1 = true) := by
      constructor
      · intro h cpos hc
        obtain ⟨r', hres', hmem⟩ := h
        obtain rfl := some.inj (hsame.symm.trans hres')
        rw [← hlook.mem hok hrunning cpos hc]
        exact hmem hok hrunning cpos hc
      · intro h
        refine ⟨r, hsame, fun _ _ cpos hc => ?_⟩
        rw [hlook.mem hok hrunning cpos hc]
        exact h cpos hc
    rw [hagree]
    refine forall_congr' fun cpos => forall_congr' fun hc => ?_
    have hcpos := QueryCorpus.contains_isCpos hc
    by_cases hleaf : ∃ id, leaf = .cid id
    · obtain ⟨id, rfl⟩ := hleaf
      rw [evalBool_ordering_cid hne hne' attr id hcpos, (denotes_cid .cmpEq (.inl rfl) attr id cpos hcpos).1]
      simp
    · have hno : ∀ id, leaf ≠ .cid id := fun id he => hleaf ⟨id, he⟩
      rw [evalBool_ordering_string hne hno hcpos]
      simp [hno]

end ConstraintCorpus

end Lookup

/-- The corpus with the word list `e`, and its second and third token as query corpus. -/
def accentQuery : QueryCorpus (accentCorpus ["e"] (by decide)).size where
  range := [{ start := 1, stop := 2 }]
  sorted := pairwise_singleton _ _
  inside := by decide

/-- The tree of `(!(word = $words) | word = "é") & word`. -/
def accentTree : Constraint Unit Unit :=
  .bAnd (.bOr (.idList () [1] true) (.cmp .cmpEq (.paRef ()) (.stringLeaf (.cid 0)))) (.cmpEx (.paRef ()))

theorem build_accentTree :
    (accentCorpus ["e"] (by decide)).build (.and (.or (.not (.relExpr (.pos ()) .cmpEq (.varRef "words")))
      (.relExpr (.pos ()) .cmpEq (.string "é" 0))) (.relExExpr (.pos ()))) = some accentTree := by
  decide

end CWB
