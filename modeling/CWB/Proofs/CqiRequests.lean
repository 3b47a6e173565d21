import CWB.Proofs.CqiHandlers

/-! Requests of the groups `CQI_CL` and `CQI_CQP`: when the operation that is asked for succeeds,
and under which condition the server answers the request as it should. -/

namespace CWB.Cqi

open List

/-! ## What the data of an attribute allow -/

def AlignAttribute.size (a : AlignAttribute) : ℤ :=
  match a.data with
  | .align boundaries _ => boundaries.length - 1
  | .xalign beads => beads.length

/-- The total number of positions fits into an `int`. Otherwise the request is only answered if the
sum still is positive and the data cannot be loaded. -/
def PosAttribute.SumFits (a : PosAttribute) (ids : List ℤ) : Prop :=
  a.total ids < 2 ^ 31 ∨ 0 < a.sum32 ids ∧ ¬a.Loads [.sequence, .reversed]

/-- The command that the server has the CQP parser execute for a query, and what becomes of it. -/
def queryResult (env : CqiEnv) (st : CqiServer) (cl : Entry) (child query : CString) : Yyparse :=
  env.yyparse { st.store with current := some cl.id } (cqpQuery (nameOf child) (nameOf query))

/-- The subcorpora that `CQI_CQP_LIST_SUBCORPORA` lists. -/
def subcorpora (st : CqiServer) (mother : Entry) : List Entry :=
  st.store.corpuslist.filter fun cl => cl.type = .sub ∧ cl.data.corpus.id = mother.data.corpus.id

/-! ## Success -/

/-- The operation succeeds. It does not fail for an element of a list that is out of range or not
found, since a value of the reply stands for that, but for data that cannot be loaded. -/
def Succeeds (env : CqiEnv) (st : CqiServer) : Command → List CqiValue → Prop
  | .clAttributeSize, [.string a] =>
    FindsPos env st a (·.Loads [.sequence]) ∨
      attributeOf env st a .pos = none ∧
        (FindsStruc env st a (fun s => s.strucData = true ∨ s.regions = []) ∨
          attributeOf env st a .struc = none ∧ FindsAlign env st a (·.alignData = true))
  | .clLexiconSize, [.string a] => FindsPos env st a (·.Loads [.lexiconIdx])
  | .clStr2id, [.string a, .stringList strs] =>
    FindsPos env st a fun p => strs.elems ≠ [] → p.Loads [.lexiconIdx, .lexiconSrt, .lexicon]
  | .clId2str, [.string a, .intList ids] => FindsPos env st a fun p => ids.elems ≠ [] → p.Loads [.lexicon, .lexiconIdx]
  | .clId2freq, [.string a, .intList ids] => FindsPos env st a fun p => ids.elems ≠ [] → p.Loads [.freqs]
  | .clCpos2id, [.string a, .intList cposs] => FindsPos env st a fun p => cposs.elems ≠ [] → p.Loads [.sequence]
  | .clCpos2str, [.string a, .intList cposs] =>
    FindsPos env st a fun p =>
      ∀ cpos ∈ cposs.elems, p.Loads [.sequence] ∧ (p.HasCpos cpos.toInt → p.Loads [.lexicon, .lexiconIdx])
  | .clCpos2struc, [.string a, .intList cposs] | .clCpos2lbound, [.string a, .intList cposs]
  | .clCpos2rbound, [.string a, .intList cposs] => FindsStruc env st a fun s => cposs.elems ≠ [] → s.strucData = true
  | .clCpos2alg, [.string a, .intList cposs] => FindsAlign env st a fun al => cposs.elems ≠ [] → al.alignData = true
  | .clStruc2str, [.string a, .intList strucs] =>
    FindsStruc env st a fun s => strucs.elems ≠ [] → s.values ≠ none → s.strucValues = true
  | .clId2cpos, [.string a, .int id] =>
    FindsPos env st a fun p => p.Loads [.sequence, .lexiconIdx, .freqs, .reversed] ∧ p.HasId id.toInt
  | .clIdlist2cpos, [.string a, .intList ids] =>
    FindsPos env st a fun p =>
      p.Loads [.sequence, .lexiconIdx, .freqs, .reversed] ∧ ids.elems ≠ [] ∧ ∀ id ∈ ids.elems, p.HasId id.toInt
  | .clRegex2id, [.string a, .string regex] =>
    FindsPos env st a fun p => p.Loads [.lexiconIdx, .lexicon] ∧ env.newRegex regex ≠ none
  | .clStruc2cpos, [.string a, .int struc] =>
    FindsStruc env st a fun s => s.strucData = true ∧ 0 ≤ struc.toInt ∧ struc.toInt < s.regions.length
  | .clAlg2cpos, [.string a, .int alg] =>
    FindsAlign env st a fun al => al.alignData = true ∧ 0 ≤ alg.toInt ∧ alg.toInt < al.size
  | .cqpQuery, [.string mother, .string child, .string query] =>
    splitSubcorpusSpec env (nameOf mother) ≠ none ∧ checkSubcorpusName env (nameOf child) = true ∧
      ∃ cl, findCorpus env st.store (nameOf mother) = some cl ∧ (queryResult env st cl child query).status = 0 ∧
        (queryResult env st cl child query).rest = [] ∧ (queryResult env st cl child query).carriedOut = true
  | .cqpListSubcorpora, [.string corpus] =>
    checkCorpusName env (nameOf corpus) = true ∧ findCorpus env st.store (nameOf corpus) ≠ none
  | .cqpSubcorpusSize, [.string subcorpus] => findCorpus env st.store (nameOf subcorpus) ≠ none
  | .cqpSubcorpusHasField, [.string subcorpus, .byte field] =>
    findCorpus env st.store (nameOf subcorpus) ≠ none ∧ cqiField field ≠ none
  | .cqpDumpSubcorpus, [.string subcorpus, .byte field, .int first, .int last] =>
    ∃ cl, findCorpus env st.store (nameOf subcorpus) = some cl ∧ cqiField field ≠ none ∧ 0 ≤ first.toInt ∧
      first.toInt ≤ last.toInt ∧ last.toInt < cl.data.range.length
  | .cqpDropSubcorpus, [.string subcorpus] =>
    (∃ corpus sub, splitSubcorpusSpec env (nameOf subcorpus) = some (corpus, some sub)) ∧
      findCorpus env st.store (nameOf subcorpus) ≠ none
  | .cqpFdist1, [.string subcorpus, .int cutoff, .byte field, .string att] =>
    ∃ cl field', findCorpus env st.store (nameOf subcorpus) = some cl ∧ cqiField field = some field' ∧
      env.computeGrouping cl none (field', att) (groupCutoff cutoff) ≠ none
  | .cqpFdist2, [.string subcorpus, .int cutoff, .byte field₁, .string att₁, .byte field₂, .string att₂] =>
    ∃ cl field₁' field₂', findCorpus env st.store (nameOf subcorpus) = some cl ∧ cqiField field₁ = some field₁' ∧
      cqiField field₂ = some field₂' ∧
      env.computeGrouping cl (some (field₁', att₁)) (field₂', att₂) (groupCutoff cutoff) ≠ none
  | _, _ => False

/-- The condition under which the server answers a request as it should. -/
def Safe (env : CqiEnv) (st : CqiServer) : Command → List CqiValue → Prop
  | .clAttributeSize, [.string a] =>
    HasBucket st a ∧ (attributeOf env st a .pos = none →
      IfStruc env st a (fun s => s.strucData = true ∨ s.regions = []) ∧
        (attributeOf env st a .struc = none → IfAlign env st a fun al => al.alignData = true → 0 ≤ al.size))
  | .clLexiconSize, [.string a] => HasBucket st a
  -- the argument is not read
  | .clDropAttribute, _ => False
  | .clStr2id, [.string a, .stringList strs] =>
    HasBucket st a ∧
      IfPos env st a fun p => strs.elems ≠ [] → p.Loads [.lexiconIdx, .lexiconSrt, .lexicon] ∧ p.lexicon ≠ []
  | .clId2str, [.string a, .intList ids] =>
    HasBucket st a ∧ IfPos env st a fun p => ids.elems ≠ [] → p.Loads [.lexicon, .lexiconIdx]
  | .clId2freq, [.string a, .intList ids] => HasBucket st a ∧ IfPos env st a fun p => ids.elems ≠ [] → p.Loads [.freqs]
  | .clCpos2id, [.string a, .intList cposs] =>
    HasBucket st a ∧ IfPos env st a fun p => cposs.elems ≠ [] → p.Loads [.sequence]
  | .clCpos2str, [.string a, .intList cposs] =>
    HasBucket st a ∧ IfPos env st a fun p =>
      ∀ cpos ∈ cposs.elems, p.Loads [.sequence] ∧ (p.HasCpos cpos.toInt → p.Loads [.lexicon, .lexiconIdx])
  | .clCpos2struc, [.string a, .intList cposs] | .clCpos2lbound, [.string a, .intList cposs]
  | .clCpos2rbound, [.string a, .intList cposs] =>
    HasBucket st a ∧ IfStruc env st a fun s => cposs.elems ≠ [] → s.strucData = true
  | .clCpos2alg, [.string a, .intList cposs] =>
    HasBucket st a ∧ IfAlign env st a fun al => cposs.elems ≠ [] → al.alignData = true
  | .clStruc2str, [.string a, .intList strucs] =>
    HasBucket st a ∧ IfStruc env st a fun s => strucs.elems ≠ [] → s.values ≠ none → s.strucValues = true
  | .clId2cpos, [.string a, .int _] => HasBucket st a ∧ IfPos env st a fun p => p.Loads [.sequence] → p.ids ≠ []
  | .clIdlist2cpos, [.string a, .intList ids] =>
    HasBucket st a ∧ IfPos env st a fun p =>
      p.Loads [.lexiconIdx, .freqs] → (∀ id ∈ ids.elems, p.HasId id.toInt) → p.SumFits (ids.elems.map BitVec.toInt)
  | .clRegex2id, [.string a, .string _] | .clStruc2cpos, [.string a, .int _] | .clAlg2cpos, [.string a, .int _] =>
    HasBucket st a
  | .cqpQuery, [.string mother, .string child, .string query] =>
    checkSubcorpusName env (nameOf child) = true → ∀ c sc cl, splitSubcorpusSpec env (nameOf mother) = some (c, sc) →
      findCorpus env st.store (nameOf mother) = some cl → (queryResult env st cl child query).status = 0 →
      (queryResult env st cl child query).rest = [] →
      ((queryResult env st cl child query).carriedOut = true ↔
        findCorpus env (queryResult env st cl child query).store (combineSubcorpusSpec c (nameOf child)) ≠ none)
  | .cqpListSubcorpora, [.string corpus] =>
    checkCorpusName env (nameOf corpus) = true →
      ∃ mother, findCorpus env st.store (nameOf corpus) = some mother ∧ (subcorpora st mother).length < 2 ^ 31
  | _, _ => True

variable {env : CqiEnv} {st : CqiServer} {a : CString}

open CWB.Cqi.PosAttribute

/-! What the two conditions are for single commands, without going through all others. -/

theorem succeeds_clAttributeSize : Succeeds env st .clAttributeSize [.string a] ↔
    FindsPos env st a (·.Loads [.sequence]) ∨
      attributeOf env st a .pos = none ∧
        (FindsStruc env st a (fun s => s.strucData = true ∨ s.regions = []) ∨
          attributeOf env st a .struc = none ∧ FindsAlign env st a (·.alignData = true)) := Iff.rfl

theorem safe_clAttributeSize : Safe env st .clAttributeSize [.string a] ↔
    HasBucket st a ∧ (attributeOf env st a .pos = none →
      IfStruc env st a (fun s => s.strucData = true ∨ s.regions = []) ∧
        (attributeOf env st a .struc = none → IfAlign env st a fun al => al.alignData = true → 0 ≤ al.size)) := Iff.rfl

theorem succeeds_cqpQuery {mother child query : CString} :
    Succeeds env st .cqpQuery [.string mother, .string child, .string query] ↔
      splitSubcorpusSpec env (nameOf mother) ≠ none ∧ checkSubcorpusName env (nameOf child) = true ∧
        ∃ cl, findCorpus env st.store (nameOf mother) = some cl ∧ (queryResult env st cl child query).status = 0 ∧
          (queryResult env st cl child query).rest = [] ∧ (queryResult env st cl child query).carriedOut = true := Iff.rfl

theorem safe_cqpQuery {mother child query : CString} :
    Safe env st .cqpQuery [.string mother, .string child, .string query] ↔
      (checkSubcorpusName env (nameOf child) = true → ∀ c sc cl, splitSubcorpusSpec env (nameOf mother) = some (c, sc) →
        findCorpus env st.store (nameOf mother) = some cl → (queryResult env st cl child query).status = 0 →
        (queryResult env st cl child query).rest = [] →
        ((queryResult env st cl child query).carriedOut = true ↔
          findCorpus env (queryResult env st cl child query).store (combineSubcorpusSpec c (nameOf child)) ≠ none)) :=
  Iff.rfl

theorem succeeds_cqpListSubcorpora {corpus : CString} : Succeeds env st .cqpListSubcorpora [.string corpus] ↔
    checkCorpusName env (nameOf corpus) = true ∧ findCorpus env st.store (nameOf corpus) ≠ none := Iff.rfl

theorem safe_cqpListSubcorpora {corpus : CString} : Safe env st .cqpListSubcorpora [.string corpus] ↔
    (checkCorpusName env (nameOf corpus) = true →
      ∃ mother, findCorpus env st.store (nameOf corpus) = some mother ∧ (subcorpora st mother).length < 2 ^ 31) := Iff.rfl

/-! ## The group `CQI_CL` -/

theorem answers_intOrError_ite {c : Prop} [Decidable c] {n : ℤ} (hn : 0 ≤ n) :
    (intOrError (if c then (n, .ok) else Cda.enodata.fail)).Answers st c := by
  split_ifs with hc
  · exact (answers_intOrError_of_nonneg hn).mpr hc
  · exact (answers_intOrError_of_neg (by decide)).mpr ⟨rfl, hc⟩

theorem answers_clMaxCpos (p : PosAttribute) : (intOrError (clMaxCpos (.pos p))).Answers st (p.Loads [.sequence]) := by
  rw [loads_cons, and_iff_left (loads_nil.mpr trivial)]
  exact answers_intOrError_ite (Int.natCast_nonneg _)

theorem answers_clMaxAlg (al : AlignAttribute) :
    (intOrError (clMaxAlg (.align al))).Answers st (al.alignData = true) ↔ (al.alignData = true → 0 ≤ al.size) := by
  by_cases h : al.alignData = true
  · have hsize : clMaxAlg (.align al) = (al.size, .ok) := by
      simp only [clMaxAlg, h, not_true_eq_false, if_false, AlignAttribute.size]
      cases al.data <;> rfl
    rw [hsize]
    by_cases hneg : al.size < 0
    · rw [answers_intOrError_of_neg hneg]
      exact ⟨fun ha => absurd h ha.2, fun hle => absurd hneg (not_lt.mpr (hle h))⟩
    · rw [answers_intOrError_of_nonneg (not_lt.mp hneg)]
      exact ⟨fun _ _ => not_lt.mp hneg, fun _ => h⟩
  · have hsize : clMaxAlg (.align al) = Cda.enodata.fail := if_pos h
    rw [hsize, answers_intOrError_of_neg (by decide)]
    exact ⟨fun _ hload => absurd hload h, fun _ => ⟨rfl, h⟩⟩

theorem answers_clAttributeSize :
    (doCqiClAttributeSize env a).Answers st (Succeeds env st .clAttributeSize [.string a]) ↔
      Safe env st .clAttributeSize [.string a] := by
  by_cases hb : HasBucket st a
  · obtain ⟨st₁, hlookup₁, hnone₁⟩ := @cqiLookupAttribute_spec env st .pos a hb
    cases hpos : attributeOf env st a .pos with
    | some att =>
      obtain ⟨p, rfl⟩ := exists_pos_of_type (attributeOf_type hpos)
      rw [hpos] at hlookup₁
      have hrun : doCqiClAttributeSize env a st = intOrError (clMaxCpos (.pos p)) st₁ := by
        simp only [doCqiClAttributeSize, hlookup₁]
      have hok : Succeeds env st .clAttributeSize [.string a] ↔ p.Loads [.sequence] := by
        simp [succeeds_clAttributeSize, FindsPos, hpos]
      rw [answers_congr hrun, hok]
      simp only [safe_clAttributeSize, hb, hpos, reduceCtorEq, false_implies, and_true, iff_true]
      exact answers_clMaxCpos p
    | none =>
      obtain ⟨-, hb₁, hkept₁⟩ := hnone₁ hpos
      obtain ⟨st₂, hlookup₂, hnone₂⟩ := @cqiLookupAttribute_spec env st₁ .struc a hb₁
      rw [hpos] at hlookup₁
      rw [hkept₁] at hlookup₂ hnone₂
      cases hstruc : attributeOf env st a .struc with
      | some att =>
        obtain ⟨s, rfl⟩ := exists_struc_of_type (attributeOf_type hstruc)
        rw [hstruc] at hlookup₂
        have hrun : ∃ n st', doCqiClAttributeSize env a st = cqiDataInt n st' := by
          simp only [doCqiClAttributeSize, hlookup₁, hlookup₂]
          exact ⟨_, _, rfl⟩
        obtain ⟨n, st', hrun⟩ := hrun
        rw [answers_congr hrun, answers_cqiDataInt]
        simp [succeeds_clAttributeSize, safe_clAttributeSize, FindsPos, FindsStruc, IfStruc, hb, hpos, hstruc]
      | none =>
        obtain ⟨-, hb₂, hkept₂⟩ := hnone₂ hstruc
        rw [hstruc] at hlookup₂
        have hrun : doCqiClAttributeSize env a st =
            withAttribute env a .align (fun att => intOrError (clMaxAlg att)) st₂ := by
          simp only [doCqiClAttributeSize, hlookup₁, hlookup₂]
        have hkept : attributeOf env st₂ a .align = attributeOf env st a .align := by rw [hkept₂, hkept₁]
        have hok : Succeeds env st .clAttributeSize [.string a] ↔ FindsAlign env st₂ a (·.alignData = true) := by
          simp [succeeds_clAttributeSize, FindsPos, FindsStruc, FindsAlign, hpos, hstruc, hkept]
        rw [answers_congr hrun, hok, answers_withAlign fun al _ => answers_clMaxAlg al]
        simp [safe_clAttributeSize, IfStruc, IfAlign, hb, hb₂, hpos, hstruc, hkept]
  · have hrun : doCqiClAttributeSize env a st = none := by
      simp only [doCqiClAttributeSize, cqiLookupAttribute_eq_none hb]
    exact ⟨fun ha => absurd ha (not_answers_of_none hrun), fun ha => absurd ha.1 hb⟩

theorem answers_clLexiconSize :
    (doCqiClLexiconSize env a).Answers st (Succeeds env st .clLexiconSize [.string a]) ↔
      Safe env st .clLexiconSize [.string a] := by
  apply answers_withPos_always
  intro p st'
  rw [loads_cons, and_iff_left (loads_nil.mpr trivial)]
  exact answers_intOrError_ite (Int.natCast_nonneg _)

/-! Look-ups of the elements of a list. -/

section Lists

theorem answers_clStr2id {strs : CList CString} :
    (doCqiClStr2id env a strs.elems).Answers st (Succeeds env st .clStr2id [.string a, .stringList strs]) ↔
      Safe env st .clStr2id [.string a, .stringList strs] := by
  apply answers_withPos
  intro p st'
  by_cases hload : p.Loads [.lexiconIdx, .lexiconSrt, .lexicon]
  · have hlookup : ∀ str, clStr2id (.pos p) str =
        if p.lexicon = [] then none else some (str2idLoop p str 1000000 0 p.lexicon.length) := by
      intro str
      simp only [loads_cons, loads_nil, and_true] at hload
      simp only [clStr2id, hload, and_true, not_true_eq_false, if_false]
    by_cases hlex : p.lexicon = []
    · rcases hstrs : strs.elems with _ | ⟨str, rest⟩
      · rw [answers_eachInt (by simp) (by simp)]
        simp
      · have hrun : eachElement .dataIntList (str :: rest) (fun str => (clStr2id (.pos p) str).map (sentInt (-1))) st' =
            none := by
          simp [eachElement, mapM_cons, hlookup, hlex]
        refine ⟨fun ha => absurd ha (not_answers_of_none hrun), fun ha => absurd hlex (ha (by simp)).2⟩
    · rw [answers_eachInt strs.length_lt fun str _ => by simp [hlookup, hlex, sentInt]]
      simp [hload, hlex]
  · have hlookup : ∀ str, clStr2id (.pos p) str = some Cda.enodata.fail := by
      intro str
      simp only [loads_cons, loads_nil, and_true] at hload
      simp only [clStr2id, if_pos hload]
    rw [answers_eachInt strs.length_lt fun str _ => by simp [hlookup, sentInt]]
    simp [hload]

variable {list : CList CInt}

theorem answers_clId2str :
    (doCqiClId2str env a list.elems).Answers st (Succeeds env st .clId2str [.string a, .intList list]) ↔
      Safe env st .clId2str [.string a, .intList list] :=
  answers_withPos fun _ _ => answers_eachString list.length_lt fun _ _ => ⟨_, _, rfl⟩

theorem answers_clId2freq :
    (doCqiClId2freq env a list.elems).Answers st (Succeeds env st .clId2freq [.string a, .intList list]) ↔
      Safe env st .clId2freq [.string a, .intList list] :=
  answers_withPos fun _ _ => answers_eachInt list.length_lt fun _ _ => ⟨_, _, rfl⟩

theorem answers_clCpos2id :
    (doCqiClCpos2id env a list.elems).Answers st (Succeeds env st .clCpos2id [.string a, .intList list]) ↔
      Safe env st .clCpos2id [.string a, .intList list] :=
  answers_withPos fun _ _ => answers_eachInt list.length_lt fun _ _ => ⟨_, _, rfl⟩

theorem answers_clCpos2str :
    (doCqiClCpos2str env a list.elems).Answers st (Succeeds env st .clCpos2str [.string a, .intList list]) ↔
      Safe env st .clCpos2str [.string a, .intList list] :=
  answers_withPos fun _ _ => answers_eachString list.length_lt fun _ _ => ⟨_, _, rfl⟩

theorem answers_clCpos2struc :
    (doCqiClCpos2struc env a list.elems).Answers st (Succeeds env st .clCpos2struc [.string a, .intList list]) ↔
      Safe env st .clCpos2struc [.string a, .intList list] :=
  answers_withStruc fun _ _ => answers_eachInt list.length_lt fun _ _ => ⟨_, _, rfl⟩

theorem cpos2bound_int (bound : ℤ × ℤ → ℤ) (att : ClAttribute) (cpos : ℤ) :
    ∃ n errno, cpos2bound bound att cpos = (.int n, errno) := by
  dsimp only [cpos2bound]
  split_ifs
  · exact ⟨_, _, rfl⟩
  · split <;> exact ⟨_, _, rfl⟩

theorem answers_clCpos2lbound :
    (doCqiClCpos2lbound env a list.elems).Answers st (Succeeds env st .clCpos2lbound [.string a, .intList list]) ↔
      Safe env st .clCpos2lbound [.string a, .intList list] := by
  refine answers_withStruc fun s _ => answers_eachInt list.length_lt fun cpos _ => ?_
  obtain ⟨n, errno, h⟩ := cpos2bound_int Prod.fst (.struc s) cpos.toInt
  exact ⟨n, errno, congrArg some h⟩

theorem answers_clCpos2rbound :
    (doCqiClCpos2rbound env a list.elems).Answers st (Succeeds env st .clCpos2rbound [.string a, .intList list]) ↔
      Safe env st .clCpos2rbound [.string a, .intList list] := by
  refine answers_withStruc fun s _ => answers_eachInt list.length_lt fun cpos _ => ?_
  obtain ⟨n, errno, h⟩ := cpos2bound_int Prod.snd (.struc s) cpos.toInt
  exact ⟨n, errno, congrArg some h⟩

theorem answers_clCpos2alg :
    (doCqiClCpos2alg env a list.elems).Answers st (Succeeds env st .clCpos2alg [.string a, .intList list]) ↔
      Safe env st .clCpos2alg [.string a, .intList list] :=
  answers_withAlign fun _ _ => answers_eachInt list.length_lt fun _ _ => ⟨_, _, rfl⟩

theorem answers_clStruc2str :
    (doCqiClStruc2str env a list.elems).Answers st (Succeeds env st .clStruc2str [.string a, .intList list]) ↔
      Safe env st .clStruc2str [.string a, .intList list] :=
  answers_withStruc fun _ _ => answers_eachString list.length_lt fun _ _ => ⟨_, _, rfl⟩

end Lists

/-! Positions and IDs. -/

theorem answers_clId2cpos {id : CInt} :
    (doCqiClId2cpos env a id).Answers st (Succeeds env st .clId2cpos [.string a, .int id]) ↔
      Safe env st .clId2cpos [.string a, .int id] := by
  apply answers_withPos
  intro p st'
  by_cases hseq : p.Loads [.sequence]
  · by_cases hne : p.ids = []
    · have hcpos : clId2cpos (.pos p) id.toInt = (none, .ok) := by
        rw [loads_cons] at hseq
        simp only [clId2cpos, clMaxCpos_of_loaded hseq.1, hne]
        rfl
      rw [hcpos, answers_listOrError_none]
      exact ⟨fun ha => absurd ha.1 (by decide), fun ha => absurd hne (ha hseq)⟩
    · by_cases hok : p.Loads [.sequence, .lexiconIdx, .freqs, .reversed] ∧ p.HasId id.toInt
      · obtain ⟨hload, hid⟩ := hok
        have hcpos : clId2cpos (.pos p) id.toInt = (some (p.positions id.toInt.toNat), .ok) := by
          have hload' := hload
          simp only [loads_cons, loads_nil, and_true] at hload'
          obtain ⟨hseq', hidx, hfreqs, hrev⟩ := hload'
          rw [clId2cpos_of_hasId hseq' hidx hfreqs hid, if_pos hrev]
        rw [hcpos, answers_listOrError_some (positions_length_lt _)]
        exact ⟨fun _ _ => hne, fun _ => ⟨hload, hid⟩⟩
      · obtain ⟨e, hmapped, hcpos⟩ := clId2cpos_fail hne hok
        rw [hcpos, answers_listOrError_none]
        exact ⟨fun _ _ => hne, fun _ => ⟨hmapped, hok⟩⟩
  · have hfail : ¬(p.Loads [.sequence, .lexiconIdx, .freqs, .reversed] ∧ p.HasId id.toInt) := by
      rintro ⟨hload, -⟩
      exact hseq fun c hc => hload c (by simp_all)
    have hcpos : clId2cpos (.pos p) id.toInt = (none, .enodata) := by
      rw [loads_cons, and_iff_left (loads_nil.mpr trivial)] at hseq
      exact clId2cpos_of_not_loaded hseq
    rw [hcpos, answers_listOrError_none]
    exact ⟨fun _ hload => absurd hload hseq, fun _ => ⟨rfl, hfail⟩⟩

theorem answers_clIdlist2cpos {ids : CList CInt} :
    (doCqiClIdlist2cpos env a ids.elems).Answers st (Succeeds env st .clIdlist2cpos [.string a, .intList ids]) ↔
      Safe env st .clIdlist2cpos [.string a, .intList ids] := by
  apply answers_withPos
  intro p st'
  have hids : (∀ id ∈ ids.elems, p.HasId id.toInt) ↔ ∀ id ∈ ids.elems.map BitVec.toInt, p.HasId id := by simp
  have hnil : ids.elems ≠ [] ↔ ids.elems.map BitVec.toInt ≠ [] := by simp
  rw [hids, hnil]
  generalize ids.elems.map BitVec.toInt = list
  have hdata : p.Loads [.sequence, .lexiconIdx, .freqs, .reversed] ↔
      p.Loads [.lexiconIdx, .freqs] ∧ p.Loads [.sequence, .reversed] := by
    simp only [loads_cons, loads_nil, and_true]
    tauto
  by_cases hargs : p.Loads [.lexiconIdx, .freqs] ∧ list ≠ [] ∧ ∀ id ∈ list, p.HasId id
  · obtain ⟨hload, hne, hall⟩ := hargs
    have hpos := total_pos hne hall
    have hsafe : (p.Loads [.lexiconIdx, .freqs] → (∀ id ∈ list, p.HasId id) → p.SumFits list) ↔ p.SumFits list :=
      ⟨fun h => h hload hall, fun h _ _ => h⟩
    have hok : (p.Loads [.sequence, .lexiconIdx, .freqs, .reversed] ∧ list ≠ [] ∧ ∀ id ∈ list, p.HasId id) ↔
        p.Loads [.sequence, .reversed] := by
      rw [hdata]
      exact ⟨fun h => h.1.2, fun h => ⟨⟨hload, h⟩, hne, hall⟩⟩
    rw [hsafe, hok]
    unfold PosAttribute.SumFits
    by_cases hsum : 0 < p.sum32 list
    · by_cases hseq : p.Loads [.sequence, .reversed]
      · by_cases htotal : p.total list < 2 ^ 31
        · obtain ⟨table, hlen, heq⟩ := clIdlist2cpos_of_lt true hload hne hall hseq htotal
          simp only [heq]
          rw [answers_listOrError_some (by omega)]
          exact ⟨fun _ => .inl htotal, fun _ => hseq⟩
        · simp only [clIdlist2cpos_of_ge true hload hne hall hseq (not_lt.mp htotal) hsum]
          exact ⟨fun ha => absurd ha (not_answers_of_none rfl), fun hs => absurd hseq (hs.resolve_left htotal).2⟩
      · simp only [clIdlist2cpos_of_not_loaded true hload hne hall hsum hseq]
        rw [answers_listOrError_none]
        exact ⟨fun _ => .inr ⟨hsum, hseq⟩, fun _ => ⟨rfl, hseq⟩⟩
    · have htotal : ¬p.total list < 2 ^ 31 := by
        intro hlt
        rw [sum32_of_lt hlt] at hsum
        exact hsum hpos
      have hempty : clIdlist2cpos true (.pos p) list = some (none, .ok) := by
        rw [clIdlist2cpos_eq true hload hne hall, if_pos (not_lt.mp hsum)]
      simp only [hempty]
      rw [answers_listOrError_none]
      exact ⟨fun ha => absurd ha.1 (by decide), fun hs => absurd (hs.resolve_left htotal).1 hsum⟩
  · obtain ⟨e, hmapped, heq⟩ := clIdlist2cpos_fail true hargs
    simp only [heq]
    rw [answers_listOrError_none]
    refine ⟨fun _ hload hall => ?_, fun _ => ⟨hmapped, fun hs => ?_⟩⟩
    · have hnil' : list = [] := by
        by_contra hne
        exact hargs ⟨hload, hne, hall⟩
      left
      simp [hnil', total]
    · exact hargs ⟨(hdata.mp hs.1).1, hs.2⟩

/-- A handler that enters `send_cl_error` with an error that can be sent. -/
theorem answers_of_sendClError (e : Cda) {handler : Handler} {ok : Prop}
    (hrun : handler st = sendClError { st with clErrno := e }) (hmapped : e.mapped = true) (hok : ¬ok) :
    handler.Answers st ok := by
  rw [answers_congr hrun, answers_sendClError]
  exact ⟨hmapped, hok⟩

theorem answers_of_cqiDataIntList (list : List ℕ) (st' : CqiServer) {handler : Handler} {ok : Prop}
    (hrun : handler st = cqiDataIntList list st') (hlen : list.length < 2 ^ 31) (hok : ok) : handler.Answers st ok := by
  rw [answers_congr hrun, answers_cqiDataIntList hlen]
  exact hok

theorem answers_clRegex2id {regex : CString} :
    (doCqiClRegex2id env a regex).Answers st (Succeeds env st .clRegex2id [.string a, .string regex]) ↔
      Safe env st .clRegex2id [.string a, .string regex] := by
  apply answers_withPos_always
  intro p st'
  by_cases hload : p.Loads [.lexiconIdx, .lexicon]
  · have hload' := hload
    simp only [loads_cons, loads_nil, and_true] at hload'
    cases hrx : env.newRegex regex with
    | none =>
      have hresult : clRegex2id env.newRegex (.pos p) regex = (none, .ebadregex) := by
        simp only [clRegex2id, hload', and_self, not_true_eq_false, if_false, hrx]
      refine answers_of_sendClError .ebadregex ?_ rfl (by simp)
      simp only [hresult]
      rfl
    | some rx =>
      obtain ⟨table, hresult, hlen⟩ : ∃ table, clRegex2id env.newRegex (.pos p) regex =
          (if table = [] then none else some table, .ok) ∧ table.length < 2 ^ 31 := by
        refine ⟨(range p.lexicon.length).filter fun id => p.lexicon[id]?.any rx, ?_, ?_⟩
        · simp only [clRegex2id, hload', and_self, not_true_eq_false, if_false, hrx]
        · have hfilter := length_filter_le (fun id => p.lexicon[id]?.any rx) (range p.lexicon.length)
          rw [length_range] at hfilter
          have hle := @lexicon_length_le p
          have hlt := p.length_lt
          omega
      by_cases htable : table = []
      · rw [if_pos htable] at hresult
        refine answers_of_cqiDataIntList [] { st' with clErrno := .ok } ?_ (by simp) ⟨hload, by simp⟩
        simp only [hresult]
        rfl
      · rw [if_neg htable] at hresult
        refine answers_of_cqiDataIntList table { st' with clErrno := .ok } ?_ hlen ⟨hload, by simp⟩
        simp only [hresult]
  · have hresult : clRegex2id env.newRegex (.pos p) regex = (none, .enodata) := by
      simp only [loads_cons, loads_nil, and_true] at hload
      simp only [clRegex2id, if_pos hload]
    refine answers_of_sendClError .enodata ?_ rfl fun hok => hload hok.1
    simp only [hresult]
    rfl

theorem answers_clStruc2cpos {struc : CInt} :
    (doCqiClStruc2cpos env a struc).Answers st (Succeeds env st .clStruc2cpos [.string a, .int struc]) ↔
      Safe env st .clStruc2cpos [.string a, .int struc] := by
  apply answers_withStruc_always
  intro s st'
  by_cases hload : s.strucData = true
  · by_cases hrange : struc.toInt < 0 ∨ struc.toInt ≥ s.regions.length
    · have hresult : clStruc2cpos (.struc s) struc.toInt = (none, .eidxorng) := by
        simp only [clStruc2cpos, hload, not_true_eq_false, if_false, if_pos hrange]
      refine answers_of_sendClError .eidxorng ?_ rfl (by omega)
      simp only [hresult]
    · obtain ⟨region, hregion⟩ : ∃ region, s.regions[struc.toInt.toNat]? = some region :=
        ⟨_, getElem?_eq_getElem (by omega)⟩
      have hresult : clStruc2cpos (.struc s) struc.toInt = (some region, .ok) := by
        simp only [clStruc2cpos, hload, not_true_eq_false, if_false, if_neg hrange, hregion]
      simp only [hresult]
      refine (answers_data rfl (.intInt _ _) not_isErrorReply_cons).mpr ⟨hload, by omega, by omega⟩
  · have hresult : clStruc2cpos (.struc s) struc.toInt = (none, .enodata) := by simp only [clStruc2cpos, if_pos hload]
    refine answers_of_sendClError .enodata ?_ rfl fun hok => hload hok.1
    simp only [hresult]

theorem answers_clAlg2cpos {alg : CInt} :
    (doCqiClAlg2cpos env a alg).Answers st (Succeeds env st .clAlg2cpos [.string a, .int alg]) ↔
      Safe env st .clAlg2cpos [.string a, .int alg] := by
  apply answers_withAlign_always
  intro al st'
  by_cases hload : al.alignData = true
  · by_cases hrange : alg.toInt < 0 ∨ alg.toInt ≥ al.size
    · have hresult : clAlg2cpos (.align al) alg.toInt = (none, .eidxorng) := by
        unfold AlignAttribute.size at hrange
        simp only [clAlg2cpos, hload, not_true_eq_false, if_false]
        cases hdata : al.data <;> simp only [hdata] at hrange ⊢ <;> rw [if_pos hrange]
      refine answers_of_sendClError .eidxorng ?_ rfl (by omega)
      simp only [hresult]
    · have hresult : ∃ regions, clAlg2cpos (.align al) alg.toInt = (some regions, .ok) := by
        unfold AlignAttribute.size at hrange
        simp only [clAlg2cpos, hload, not_true_eq_false, if_false]
        cases hdata : al.data <;> simp only [hdata] at hrange ⊢ <;> rw [if_neg hrange] <;> exact ⟨_, rfl⟩
      obtain ⟨⟨s1, s2, t1, t2⟩, hresult⟩ := hresult
      simp only [hresult]
      exact (answers_data rfl (.intIntIntInt _ _ _ _) not_isErrorReply_cons).mpr ⟨hload, by omega, by omega⟩
  · have hresult : clAlg2cpos (.align al) alg.toInt = (none, .enodata) := by simp only [clAlg2cpos, if_pos hload]
    refine answers_of_sendClError .enodata ?_ rfl fun hok => hload hok.1
    simp only [hresult]

end CWB.Cqi
