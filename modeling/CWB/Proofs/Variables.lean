import CWB.Spec.Variables
import CWB.Sanity.Constraint

/-! A variable holds the strings that its definitions say, and the IDs that it gives to a query
are those of its strings, however it was used before. -/

namespace CWB

open List

/-! ## What the definitions say -/

inductive VarEvent where
  | reset
  | add (s : String)
  | sub (s : String)
deriving Repr, DecidableEq

/-- `s` was added to the variable after its last reset and has not been subtracted since. -/
def AddedSince (log : List (String × VarEvent)) (varName s : String) : Prop :=
  ∃ before after, log = before ++ (varName, .add s) :: after ∧
    (varName, .reset) ∉ after ∧ (varName, .sub s) ∉ after

section Log

variable {log : List (String × VarEvent)} {varName varName' s t : String} {e : VarEvent}

theorem addedSince_concat {ev : String × VarEvent} :
    AddedSince (log ++ [ev]) varName s ↔
      ev = (varName, .add s) ∨ AddedSince log varName s ∧ ev ≠ (varName, .reset) ∧ ev ≠ (varName, .sub s) := by
  refine ⟨?_, ?_⟩
  · rintro ⟨before, after, heq, hreset, hsub⟩
    rcases eq_nil_or_concat after with rfl | ⟨after, x, rfl⟩
    · exact .inl (singleton_inj.mp (append_inj' heq rfl).2)
    · have hsplit : log ++ [ev] = (before ++ (varName, .add s) :: after) ++ [x] := by simpa using heq
      obtain ⟨hlog, hx⟩ := append_inj' hsplit rfl
      obtain rfl := singleton_inj.mp hx
      simp only [concat_eq_append, mem_append, mem_singleton, not_or] at hreset hsub
      exact .inr ⟨⟨before, after, hlog, hreset.1, hsub.1⟩, Ne.symm hreset.2, Ne.symm hsub.2⟩
  · rintro (rfl | ⟨⟨before, after, rfl, hreset, hsub⟩, hr, hs⟩)
    · exact ⟨log, [], rfl, not_mem_nil, not_mem_nil⟩
    · refine ⟨before, after ++ [ev], by simp, ?_, ?_⟩
      · simpa [hreset] using Ne.symm hr
      · simpa [hsub] using Ne.symm hs

theorem addedSince_other (hne : varName' ≠ varName) (es : List VarEvent) :
    AddedSince (log ++ es.map fun e => (varName', e)) varName s ↔ AddedSince log varName s := by
  induction es using reverseRecOn with
  | nil => simp
  | append_singleton es e ih =>
    rw [map_append, map_singleton, ← append_assoc, addedSince_concat, ih]
    simp [hne]

theorem AddedSince.mem (h : AddedSince log varName s) : varName ∈ log.map Prod.fst := by
  obtain ⟨before, after, rfl, -⟩ := h
  simp

end Log

/-- Two attributes of the same name, in corpora of the same name, give the same IDs. -/
def SameNames (uses : List VarLexicon) : Prop :=
  ∀ lex ∈ uses, ∀ lex' ∈ uses, lex.registryName = lex'.registryName → lex.attributeName = lex'.attributeName →
    lex.itemId = lex'.itemId

/-! ## One variable -/

namespace VariableBuffer

variable {v : VariableBuffer} {item s : String} {lex : VarLexicon}

/-- Only free slots have no string, and no string is in two slots. -/
structure WF (v : VariableBuffer) : Prop where
  free_iff : ∀ it ∈ v.items, it.free = it.sval.isNone
  nodup : v.getVariableStrings.Nodup

def apply (v : VariableBuffer) : VarEvent → VariableBuffer
  | .reset => v.variableDeleteItems
  | .add s => v.variableAddItem s
  | .sub s => v.variableSubtractItem s

theorem mem_strings : s ∈ v.getVariableStrings ↔ ∃ it ∈ v.items, it.free = false ∧ it.sval = some s := by
  simp [getVariableStrings, mem_filterMap]

theorem variableItemMember_iff : v.variableItemMember item ↔ item ∈ v.getVariableStrings := by
  simp [variableItemMember, mem_strings]

theorem strings_add (h : item ∉ v.getVariableStrings) :
    (v.variableAddItem item).getVariableStrings.Perm (item :: v.getVariableStrings) := by
  have hmem : v.variableItemMember item = false := by
    rw [← Bool.not_eq_true, variableItemMember_iff]
    exact h
  unfold variableAddItem
  rw [hmem, if_neg Bool.false_ne_true]
  cases hfind : v.items.findIdx? (·.free) with
  | none =>
    simp [getVariableStrings, filterMap_append, VariableItem.unused]
  | some i =>
    obtain ⟨hi, hfree, -⟩ := findIdx?_eq_some_iff_getElem.mp hfind
    obtain ⟨l₁, l₂, hsplit, -, hset⟩ :=
      @List.exists_of_set _ _ { free := false, sval := some item : VariableItem } _ hi
    have hold : v.getVariableStrings = (l₁ ++ v.items[i] :: l₂).filterMap
        (fun it => if it.free then none else it.sval) := by
      rw [← hsplit]
      rfl
    rw [hold]
    simp [getVariableStrings, hset, filterMap_append, hfree]

theorem strings_subtract (v : VariableBuffer) (item : String) :
    (v.variableSubtractItem item).getVariableStrings = v.getVariableStrings.filter (· ≠ item) := by
  simp only [getVariableStrings, variableSubtractItem]
  induction v.items with
  | nil => rfl
  | cons it items ih =>
    rw [map_cons, filterMap_cons, filterMap_cons, ih]
    rcases it with ⟨_ | _, _ | sval, ival⟩
    · simp
    · by_cases hs : sval = item <;> simp [hs, VariableItem.unused]
    · simp
    · simp

theorem mem_apply (e : VarEvent) : s ∈ (v.apply e).getVariableStrings ↔
    e = .add s ∨ s ∈ v.getVariableStrings ∧ e ≠ .reset ∧ e ≠ .sub s := by
  cases e with
  | reset => simp [apply, variableDeleteItems, getVariableStrings]
  | add t =>
    by_cases hmem : t ∈ v.getVariableStrings
    · rw [apply, variableAddItem, if_pos (variableItemMember_iff.mpr hmem)]
      simp only [ne_eq, reduceCtorEq, not_false_eq_true, and_self, and_true, VarEvent.add.injEq]
      exact ⟨.inr, fun h => h.elim (fun h => h ▸ hmem) id⟩
    · rw [apply, (strings_add hmem).mem_iff, mem_cons]
      simp [eq_comm]
  | sub t =>
    rw [apply, strings_subtract, mem_filter]
    refine ⟨fun ⟨hmem, hne⟩ => .inr ⟨hmem, by simp, fun h => ?_⟩, fun h => ?_⟩
    · exact of_decide_eq_true hne (VarEvent.sub.inj h).symm
    · obtain ⟨hmem, -, hne⟩ := h.resolve_left (by simp)
      exact ⟨hmem, decide_eq_true fun h => hne (h ▸ rfl)⟩

theorem WF.apply (h : v.WF) (e : VarEvent) : (v.apply e).WF := by
  cases e with
  | reset => exact ⟨fun it hit => absurd hit not_mem_nil, nodup_nil⟩
  | add t =>
    by_cases hmem : t ∈ v.getVariableStrings
    · rw [VariableBuffer.apply, variableAddItem, if_pos (variableItemMember_iff.mpr hmem)]
      exact h
    · refine ⟨?_, (strings_add hmem).nodup_iff.mpr (nodup_cons.mpr ⟨hmem, h.nodup⟩)⟩
      rw [VariableBuffer.apply, variableAddItem, if_neg fun hm => hmem (variableItemMember_iff.mp hm)]
      split
      · intro it hit
        rcases mem_or_eq_of_mem_set hit with hit | rfl
        · exact h.free_iff it hit
        · rfl
      · intro it hit
        rcases mem_append.mp hit with hit | hit
        · exact h.free_iff it hit
        · rcases mem_cons.mp hit with rfl | hit
          · rfl
          · obtain rfl := eq_of_mem_replicate hit
            rfl
  | sub t =>
    refine ⟨?_, ?_⟩
    · intro it hit
      obtain ⟨it', hit', rfl⟩ := mem_map.mp hit
      split_ifs
      · rfl
      · exact h.free_iff it' hit'
    · rw [VariableBuffer.apply, strings_subtract]
      exact h.nodup.filter _

/-- A change makes the variable invalid. -/
theorem apply_eq_or_invalid (v : VariableBuffer) (e : VarEvent) : v.apply e = v ∨ (v.apply e).valid = false := by
  cases e with
  | reset => exact .inr rfl
  | add t =>
    rw [apply, variableAddItem]
    split_ifs
    · exact .inl rfl
    · right
      split <;> rfl
  | sub t => exact .inr rfl

@[simp] theorem myName_apply (v : VariableBuffer) (e : VarEvent) : (v.apply e).myName = v.myName := by
  cases e with
  | reset => rfl
  | add t =>
    rw [apply, variableAddItem]
    split_ifs
    · rfl
    · split <;> rfl
  | sub t => rfl

/-! ### The IDs -/

/-- The IDs in the slots are those for `lex`. -/
structure Verified (v : VariableBuffer) (lex : VarLexicon) : Prop where
  corpus : v.myCorpus = some lex.registryName
  attr : v.myAttribute = some lex.attributeName
  ival : ∀ it ∈ v.items, it.free = false → ∀ sval, it.sval = some sval → it.ival = lex.itemId sval
  nrValid : v.nrValidItems = v.items.countP fun it => !it.free && 0 ≤ it.ival
  valid_iff : v.valid ↔ 0 < v.nrValidItems

/-- If the variable is valid, it has been verified for one of `uses`. -/
def Cached (v : VariableBuffer) (uses : List VarLexicon) : Prop := v.valid → ∃ lex ∈ uses, v.Verified lex

theorem strings_verify (v : VariableBuffer) (lex : VarLexicon) :
    (v.verifyVariable lex).getVariableStrings = v.getVariableStrings := by
  unfold verifyVariable
  split_ifs
  · rfl
  · simp only [getVariableStrings, filterMap_map]
    congr 1
    funext it
    rcases it with ⟨_ | _, _ | sval, ival⟩ <;> rfl

theorem WF.verify (h : v.WF) (lex : VarLexicon) : (v.verifyVariable lex).WF := by
  refine ⟨?_, (strings_verify v lex).symm ▸ h.nodup⟩
  unfold verifyVariable
  split_ifs
  · exact h.free_iff
  · intro it hit
    obtain ⟨it', hit', rfl⟩ := mem_map.mp hit
    have := h.free_iff it' hit'
    unfold verifyItem
    split_ifs <;> exact this

theorem verified_of_miss (h : ¬ (v.valid ∧ v.myCorpus = some lex.registryName ∧ v.myAttribute = some lex.attributeName)) :
    (v.verifyVariable lex).Verified lex := by
  rw [verifyVariable, if_neg h]
  refine ⟨rfl, rfl, ?_, rfl, by simp⟩
  intro it hit hfree sval hsval
  obtain ⟨it', hit', rfl⟩ := mem_map.mp hit
  unfold verifyItem at hfree hsval ⊢
  split_ifs at hfree hsval ⊢ with hf
  · exact absurd hfree (by simp [hf])
  · simp only at hsval
    simp only [hsval]

/-- Strings that are looked up alike leave the variable verified. -/
theorem Verified.of_itemId {lex' : VarLexicon} (h : v.Verified lex') (hcorpus : lex'.registryName = lex.registryName)
    (hattr : lex'.attributeName = lex.attributeName) (hid : lex'.itemId = lex.itemId) : v.Verified lex where
  corpus := h.corpus.trans (congrArg some hcorpus)
  attr := h.attr.trans (congrArg some hattr)
  ival it hit hfree sval hsval := (h.ival it hit hfree sval hsval).trans (congrFun hid sval)
  nrValid := h.nrValid
  valid_iff := h.valid_iff

theorem Cached.verified {uses : List VarLexicon} (h : v.Cached uses) (hnames : SameNames (lex :: uses)) :
    (v.verifyVariable lex).Verified lex := by
  by_cases hhit : v.valid ∧ v.myCorpus = some lex.registryName ∧ v.myAttribute = some lex.attributeName
  · obtain ⟨lex', hlex', hv⟩ := h hhit.1
    have hcorpus : lex'.registryName = lex.registryName := Option.some.inj (hv.corpus.symm.trans hhit.2.1)
    have hattr : lex'.attributeName = lex.attributeName := Option.some.inj (hv.attr.symm.trans hhit.2.2)
    rw [verifyVariable, if_pos hhit]
    exact hv.of_itemId hcorpus hattr (hnames lex' (by simp [hlex']) lex (by simp) hcorpus hattr)
  · exact verified_of_miss hhit

theorem Cached.verify {uses : List VarLexicon} (h : v.Cached uses) (lex : VarLexicon) :
    (v.verifyVariable lex).Cached (uses ++ [lex]) := by
  intro hvalid
  by_cases hhit : v.valid ∧ v.myCorpus = some lex.registryName ∧ v.myAttribute = some lex.attributeName
  · obtain ⟨lex', hlex', hv⟩ := h hhit.1
    rw [verifyVariable, if_pos hhit]
    exact ⟨lex', by simp [hlex'], hv⟩
  · exact ⟨lex, by simp, verified_of_miss hhit⟩

/-- The IDs found, in the order of the slots. -/
def ids (v : VariableBuffer) (lex : VarLexicon) : List ℤ := (v.getVariableStrings.map lex.itemId).filter (0 ≤ ·)

theorem Verified.ids_eq (h : v.Verified lex) (hwf : v.WF) :
    (v.items.filter fun it => !it.free && 0 ≤ it.ival).map VariableItem.ival = v.ids lex := by
  have hfree := hwf.free_iff
  have hival := h.ival
  simp only [ids, getVariableStrings]
  generalize v.items = items at hfree hival
  induction items with
  | nil => rfl
  | cons it items ih =>
    have hrest := ih (fun it' hit' => hfree it' (by simp [hit'])) fun it' hit' => hival it' (by simp [hit'])
    have hit := hfree it (by simp)
    rcases it with ⟨_ | _, _ | sval, ival⟩
    · simp at hit
    · obtain rfl : ival = lex.itemId sval := hival _ mem_cons_self rfl sval rfl
      by_cases hpos : 0 ≤ lex.itemId sval <;> simp [hpos, hrest]
    · simpa using hrest
    · simp at hit

theorem getVariableItems_verified (h : (v.verifyVariable lex).Verified lex) (hwf : v.WF) :
    (v.getVariableItems lex).1 = some ((v.ids lex).insertionSort (· ≤ ·)) := by
  have hids := h.ids_eq (hwf.verify lex)
  rw [ids, strings_verify, ← ids] at hids
  have hlen : (v.ids lex).length = (v.verifyVariable lex).nrValidItems := by
    rw [← hids, length_map, h.nrValid, countP_eq_length_filter]
  simp only [getVariableItems, hids, h.valid_iff, and_self]
  split_ifs with hpos hcut
  · rw [← hlen, take_length]
  · rw [← hlen, take_length] at hcut
    exact absurd rfl hcut
  · obtain hnil : v.ids lex = [] := length_eq_zero_iff.mp (by omega)
    rw [hnil]
    rfl

end VariableBuffer

/-! ### Their order -/

namespace VarLexicon

variable (lex : VarLexicon)

def lookupForm (sval : String) : String := if lex.utf8 then lex.canonical sval else sval

theorem itemId_eq_ofNat {sval : String} {id : ℕ} :
    lex.itemId sval = id ↔ lex.attr.str2id (lex.lookupForm sval) = some id := by
  unfold itemId
  rw [← lookupForm]
  cases lex.attr.str2id (lex.lookupForm sval) with
  | none => simp
  | some n => simp only [Int.natCast_inj, Option.some.injEq]

theorem itemId_eq_iff {s t : String} :
    (0 ≤ lex.itemId s ∧ lex.itemId s = lex.itemId t) ↔
      lex.lookupForm s = lex.lookupForm t ∧ lex.lookupForm s ∈ lex.attr.lexicon := by
  refine ⟨fun ⟨hpos, heq⟩ => ?_, fun ⟨heq, hmem⟩ => ?_⟩
  · obtain ⟨n, hn⟩ := Int.eq_ofNat_of_zero_le hpos
    obtain ⟨hlt, hs⟩ := PAttribute.str2id_eq_some.mp (lex.itemId_eq_ofNat.mp hn)
    obtain ⟨-, ht⟩ := PAttribute.str2id_eq_some.mp (lex.itemId_eq_ofNat.mp (heq ▸ hn))
    exact ⟨hs.symm.trans ht, hs ▸ PAttribute.id2str_mem hlt⟩
  · have hsame : lex.itemId s = lex.itemId t := by
      unfold itemId
      rw [← lookupForm, ← lookupForm, heq]
    refine ⟨?_, hsame⟩
    cases hid : lex.attr.str2id (lex.lookupForm s) with
    | none => exact absurd hmem (PAttribute.str2id_eq_none.mp hid)
    | some n =>
      rw [lex.itemId_eq_ofNat.mpr hid]
      exact Int.natCast_nonneg n

/-- No two of the strings have the same entry in the lexicon. -/
def NoSharedEntry (strings : List String) : Prop :=
  ∀ s ∈ strings, ∀ t ∈ strings, lex.lookupForm s = lex.lookupForm t → lex.lookupForm s ∈ lex.attr.lexicon → s = t

end VarLexicon

theorem VariableBuffer.mem_ids {v : VariableBuffer} {lex : VarLexicon} {id : ℤ} :
    id ∈ v.ids lex ↔ ∃ s ∈ v.getVariableStrings, ∃ n : ℕ, lex.attr.str2id (lex.lookupForm s) = some n ∧ id = n := by
  simp only [ids, mem_filter, mem_map, decide_eq_true_eq, ← VarLexicon.itemId_eq_ofNat]
  refine ⟨?_, ?_⟩
  · rintro ⟨⟨s, hs, rfl⟩, hpos⟩
    exact ⟨s, hs, (lex.itemId s).toNat, by omega, by omega⟩
  · rintro ⟨s, hs, n, hn, rfl⟩
    exact ⟨⟨s, hs, hn⟩, by omega⟩

theorem strict_insertionSort_iff (l : List ℤ) : (l.insertionSort (· ≤ ·)).Pairwise (· < ·) ↔ l.Nodup := by
  have hsorted := pairwise_insertionSort (· ≤ ·) l
  rw [← (perm_insertionSort (· ≤ ·) l).nodup_iff]
  refine ⟨fun h => h.imp fun hab => ne_of_lt hab, fun h => ?_⟩
  exact (hsorted.and h).imp fun hab => lt_of_le_of_ne hab.1 hab.2

theorem VariableBuffer.WF.nodup_ids_iff {v : VariableBuffer} (h : v.WF) (lex : VarLexicon) :
    (v.ids lex).Nodup ↔ lex.NoSharedEntry v.getVariableStrings := by
  have hpair : (v.ids lex).Nodup ↔ v.getVariableStrings.Pairwise fun s t =>
      0 ≤ lex.itemId s → 0 ≤ lex.itemId t → lex.itemId s ≠ lex.itemId t := by
    simp only [ids, List.Nodup, pairwise_filter, pairwise_map, decide_eq_true_eq]
  rw [hpair]
  refine ⟨fun hp s hs t ht heq hmem => ?_, fun hd => ?_⟩
  · by_contra hne
    have hsymm : Std.Symm fun s t => 0 ≤ lex.itemId s → 0 ≤ lex.itemId t → lex.itemId s ≠ lex.itemId t :=
      ⟨fun _ _ h ht hs => (h hs ht).symm⟩
    obtain ⟨hpos, hid⟩ := lex.itemId_eq_iff.mpr ⟨heq, hmem⟩
    exact hp.forall hs ht hne hpos (hid ▸ hpos) hid
  · refine h.nodup.pairwise_of_forall_ne fun s hs t ht hne hpos _ hid => ?_
    obtain ⟨heq, hmem⟩ := lex.itemId_eq_iff.mp ⟨hpos, hid⟩
    exact hne (hd s hs t ht heq hmem)

/-! ## Commands -/

/-- What the value of a definition does to the variable. -/
def VarOperator.events : VarOperator → List VarEvent
  | .extend varValues => (strtokItems varValues).map .add
  | .subtract varValues => (strtokItems varValues).map .sub
  | .set varValues => .reset :: (strtokItems varValues).map .add
  | .read none => [.reset]
  | .read (some lines) => .reset :: ((lines.map chomp).filter (· ≠ "")).map .add

theorem setVariableValue_eq (v : VariableBuffer) (op : VarOperator) :
    v.setVariableValue op = op.events.foldl VariableBuffer.apply v := by
  rcases op with varValues | varValues | varValues | _ | lines
  all_goals
    simp only [VariableBuffer.setVariableValue, VarOperator.events, foldl_cons, foldl_nil, foldl_map]
    rfl

namespace VariableSpace

def addSubEvents (space : VariableSpace) (var1Name : String) (add : Bool) (var2Name : String) : List VarEvent :=
  match findVariable space var1Name, findVariable space var2Name with
  | some _, some v2 => v2.getVariableStrings.map fun s => if add then .add s else .sub s
  | _, _ => []

theorem doAddSubVariables_eq (space : VariableSpace) (var1Name : String) (add : Bool) (var2Name : String) :
    doAddSubVariables space var1Name add var2Name
      = update space var1Name fun v => (addSubEvents space var1Name add var2Name).foldl VariableBuffer.apply v := by
  rw [doAddSubVariables, addSubEvents]
  rcases findVariable space var1Name with _ | v1 <;> rcases findVariable space var2Name with _ | v2
  · simp [update]
  · simp [update]
  · simp [update]
  · simp only [foldl_map]
    cases add <;> rfl

end VariableSpace

/-- What one command does to which variable. -/
def varEvents (f : String → String) (space : VariableSpace) : VarCommand → List (String × VarEvent)
  | .define varName op => (op.latex2iso f).events.map fun e => (varName, e)
  | .addSub var1Name add var2Name => (space.addSubEvents var1Name add var2Name).map fun e => (var1Name, e)
  | .assign var1Name var2Name =>
    (((VarOperator.set "").latex2iso f).events.map fun e => (var1Name, e)) ++
      (((space.doSetVariableValue var1Name ((VarOperator.set "").latex2iso f)).addSubEvents var1Name true var2Name).map
        fun e => (var1Name, e))
  | .use _ _ => []

/-- What the commands do one after the other. -/
def varLog (f : String → String) : VariableSpace → List VarCommand → List (String × VarEvent)
  | _, [] => []
  | space, cmd :: cmds => varEvents f space cmd ++ varLog f (varStep f space cmd) cmds

def varUses (cmds : List VarCommand) : List VarLexicon :=
  cmds.filterMap fun
    | .use _ lex => some lex
    | _ => none

/-- The state of the variables after the events of `log` and the queries of `uses`. -/
structure VarInvariant (space : VariableSpace) (log : List (String × VarEvent)) (uses : List VarLexicon) : Prop where
  names : (space.map VariableBuffer.myName).Nodup
  declared : ∀ n ∈ log.map Prod.fst, n ∈ space.map VariableBuffer.myName
  wf : ∀ v ∈ space, v.WF
  contents : ∀ v ∈ space, ∀ s, s ∈ v.getVariableStrings ↔ AddedSince log v.myName s
  cached : ∀ v ∈ space, v.Cached uses

namespace VarInvariant

open VariableSpace

variable {space : VariableSpace} {log : List (String × VarEvent)} {uses : List VarLexicon} {varName : String}

theorem map_myName_update (space : VariableSpace) (varName : String) {g : VariableBuffer → VariableBuffer}
    (hg : ∀ v, (g v).myName = v.myName) :
    (update space varName g).map VariableBuffer.myName = space.map VariableBuffer.myName := by
  rw [update, map_map]
  apply map_congr_left
  intro v _
  rw [Function.comp_apply]
  split_ifs
  · exact hg v
  · rfl

theorem event (h : VarInvariant space log uses) (hname : varName ∈ space.map VariableBuffer.myName) (e : VarEvent) :
    VarInvariant (update space varName (·.apply e)) (log ++ [(varName, e)]) uses := by
  have hnames := map_myName_update space varName fun v => v.myName_apply e
  refine ⟨hnames ▸ h.names, ?_, ?_, ?_, ?_⟩
  · intro n hn
    rw [hnames]
    rw [map_append, mem_append] at hn
    rcases hn with hn | hn
    · exact h.declared n hn
    · obtain rfl := mem_singleton.mp hn
      exact hname
  · intro v' hv'
    obtain ⟨v, hv, rfl⟩ := mem_map.mp hv'
    split_ifs
    · exact (h.wf v hv).apply e
    · exact h.wf v hv
  · intro v' hv' s
    obtain ⟨v, hv, rfl⟩ := mem_map.mp hv'
    split_ifs with hn
    · rw [VariableBuffer.mem_apply, VariableBuffer.myName_apply, hn, addedSince_concat, ← hn, h.contents v hv]
      simp
    · rw [h.contents v hv]
      exact (addedSince_other (Ne.symm hn) [e]).symm
  · intro v' hv'
    obtain ⟨v, hv, rfl⟩ := mem_map.mp hv'
    split_ifs
    · rcases v.apply_eq_or_invalid e with heq | hinvalid
      · simp only [heq]
        exact h.cached v hv
      · exact fun hvalid => absurd hvalid (by simp [hinvalid])
    · exact h.cached v hv

theorem update_update {f g : VariableBuffer → VariableBuffer} (hf : ∀ v, (f v).myName = v.myName) :
    update (update space varName f) varName g = update space varName fun v => g (f v) := by
  rw [update, update, map_map]
  apply map_congr_left
  intro v _
  rw [Function.comp_apply]
  by_cases hv : v.myName = varName
  · simp [hv, hf]
  · simp [hv]

theorem myName_foldl_apply (es : List VarEvent) (v : VariableBuffer) :
    (es.foldl VariableBuffer.apply v).myName = v.myName := by
  induction es generalizing v with
  | nil => rfl
  | cons e es ih => rw [foldl_cons, ih, VariableBuffer.myName_apply]

theorem events (h : VarInvariant space log uses) (hname : varName ∈ space.map VariableBuffer.myName)
    (es : List VarEvent) :
    VarInvariant (update space varName fun v => es.foldl VariableBuffer.apply v) (log ++ es.map fun e => (varName, e))
      uses := by
  induction es using reverseRecOn with
  | nil => simpa [update] using h
  | append_singleton es e ih =>
    have hstep := ih.event (map_myName_update _ _ (myName_foldl_apply es) ▸ hname) e
    rw [update_update (myName_foldl_apply es)] at hstep
    simpa [foldl_append] using hstep

theorem newVariable (h : VarInvariant space log uses) (hname : varName ∉ space.map VariableBuffer.myName) :
    VarInvariant (space.newVariable varName) log uses := by
  refine ⟨?_, ?_, ?_, ?_, ?_⟩
  · rw [VariableSpace.newVariable, map_append, map_singleton, nodup_append]
    refine ⟨h.names, nodup_singleton _, fun n hn m hm hnm => ?_⟩
    obtain rfl := mem_singleton.mp hm
    exact hname (hnm ▸ hn)
  · intro n hn
    rw [VariableSpace.newVariable, map_append, mem_append]
    exact .inl (h.declared n hn)
  · rw [VariableSpace.newVariable, forall_mem_append]
    exact ⟨h.wf, forall_mem_singleton.mpr ⟨fun it hit => absurd hit not_mem_nil, nodup_nil⟩⟩
  · rw [VariableSpace.newVariable, forall_mem_append]
    refine ⟨h.contents, forall_mem_singleton.mpr fun s => ⟨fun hs => absurd hs not_mem_nil, fun hs => ?_⟩⟩
    exact absurd (h.declared _ hs.mem) hname
  · rw [VariableSpace.newVariable, forall_mem_append]
    exact ⟨h.cached, forall_mem_singleton.mpr fun hvalid => absurd hvalid Bool.false_ne_true⟩

theorem findVariable_isSome {n : String} :
    (findVariable space n).isSome ↔ n ∈ space.map VariableBuffer.myName := by
  rw [findVariable, find?_isSome]
  simp [eq_comm]

theorem doSetVariableValue (h : VarInvariant space log uses) (varName : String) (op : VarOperator) :
    VarInvariant (space.doSetVariableValue varName op) (log ++ op.events.map fun e => (varName, e)) uses := by
  have hset : ∀ space, update space varName (fun v => v.setVariableValue op)
      = update space varName fun v => op.events.foldl VariableBuffer.apply v := by
    intro space
    simp only [setVariableValue_eq]
  rw [VariableSpace.doSetVariableValue]
  cases hfind : findVariable space varName with
  | some v =>
    rw [hset]
    exact h.events (findVariable_isSome.mp (by rw [hfind]; rfl)) _
  | none =>
    have hnew : varName ∉ space.map VariableBuffer.myName := by
      rw [← findVariable_isSome, hfind]
      simp
    rw [hset]
    exact (h.newVariable hnew).events (by simp [VariableSpace.newVariable]) _

theorem doAddSubVariables (h : VarInvariant space log uses) (var1Name : String) (add : Bool) (var2Name : String) :
    VarInvariant (space.doAddSubVariables var1Name add var2Name)
      (log ++ (space.addSubEvents var1Name add var2Name).map fun e => (var1Name, e)) uses := by
  rw [doAddSubVariables_eq]
  cases hfind : findVariable space var1Name with
  | some v1 => exact h.events (findVariable_isSome.mp (by rw [hfind]; rfl)) _
  | none =>
    have hnone : space.addSubEvents var1Name add var2Name = [] := by
      simp [addSubEvents, hfind]
    simpa [hnone, update] using h

/-- A query leaves the strings alone. -/
theorem use (h : VarInvariant space log uses) (varName : String) (lex : VarLexicon) :
    VarInvariant (update space varName fun v => (v.getVariableItems lex).2) log (uses ++ [lex]) := by
  have hverify : ∀ v : VariableBuffer, (v.getVariableItems lex).2 = v.verifyVariable lex := by
    intro v
    rw [VariableBuffer.getVariableItems]
    simp only
    split_ifs <;> rfl
  have hname : ∀ v : VariableBuffer, (v.verifyVariable lex).myName = v.myName := by
    intro v
    rw [VariableBuffer.verifyVariable]
    split_ifs <;> rfl
  simp only [hverify]
  have hnames := map_myName_update space varName hname
  refine ⟨hnames ▸ h.names, fun n hn => hnames ▸ h.declared n hn, ?_, ?_, ?_⟩
  · intro v' hv'
    obtain ⟨v, hv, rfl⟩ := mem_map.mp hv'
    split_ifs
    · exact (h.wf v hv).verify lex
    · exact h.wf v hv
  · intro v' hv' s
    obtain ⟨v, hv, rfl⟩ := mem_map.mp hv'
    split_ifs
    · rw [VariableBuffer.strings_verify, hname]
      exact h.contents v hv s
    · exact h.contents v hv s
  · intro v' hv'
    obtain ⟨v, hv, rfl⟩ := mem_map.mp hv'
    split_ifs
    · exact (h.cached v hv).verify lex
    · intro hvalid
      obtain ⟨lex', hlex', hverified⟩ := h.cached v hv hvalid
      exact ⟨lex', by simp [hlex'], hverified⟩

theorem step (h : VarInvariant space log uses) (f : String → String) (cmd : VarCommand) :
    VarInvariant (varStep f space cmd) (log ++ varEvents f space cmd) (uses ++ varUses [cmd]) := by
  cases cmd with
  | define varName op => simpa [varUses, varStep, varEvents] using h.doSetVariableValue varName (op.latex2iso f)
  | addSub var1Name add var2Name =>
    simpa [varUses, varStep, varEvents] using h.doAddSubVariables var1Name add var2Name
  | assign var1Name var2Name =>
    have hset := h.doSetVariableValue var1Name ((VarOperator.set "").latex2iso f)
    simpa [varUses, varStep, varEvents, append_assoc] using hset.doAddSubVariables var1Name true var2Name
  | use varName lex => simpa [varUses, varStep, varEvents] using h.use varName lex

theorem run (h : VarInvariant space log uses) (f : String → String) (cmds : List VarCommand) :
    VarInvariant (cmds.foldl (varStep f) space) (log ++ varLog f space cmds) (uses ++ varUses cmds) := by
  induction cmds generalizing space log uses with
  | nil => simpa [varLog, varUses] using h
  | cons cmd cmds ih =>
    have hsplit : varUses (cmd :: cmds) = varUses [cmd] ++ varUses cmds := by
      rw [varUses, varUses, varUses, ← filterMap_append, singleton_append]
    rw [hsplit]
    simpa [varLog, append_assoc] using ih (h.step f cmd)

end VarInvariant

theorem varRun_invariant (f : String → String) (cmds : List VarCommand) :
    VarInvariant (varRun f cmds) (varLog f [] cmds) (varUses cmds) := by
  have hinit : VarInvariant [] [] [] :=
    ⟨nodup_nil, fun n hn => absurd hn not_mem_nil, fun v hv => absurd hv not_mem_nil,
      fun v hv => absurd hv not_mem_nil, fun v hv => absurd hv not_mem_nil⟩
  simpa [varRun] using hinit.run f cmds

/-- After any commands a variable holds what was added since its last reset and not subtracted
again, each string once. If a name of a corpus and an attribute always stands for the same
lexicon, the IDs for a query are those of these strings, whatever the variable was used for
before, and they ascend strictly if and only if no two of the strings share a lexicon entry. -/
theorem variable_coherent (f : String → String) (cmds : List VarCommand) {varName : String} {v : VariableBuffer}
    (hv : (varRun f cmds).findVariable varName = some v) :
    (∀ s, s ∈ v.getVariableStrings ↔ AddedSince (varLog f [] cmds) varName s) ∧ v.getVariableStrings.Nodup ∧
      ∀ lex, SameNames (lex :: varUses cmds) →
        ((∃ ids, (v.getVariableItems lex).1 = some ids ∧ ids.Pairwise (· < ·) ∧
          ∀ id, id ∈ ids ↔ ∃ s, AddedSince (varLog f [] cmds) varName s ∧
            ∃ n : ℕ, lex.attr.str2id (lex.lookupForm s) = some n ∧ id = n) ↔
        lex.NoSharedEntry v.getVariableStrings) := by
  have hinv := varRun_invariant f cmds
  have hmem : v ∈ varRun f cmds := mem_of_find?_eq_some hv
  have hname : v.myName = varName := by simpa using find?_some hv
  have hcontents := hname ▸ hinv.contents v hmem
  have hwf := hinv.wf v hmem
  refine ⟨hcontents, hwf.nodup, fun lex hnames => ?_⟩
  have hids := VariableBuffer.getVariableItems_verified ((hinv.cached v hmem).verified hnames) hwf
  rw [← hwf.nodup_ids_iff, ← strict_insertionSort_iff]
  refine ⟨?_, fun hstrict => ⟨_, hids, hstrict, fun id => ?_⟩⟩
  · rintro ⟨ids, heq, hstrict, -⟩
    obtain rfl := Option.some.inj (hids.symm.trans heq)
    exact hstrict
  · rw [mem_insertionSort, VariableBuffer.mem_ids]
    simp only [hcontents]

/-- The word attribute of a corpus that consists of its lexicon. -/
theorem ids_wordLexicon : ∀ id ∈ [0, 1], id < 2 := by decide

theorem occurs_wordLexicon : ∀ id < 2, id ∈ [0, 1] := by decide

def wordLexicon (x y : String) (hxy : x ≠ y) : VarLexicon where
  registryName := "demo"
  attributeName := "word"
  attr :=
    { ids := [0, 1], lexsize := 2, lexsize_pos := Nat.two_pos, id_lt := ids_wordLexicon, occurs := occurs_wordLexicon
      lexicon := [x, y], lexicon_nodup := by simpa using hxy, lexicon_length := rfl }
  utf8 := true
  canonical s := if s = "e\u0301" then "é" else s

def demoLexicon : VarLexicon := wordLexicon "x" "é" (by decide)

def otherLexicon : VarLexicon := wordLexicon "é" "x" (by decide)

def demoCommands : List VarCommand := [.define "a" (.set "x é"), .use "a" demoLexicon]

theorem variable_coherent_demo :
    ∃ v, (varRun id demoCommands).findVariable "a" = some v ∧
      ∃ ids, (v.getVariableItems demoLexicon).1 = some ids ∧ ids.Pairwise (· < ·) ∧
        ∀ id', id' ∈ ids ↔ ∃ s, AddedSince (varLog id [] demoCommands) "a" s ∧
          ∃ n : ℕ, demoLexicon.attr.str2id (demoLexicon.lookupForm s) = some n ∧ id' = n := by
  obtain ⟨v, hv⟩ := Option.isSome_iff_exists.mp
    (show ((varRun id demoCommands).findVariable "a").isSome by decide)
  have hstrings : v.getVariableStrings = ["x", "é"] := by
    have hmap : ((varRun id demoCommands).findVariable "a").map VariableBuffer.getVariableStrings
        = some ["x", "é"] := by decide
    rw [hv] at hmap
    exact Option.some.inj hmap
  have hnames : SameNames (demoLexicon :: varUses demoCommands) := by
    intro lex hlex lex' hlex' _ _
    simp only [demoCommands, varUses, filterMap_cons, filterMap_nil, mem_cons, not_mem_nil,
      or_false, or_self] at hlex hlex'
    rw [hlex, hlex']
  refine ⟨v, hv, ((variable_coherent id demoCommands hv).2.2 demoLexicon hnames).mpr ?_⟩
  rw [hstrings]
  intro s hs t ht
  revert s t
  decide

/-- `é` with a combining accent and without is one entry of the lexicon, but two strings; and a
corpus of the same name in another registry is given the IDs of the first. -/
theorem variable_not_coherent :
    (∃ v, (varRun id [.define "a" (.set "é e\u0301")]).findVariable "a" = some v ∧
      (v.getVariableItems demoLexicon).1 = some [1, 1]) ∧
    (∃ v, (varRun id [.define "a" (.set "x"), .use "a" demoLexicon]).findVariable "a" = some v ∧
      (v.getVariableItems otherLexicon).1 = some [0] ∧ otherLexicon.attr.str2id "x" = some 1) := by
  refine ⟨?_, ?_⟩
  · exact ⟨_, rfl, by decide⟩
  · exact ⟨_, rfl, by decide, by decide⟩

end CWB
