import CWB.Proofs.MakeSet
import CWB.Spec.Macros

/-! The table of macros under definitions. A definition that is rejected has already removed the macro that it was to
replace. -/

namespace CWB.Macros

open Option List FeatureSets ChainedTable

/-! ## The table -/

section Table

variable {t t' : MacroHashTable} {id : ℕ} {f : MacroEntry → MacroEntry} {p new : MacroEntry} {k : MacroKey}

/-- The entries are in their buckets, one for each key, and stored in different places. -/
structure MacroHashTable.WF (t : MacroHashTable) : Prop where
  chained : Chained MacroEntry.key hashKey t.hash
  ids : (t.entries.map MacroEntry.id).Nodup

def MacroHashTable.find (t : MacroHashTable) (k : MacroKey) : Option MacroEntry := t.macroHashLookup k.1 k.2

theorem find_eq_some_iff (h : t.WF) : t.find k = some p ↔ p ∈ t.entries ∧ p.key = k := lookup_eq_some_iff h.chained

theorem find_eq_none_iff (h : t.WF) : t.find k = none ↔ k ∉ t.entries.map MacroEntry.key := lookup_eq_none_iff h.chained

theorem makeMacroHash_wf (size : ℕ) (h : 0 < size) : (makeMacroHash size h).WF ∧ (makeMacroHash size h).entries = [] := by
  have hnil : (makeMacroHash size h).entries = [] := by
    rw [MacroHashTable.entries, makeMacroHash, flatten_replicate_nil]
  exact ⟨⟨chained_empty h, by rw [hnil]; exact nodup_nil⟩, hnil⟩

def updated (id : ℕ) (f : MacroEntry → MacroEntry) (p : MacroEntry) : MacroEntry := if p.id = id then f p else p

theorem entries_update (t : MacroHashTable) (id : ℕ) (f : MacroEntry → MacroEntry) :
    (t.update id f).entries = t.entries.map (updated id f) := by
  rw [MacroHashTable.entries, MacroHashTable.entries, map_flatten]
  rfl

theorem updated_key (hf : ∀ p, (f p).key = p.key) (p : MacroEntry) : (updated id f p).key = p.key := by
  rw [updated]
  split_ifs
  · exact hf p
  · rfl

theorem updated_id (hf : ∀ p, (f p).id = p.id) (p : MacroEntry) : (updated id f p).id = p.id := by
  rw [updated]
  split_ifs
  · exact hf p
  · rfl

theorem MacroHashTable.WF.update (h : t.WF) (hkey : ∀ p, (f p).key = p.key) (hid : ∀ p, (f p).id = p.id) : (t.update id f).WF := by
  have hmap : ∀ {β : Type} (g : MacroEntry → β), (∀ p, g (updated id f p) = g p) →
      (t.update id f).entries.map g = t.entries.map g := by
    intro β g hg
    rw [entries_update, List.map_map]
    exact map_congr_left fun p _ => hg p
  refine ⟨⟨(t.update id f).size_pos, fun i chain hi e he => ?_, ?_⟩, ?_⟩
  · have hlength : (t.update id f).hash.length = t.hash.length := length_map ..
    have hchain : (t.hash[i]?).map (List.map (updated id f)) = some chain := by
      rw [← getElem?_map]
      exact hi
    obtain ⟨chain', hi', rfl⟩ := map_eq_some_iff.mp hchain
    obtain ⟨p, hp, rfl⟩ := mem_map.mp he
    rw [hlength, updated_key hkey]
    exact h.chained.placed i chain' hi' p hp
  · have hkeys := hmap MacroEntry.key (updated_key hkey)
    rw [MacroHashTable.entries] at hkeys
    rw [hkeys]
    exact h.chained.nodup
  · rw [hmap MacroEntry.id (updated_id hid)]
    exact h.ids

theorem find_update (h : t.WF) (hkey : ∀ p, (f p).key = p.key) (hid : ∀ p, (f p).id = p.id) (k : MacroKey) :
    (t.update id f).find k = (t.find k).map (updated id f) := by
  refine ext fun q => ?_
  rw [find_eq_some_iff (h.update hkey hid), map_eq_some_iff, entries_update, List.mem_map]
  constructor
  · rintro ⟨⟨p, hp, rfl⟩, rfl⟩
    exact ⟨p, (find_eq_some_iff h).mpr ⟨hp, (updated_key hkey p).symm⟩, rfl⟩
  · rintro ⟨p, hfind, rfl⟩
    obtain ⟨hp, rfl⟩ := (find_eq_some_iff h).mp hfind
    exact ⟨⟨p, hp, rfl⟩, updated_key hkey p⟩

theorem add_spec (h : t.WF) (hnew : t.find new.key = none) (hid : ∀ p ∈ t.entries, p.id ≠ new.id) :
    (t.macroHashAdd new).WF ∧ (t.macroHashAdd new).entries.Perm (new :: t.entries) := by
  obtain ⟨hchained, hperm⟩ := prepend_spec h.chained ((find_eq_none_iff h).mp hnew)
  refine ⟨⟨hchained, ?_⟩, hperm⟩
  have hids : ((t.macroHashAdd new).entries.map MacroEntry.id).Perm (new.id :: t.entries.map MacroEntry.id) := hperm.map _
  rw [hids.nodup_iff, nodup_cons]
  refine ⟨fun hmem => ?_, h.ids⟩
  obtain ⟨p, hp, heq⟩ := mem_map.mp hmem
  exact hid p hp heq

theorem find_cons (h : t.WF) (h' : t'.WF) (hperm : t.entries.Perm (p :: t'.entries)) (k : MacroKey) :
    t.find k = if k = p.key then some p else t'.find k := by
  split_ifs with hk
  · exact (find_eq_some_iff h).mpr ⟨hperm.symm.subset mem_cons_self, hk.symm⟩
  · refine ext fun q => ?_
    rw [find_eq_some_iff h, find_eq_some_iff h', hperm.mem_iff, mem_cons]
    refine and_congr_left fun hq => ⟨fun hmem => hmem.resolve_left fun heq => hk ?_, .inr⟩
    rw [← hq, heq]

theorem find_of_cons (h : t.WF) (h' : t'.WF) (hperm : t.entries.Perm (p :: t'.entries)) : t'.find p.key = none := by
  rw [find_eq_none_iff h']
  have hnodup := (hperm.map MacroEntry.key).nodup_iff.mp h.chained.nodup
  exact (nodup_cons.mp hnodup).1

/-- An entry is deleted where it is stored, which is where its key is found. -/
theorem delete_spec (h : t.WF) (hp : t.find k = some p) :
    ∃ t', t.macroHashDelete p = some t' ∧ t'.WF ∧ t.entries.Perm (p :: t'.entries) := by
  obtain ⟨hmem, rfl⟩ := (find_eq_some_iff h).mp hp
  obtain ⟨chain, hchain⟩ := chain_eq h.chained p.key
  have hlookup : ((t.hash[slot hashKey t.hash p.key]?).getD []).find? (fun e => e.key = p.key) = some p := hp
  rw [hchain, getD_some] at hlookup
  have hpc : p ∈ chain := mem_of_find?_eq_some hlookup
  have hany : chain.any (·.id = p.id) = true := any_eq_true.mpr ⟨p, hpc, by simp⟩
  have hsame : ∀ q ∈ chain, decide (q.id = p.id) = decide (q.key = p.key) := by
    intro q hq
    have hq' : q ∈ t.entries := mem_flatten.mpr ⟨chain, mem_of_getElem? hchain, hq⟩
    refine decide_eq_decide.mpr ⟨fun heq => ?_, fun heq => ?_⟩
    · rw [inj_on_of_nodup_map h.ids hq' hmem heq]
    · rw [eq_of_key_eq h.chained hq' hmem heq]
  have herase : ∀ l : List MacroEntry, (∀ q ∈ l, decide (q.id = p.id) = decide (q.key = p.key)) →
      l.eraseP (fun q => q.id = p.id) = removeFirst MacroEntry.key p.key l := by
    intro l hl
    induction l with
    | nil => rfl
    | cons q l ih =>
      obtain ⟨hq, hl⟩ := forall_mem_cons.mp hl
      rw [removeFirst, eraseP_cons, eraseP_cons, hq, ih hl]
      rfl
  have hmodify : t.modify p.key (eraseP fun q => q.id = p.id) = t.modify p.key (removeFirst MacroEntry.key p.key) := by
    have hhash : t.hash.modify (slot hashKey t.hash p.key) (eraseP fun q => decide (q.id = p.id)) =
        t.hash.modify (slot hashKey t.hash p.key) (removeFirst MacroEntry.key p.key) := by
      rw [modify_eq_set_getElem?, modify_eq_set_getElem?, hchain]
      simp only [Option.map_eq_map, map_some, getD_some]
      rw [herase chain hsame]
    rw [MacroHashTable.modify, MacroHashTable.modify]
    congr 1
  obtain ⟨hchained, hperm⟩ := remove_spec h.chained hp
  refine ⟨t.modify p.key (removeFirst MacroEntry.key p.key), ?_, ⟨hchained, ?_⟩, hperm⟩
  · rw [MacroHashTable.macroHashDelete, hchain, getD_some, if_pos hany, hmodify]
  · have hids := (hperm.map MacroEntry.id).nodup_iff.mp h.ids
    exact (nodup_cons.mp hids).2

end Table

/-! ## Definitions -/

variable {literal : List CqiByte} {table : MacroHashTable}

section Definitions

variable {db db' : MacroDatabase} {k : MacroKey} {p : MacroEntry} {d : MacroDefinition} {e : Option DefinitionError}

/-- The arguments of the segments are those of the macro. -/
def MacroEntry.Complete (p : MacroEntry) : Prop := p.args ≤ 10 ∧ ∀ seg ∈ p.replacement, seg.arg < p.args

structure MacroDatabase.WF (db : MacroDatabase) : Prop where
  table : db.table.WF
  fresh : ∀ p ∈ db.table.entries, p.id < db.nextId
  complete : ∀ p ∈ db.table.entries, p.Complete

/-! The segments of a definition. -/

section Chunks

variable {args rounds : ℕ} {point : List CqiByte} {c d : CqiByte} {replacement replacement' : List MacroSegment}

theorem atMark_iff : atMark (c :: d :: point) = true ↔ c = dollar ∧ (isDigit d = true ∨ d = dollar) := by
  simp [atMark]

/-- A literal segment ends at the end of the definition or at a mark. -/
theorem scanString_spec (point : List CqiByte) : ∃ literal rest, scanString point = (literal, rest) ∧
    (∀ arguments pseudo, substitute arguments pseudo point = literal ++ substitute arguments pseudo rest) ∧
    (literal ++ rest).length = point.length ∧
    (rest = [] ∨ ∃ d point', rest = dollar :: d :: point' ∧ (isDigit d = true ∨ d = dollar)) := by
  induction point with
  | nil => exact ⟨[], [], rfl, fun _ _ => rfl, rfl, .inl rfl⟩
  | cons c point ih =>
    obtain ⟨literal, rest, hscan, hsub, hlen, hrest⟩ := ih
    rw [scanString]
    split_ifs with hmark
    · refine ⟨[], c :: point, rfl, fun _ _ => rfl, rfl, .inr ?_⟩
      cases point with
      | nil => cases hmark
      | cons d point =>
        obtain ⟨rfl, hd⟩ := atMark_iff.mp hmark
        exact ⟨d, point, rfl, hd⟩
    · refine ⟨c :: literal, rest, by rw [hscan], fun arguments pseudo => ?_, by simp [← hlen], hrest⟩
      rw [cons_append, ← hsub]
      cases point with
      | nil => rfl
      | cons d point =>
        have hnot : ¬(c = dollar ∧ (isDigit d = true ∨ d = dollar)) := mt atMark_iff.mpr hmark
        rw [substitute, if_neg fun h => hnot ⟨h.1, .inr h.2⟩, if_neg fun h => hnot ⟨h.1, .inl h.2⟩]

/-- The segment for a literal, unless it is empty. -/
def literalSegments (literal : List CqiByte) : List MacroSegment :=
  if literal ≠ [] then [{ string := some (CString.ofBuffer (literal ++ [0])), arg := -1 }] else []

theorem literalSegments_arg {seg : MacroSegment} (h : seg ∈ literalSegments literal) : seg.arg < args := by
  rw [literalSegments] at h
  split_ifs at h
  · rw [mem_singleton.mp h]
    simp only
    omega
  · exact absurd h not_mem_nil

theorem chunkDefinition_nil : chunkDefinition args (rounds + 1) [] replacement = some (.ok replacement) := rfl

theorem append_literal (literal : List CqiByte) (replacement : List MacroSegment) : (if literal ≠ [] then
    replacement ++ [{ string := some (CString.ofBuffer (literal ++ [0])), arg := -1 }] else replacement) =
      replacement ++ literalSegments literal := by
  rw [literalSegments]
  split_ifs
  · rfl
  · exact (append_nil _).symm

theorem chunkDefinition_end (hne : point ≠ []) (hscan : scanString point = (literal, [])) :
    chunkDefinition args (rounds + 1) point replacement =
      chunkDefinition args rounds [] (replacement ++ literalSegments literal) := by
  rw [chunkDefinition, if_neg hne, hscan]
  simp only
  rw [append_literal]

theorem chunkDefinition_mark (hne : point ≠ []) {point' : List CqiByte}
    (hscan : scanString point = (literal, dollar :: d :: point')) : chunkDefinition args (rounds + 1) point replacement =
      if d = dollar then chunkDefinition args rounds point' (replacement ++ literalSegments literal ++ [⟨none, -1⟩])
      else if d.toNat - 48 ≥ args then some (.error (.invalidReference (d.toNat - 48)))
      else chunkDefinition args rounds point' (replacement ++ literalSegments literal ++ [⟨none, (d.toNat - 48 : ℕ)⟩]) := by
  rw [chunkDefinition, if_neg hne, hscan]
  simp only
  rw [append_literal]

/-- The text of a segment. -/
def segmentText (arguments : List CString) (pseudo : CString) (seg : MacroSegment) : List CqiByte :=
  if seg.arg ≥ 0 then ((arguments[seg.arg.toNat]?).map CString.bytes).getD []
  else match seg.string with
    | some s => s.bytes
    | none => pseudo.bytes

theorem flatMap_literal (h : 0 ∉ literal) (arguments : List CString) (pseudo : CString) :
    (literalSegments literal).flatMap (segmentText arguments pseudo) = literal := by
  rw [literalSegments]
  split_ifs with hnil
  · rw [flatMap_cons, flatMap_nil, append_nil]
    exact ofBuffer_terminated h []
  · exact (not_not.mp hnil).symm

theorem literal_noNull {rest : List CqiByte} (hnull : 0 ∉ point) (hscan : scanString point = (literal, rest)) :
    0 ∉ literal ++ rest := by
  have hpoint : (scanString point).1 ++ (scanString point).2 = point := by
    clear hnull hscan
    induction point with
    | nil => rfl
    | cons c point ih =>
      rw [scanString]
      split_ifs
      · rfl
      · rw [cons_append, ih]
  rw [hscan] at hpoint
  rwa [hpoint]

/-- The segments refer to arguments of the macro, and their texts are those of the definition. -/
theorem chunkDefinition_ok (hnull : 0 ∉ point) (h : chunkDefinition args rounds point replacement = some (.ok replacement')) :
    ∃ segs, replacement' = replacement ++ segs ∧ (∀ seg ∈ segs, seg.arg < args) ∧
      ∀ arguments pseudo, segs.flatMap (segmentText arguments pseudo) = substitute arguments pseudo point := by
  induction rounds generalizing point replacement with
  | zero => cases h
  | succ rounds ih =>
    by_cases hne : point = []
    · subst hne
      rw [chunkDefinition_nil] at h
      obtain rfl := Except.ok.inj (some.inj h)
      exact ⟨[], (append_nil _).symm, by simp, fun _ _ => rfl⟩
    obtain ⟨literal, rest, hscan, hsub, -, rfl | ⟨d, point', rfl, hd⟩⟩ := scanString_spec point
    · have hliteral := literal_noNull hnull hscan
      rw [append_nil] at hliteral
      rw [chunkDefinition_end hne hscan] at h
      obtain ⟨segs, rfl, hargs, htext⟩ := ih not_mem_nil h
      refine ⟨literalSegments literal ++ segs, by rw [append_assoc], fun seg hseg => ?_, fun arguments pseudo => ?_⟩
      · obtain hseg | hseg := mem_append.mp hseg
        · exact literalSegments_arg hseg
        · exact hargs seg hseg
      · rw [flatMap_append, flatMap_literal hliteral, htext, hsub]
    · have hnull' := literal_noNull hnull hscan
      obtain ⟨hliteral, -, -, hrest⟩ : 0 ∉ literal ∧ ¬0 = dollar ∧ ¬0 = d ∧ 0 ∉ point' := by simpa using hnull'
      rw [chunkDefinition_mark hne hscan] at h
      split_ifs at h with hpseudo hinvalid
      · obtain ⟨segs, rfl, hargs, htext⟩ := ih hrest h
        refine ⟨literalSegments literal ++ ⟨none, -1⟩ :: segs, by simp, fun seg hseg => ?_, fun arguments pseudo => ?_⟩
        · obtain hseg | hseg := mem_append.mp hseg
          · exact literalSegments_arg hseg
          · obtain rfl | hseg := mem_cons.mp hseg
            · simp only; omega
            · exact hargs seg hseg
        · rw [flatMap_append, flatMap_literal hliteral, flatMap_cons, htext, hsub, substitute, if_pos ⟨rfl, hpseudo⟩]
          rfl
      · cases h
      · obtain ⟨segs, rfl, hargs, htext⟩ := ih hrest h
        refine ⟨literalSegments literal ++ ⟨none, (d.toNat - 48 : ℕ)⟩ :: segs, by simp, fun seg hseg => ?_, fun arguments pseudo => ?_⟩
        · obtain hseg | hseg := mem_append.mp hseg
          · exact literalSegments_arg hseg
          · obtain rfl | hseg := mem_cons.mp hseg
            · simp only; omega
            · exact hargs seg hseg
        · rw [flatMap_append, flatMap_literal hliteral, flatMap_cons, htext, hsub, substitute,
            if_neg fun h => hpseudo h.2, if_pos ⟨rfl, hd.resolve_right hpseudo⟩]
          rfl

end Chunks

/-- The macro that is redefined is removed. -/
theorem remove_redefined (hdb : db.WF) (name : CString) (args : ℕ) :
    ∃ table, removeRedefined db.table name args = some table ∧ table.WF ∧
    (∀ k, table.find k = if k = (name, args) then none else db.table.find k) ∧ ∀ p ∈ table.entries, p ∈ db.table.entries := by
  rw [removeRedefined]
  cases hfind : db.table.macroHashLookup name args with
  | none =>
    refine ⟨db.table, rfl, hdb.table, fun k => ?_, fun _ hp => hp⟩
    split_ifs with hk
    · rw [hk]
      exact hfind
    · rfl
  | some p =>
    have hp : db.table.find (name, args) = some p := hfind
    obtain ⟨table, hdelete, hwf, hperm⟩ := delete_spec hdb.table hp
    obtain ⟨-, hkey⟩ := (find_eq_some_iff hdb.table).mp hp
    refine ⟨table, hdelete, hwf, fun k => ?_, fun q hq => hperm.symm.subset (mem_cons_of_mem p hq)⟩
    rw [find_cons hdb.table hwf hperm, hkey]
    split_ifs with hk
    · rw [hk, ← hkey]
      exact find_of_cons hdb.table hwf hperm
    · rfl

theorem removed_wf (hdb : db.WF) (hwf : table.WF) (hsub : ∀ p ∈ table.entries, p ∈ db.table.entries) :
    MacroDatabase.WF ⟨table, db.nextId + 1⟩ :=
  ⟨hwf, fun p hp => (hdb.fresh p (hsub p hp)).trans (Nat.lt_succ_self _), fun p hp => hdb.complete p (hsub p hp)⟩

/-- A new entry that is deleted again leaves the table as it was. -/
theorem add_delete (hwf : table.WF) {new : MacroEntry} (hnew : table.find new.key = none)
    (hid : ∀ p ∈ table.entries, p.id ≠ new.id) :
    ∃ table', (table.macroHashAdd new).macroHashDelete new = some table' ∧ table'.WF ∧ (∀ k, table'.find k = table.find k) ∧
      ∀ p ∈ table'.entries, p ∈ table.entries := by
  obtain ⟨hadd, hperm⟩ := add_spec hwf hnew hid
  have hfind : (table.macroHashAdd new).find new.key = some new := by rw [find_cons hadd hwf hperm, if_pos rfl]
  obtain ⟨table', hdelete, hwf', hperm'⟩ := delete_spec hadd hfind
  have hsame : table'.entries.Perm table.entries := (hperm'.symm.trans hperm).cons_inv
  refine ⟨table', hdelete, hwf', fun k => ?_, fun p hp => hsame.subset hp⟩
  refine ext fun q => ?_
  rw [find_eq_some_iff hwf', find_eq_some_iff hwf, hsame.mem_iff]

theorem add_update (hwf : table.WF) {new : MacroEntry} (hnew : table.find new.key = none)
    (hid : ∀ p ∈ table.entries, p.id ≠ new.id) {f : MacroEntry → MacroEntry} (hkey : ∀ p, (f p).key = p.key)
    (hfid : ∀ p, (f p).id = p.id) :
    ((table.macroHashAdd new).update new.id f).WF ∧
      (∀ k, ((table.macroHashAdd new).update new.id f).find k = if k = new.key then some (f new) else table.find k) ∧
      ∀ p ∈ ((table.macroHashAdd new).update new.id f).entries, p = f new ∨ p ∈ table.entries := by
  obtain ⟨hadd, hperm⟩ := add_spec hwf hnew hid
  have hother : ∀ p ∈ table.entries, updated new.id f p = p := fun p hp => if_neg (hid p hp)
  refine ⟨hadd.update hkey hfid, fun k => ?_, fun p hp => ?_⟩
  · rw [find_update hadd hkey hfid, find_cons hadd hwf hperm]
    split_ifs with hk
    · rw [map_some, updated, if_pos rfl]
    · cases hfind : table.find k with
      | none => rfl
      | some p => rw [map_some, hother p ((find_eq_some_iff hwf).mp hfind).1]
  · rw [entries_update] at hp
    obtain ⟨q, hq, rfl⟩ := mem_map.mp hp
    obtain rfl | hq := mem_cons.mp (hperm.subset hq)
    · rw [updated, if_pos rfl]
      exact .inl rfl
    · rw [hother q hq]
      exact .inr hq

theorem parseDefinition_ok {args : ℕ} {argstr : Option (CString × List CqiByte)} {definition : CString}
    {argnames : List (Option CString)} {replacement : List MacroSegment}
    (h : parseDefinition args argstr definition = some (.ok (argnames, replacement))) :
    chunkDefinition args (definition.bytes.length + 1) definition.bytes [] = some (.ok replacement) := by
  obtain ⟨names, -, h⟩ := bind_eq_some_iff.mp h
  cases names with
  | error e => cases h
  | ok argnames =>
    obtain ⟨chunks, hchunk, h⟩ := map_eq_some_iff.mp h
    cases chunks with
    | error e => cases h
    | ok replacement =>
      obtain ⟨rfl, rfl⟩ := Prod.mk.inj (Except.ok.inj h)
      exact hchunk

/-- What a definition does to the table, key by key. -/
theorem run_spec (hdb : db.WF) (h : d.run db = some (db', e)) :
    db'.WF ∧ ∃ n : ℤ, argumentCount d.args d.argstr = some n ∧
      (((n < 0 ∨ n > 10) ∧ e = some .invalidNumber ∧ db' = db) ∨
        (0 ≤ n ∧ n ≤ 10 ∧ ∃ found, (∀ k, db'.table.find k = if k = (d.name, n.toNat) then found else db.table.find k) ∧
          ((∃ e', e = some e' ∧ found = none) ∨ (e = none ∧ ∃ p, found = some p ∧ p.active = false ∧ p.key = (d.name, n.toNat) ∧
            chunkDefinition n.toNat (d.definition.bytes.length + 1) d.definition.bytes [] = some (.ok p.replacement))))) := by
  obtain ⟨n, hcount, h⟩ := bind_eq_some_iff.mp h
  by_cases hn : n < 0 ∨ n > 10
  · rw [if_pos hn] at h
    obtain ⟨rfl, rfl⟩ := Prod.mk.inj (some.inj h)
    exact ⟨hdb, n, hcount, .inl ⟨hn, rfl, rfl⟩⟩
  rw [if_neg hn] at h
  have hlow : 0 ≤ n ∧ n ≤ 10 := by omega
  obtain ⟨table, hremove, hwf, hfind, hsub⟩ := remove_redefined hdb d.name n.toNat
  obtain ⟨table', hremove', h⟩ := bind_eq_some_iff.mp h
  obtain rfl := some.inj (hremove.symm.trans hremove')
  have hnone : table.find (newEntry db d.name n.toNat).key = none := (hfind _).trans (if_pos rfl)
  have hid : ∀ p ∈ table.entries, p.id ≠ (newEntry db d.name n.toNat).id := fun p hp => (hdb.fresh p (hsub p hp)).ne
  obtain ⟨parsed, hparse, h⟩ := bind_eq_some_iff.mp h
  cases parsed with
  | error e' =>
    -- the new entry is deleted, the old one is gone
    obtain ⟨table', hdelete, hwf', hsame, hsub'⟩ := add_delete hwf hnone hid
    have hrun : some ((⟨table', db.nextId + 1⟩ : MacroDatabase), some e') = some (db', e) := by
      rw [← h, hdelete]
      rfl
    obtain ⟨rfl, rfl⟩ := Prod.mk.inj (some.inj hrun)
    exact ⟨removed_wf hdb hwf' fun p hp => hsub p (hsub' p hp), n, hcount,
      .inr ⟨hlow.1, hlow.2, none, fun k => (hsame k).trans (hfind k), .inl ⟨e', rfl, rfl⟩⟩⟩
  | ok parsed =>
    obtain ⟨argnames, replacement⟩ := parsed
    obtain ⟨rfl, rfl⟩ := Prod.mk.inj (some.inj h)
    have hchunk := parseDefinition_ok hparse
    obtain ⟨hwf', hfind', hentries⟩ := add_update (f := fun p => { p with argnames, replacement }) hwf hnone hid
      (fun _ => rfl) fun _ => rfl
    obtain ⟨segs, hsegs, hargs, -⟩ := chunkDefinition_ok d.definition.noNull hchunk
    rw [nil_append] at hsegs
    have hcomplete : MacroEntry.Complete { newEntry db d.name n.toNat with argnames, replacement } := by
      refine ⟨?_, fun seg hseg => hargs seg (hsegs ▸ hseg)⟩
      change n.toNat ≤ 10
      omega
    refine ⟨⟨hwf', fun p hp => ?_, fun p hp => ?_⟩, n, hcount, .inr ⟨hlow.1, hlow.2,
      some { newEntry db d.name n.toNat with argnames, replacement }, fun k => ?_, .inr ⟨rfl, _, rfl, rfl, rfl, hchunk⟩⟩⟩
    · obtain rfl | hp := hentries p hp
      · exact Nat.lt_succ_self _
      · exact (hdb.fresh p (hsub p hp)).trans (Nat.lt_succ_self _)
    · obtain rfl | hp := hentries p hp
      · exact hcomplete
      · exact hdb.complete p (hsub p hp)
    · rw [hfind' k]
      refine ite_congr rfl (fun _ => rfl) fun hk => ?_
      rw [hfind]
      exact if_neg hk

end Definitions

end CWB.Macros
