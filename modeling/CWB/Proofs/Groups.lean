import CWB.Proofs.ScanCorpus
import CWB.Spec.Groups

/-! The cells of a group are the pairs of IDs of its matches with their frequencies. They are the
pairs of displayed strings exactly if no two kinds of values are displayed alike. -/

namespace CWB

open Comparators

/-! ## What a match has for a key -/

inductive GroupValue where
  /-- no position, a position before the corpus or one outside the regions -/
  | undefined
  /-- a position behind the corpus, on a positional attribute -/
  | beyond
  | token (s : String)

def GroupValue.shown : GroupValue → String
  | .undefined | .beyond => "(none)"
  | .token s => s

namespace GroupKey

variable (key : GroupKey)

def value (m : Match) : GroupValue :=
  let pos := key.position m
  if pos < 0 then .undefined
  else match key.attr with
    | some (.struc a _ _) =>
      match Intervals.containing SRegion.start SRegion.stop pos a.regions with
      | some r => .token (a.avs r.offset)
      | none => .undefined
    | some (.pos a _) =>
      match a.cpos2id pos with
      | some id => .token (a.id2str id)
      | none => .beyond
    | none => .undefined

/-- The string that stands for a match in the output. -/
def displayed (m : Match) : String := key.groupId2str (key.getGroupId m)

/-- The ID of an undefined value, of one behind the corpus and of a string. -/
inductive IdOf : GroupValue → ℤ → Prop where
  | undefined : IdOf .undefined (-1)
  | beyond : IdOf .beyond (-4)
  | pos {a : PAttribute} {h : a.ids.length < 2 ^ 31} {id : ℕ} (hattr : key.attr = some (.pos a h)) (hid : id < a.lexsize) :
    IdOf (.token (a.id2str id)) id
  | struc {a : StrucAttribute} {base : ℤ} {h : a.sourceBase = some base} {r : SRegion}
    (hattr : key.attr = some (.struc a base h)) (hr : r ∈ a.regions) : IdOf (.token (a.avs r.offset)) (r.offset - base)

theorem getGroupId_idOf (m : Match) : key.IdOf (key.value m) (key.getGroupId m) := by
  unfold value getGroupId
  simp only
  split_ifs with hpos
  · exact .undefined
  · rcases hattr : key.attr with _ | ⟨a, h⟩ | ⟨a, base, h⟩
    · exact .undefined
    · simp only [PAttribute.clCpos2id]
      cases hid : a.cpos2id (key.position m) with
      | none => exact .beyond
      | some id =>
        rw [PAttribute.cpos2id, if_neg hpos] at hid
        exact .pos hattr (a.id_lt id (List.mem_of_getElem? hid))
    · simp only [StrucAttribute.clCpos2struc2str]
      cases hr : Intervals.containing SRegion.start SRegion.stop (key.position m) a.regions with
      | none => exact .undefined
      | some r => exact .struc hattr (List.mem_of_find?_eq_some hr)

variable {key}

theorem struc_base {a : StrucAttribute} {base : ℤ} (h : a.sourceBase = some base) {r : SRegion} (hr : r ∈ a.regions) :
    0 ≤ base ∧ base ≤ r.offset ∧ r.offset < 2 ^ 31 := by
  rw [StrucAttribute.sourceBase] at h
  split_ifs at h
  obtain ⟨first, hfirst, rfl⟩ := Option.map_eq_some_iff.mp h
  obtain ⟨h0, hle⟩ := a.first_le first hfirst
  exact ⟨h0, hle r hr, a.offset_lt r hr⟩

namespace IdOf

variable {v v' : GroupValue} {id id' : ℤ}

theorem range (h : key.IdOf v id) : -2 ^ 31 ≤ id ∧ id < 2 ^ 31 := by
  cases h with
  | undefined => omega
  | beyond => omega
  | @pos a h id hattr hid =>
    have hle := a.lexsize_le_length
    omega
  | struc hattr hr =>
    obtain ⟨h0, hle, hlt⟩ := struc_base ‹_› hr
    omega

theorem groupId2str_eq (h : key.IdOf v id) : key.groupId2str id = v.shown := by
  cases h with
  | undefined => rfl
  | beyond => rfl
  | pos hattr hid =>
    rw [groupId2str, if_neg (by rw [ANY_ID]; omega), if_neg (by omega), hattr]
    rfl
  | @struc a base h r hattr hr =>
    obtain ⟨h0, hle, hlt⟩ := struc_base h hr
    rw [groupId2str, if_neg (by rw [ANY_ID]; omega), if_neg (by omega), hattr]
    simp [GroupValue.shown]

theorem cases_sign (h : key.IdOf v id) :
    (v = .undefined ∧ id = -1) ∨ (v = .beyond ∧ id = -4) ∨ (v = .token (key.groupId2str id) ∧ 0 ≤ id) := by
  have hstr := h.groupId2str_eq
  cases h with
  | undefined => exact .inl ⟨rfl, rfl⟩
  | beyond => exact .inr (.inl ⟨rfl, rfl⟩)
  | pos hattr hid => exact .inr (.inr ⟨by rw [hstr]; rfl, by omega⟩)
  | struc hattr hr =>
    obtain ⟨h0, hle, hlt⟩ := struc_base ‹_› hr
    exact .inr (.inr ⟨by rw [hstr]; rfl, by omega⟩)

theorem token_inj {s s' : String} (h : key.IdOf (.token s) id) (h' : key.IdOf (.token s') id') (hs : s = s') : id = id' := by
  cases h with
  | pos hattr hid =>
    cases h' with
    | pos hattr' hid' =>
      cases hattr.symm.trans hattr'
      exact congrArg _ (id2str_inj hid hid' hs)
    | struc hattr' hr' => cases hattr.symm.trans hattr'
  | struc hattr hr =>
    cases h' with
    | pos hattr' hid' => cases hattr.symm.trans hattr'
    | struc hattr' hr' =>
      cases hattr.symm.trans hattr'
      rw [StrucAttribute.stored_once _ _ hr _ hr' hs]

/-- The IDs tell the values apart. -/
theorem eq_iff (h : key.IdOf v id) (h' : key.IdOf v' id') : id = id' ↔ v = v' := by
  refine ⟨fun heq => ?_, fun heq => ?_⟩
  · rcases h.cases_sign with ⟨hv, hid⟩ | ⟨hv, hid⟩ | ⟨hv, hid⟩ <;>
      rcases h'.cases_sign with ⟨hv', hid'⟩ | ⟨hv', hid'⟩ | ⟨hv', hid'⟩
    all_goals first | omega | rw [hv, hv', heq] | rw [hv, hv']
  · cases v with
    | token s =>
      cases v' with
      | token s' => exact h.token_inj h' (GroupValue.token.inj heq)
      | undefined | beyond => cases heq
    | undefined | beyond =>
      cases heq
      cases h
      cases h'
      rfl

end IdOf

theorem getGroupId_eq_iff (m m' : Match) : key.getGroupId m = key.getGroupId m' ↔ key.value m = key.value m' :=
  (key.getGroupId_idOf m).eq_iff (key.getGroupId_idOf m')

theorem displayed_eq (m : Match) : key.displayed m = (key.value m).shown := (key.getGroupId_idOf m).groupId2str_eq

end GroupKey

/-! ## The tables -/

namespace Group

variable {group : Group} {fill : FillRate}

/-- The IDs of a match. -/
def ids (group : Group) (m : Match) : ℤ × ℤ := (group.source.getGroupId m, group.target.getGroupId m)

def pairKey (k : ℤ × ℤ) : Vector UInt32 2 := ngramOf 2 [k.1, k.2]

def sourceKey (k : ℤ × ℤ) : Vector UInt32 1 := ngramOf 1 [k.1, k.2]

/-- Each pair of IDs is added once. -/
def additionsOf {N : ℕ} (key : ℤ × ℤ → Vector UInt32 N) (pairs : List (ℤ × ℤ)) : List (NgramHashOp N) :=
  pairs.map fun k => .add (key k) 1

theorem foldlM_countMatches (L : List Match) (hL : L.length < 2 ^ 31) : ∃ pairs groups,
    L.foldlM (fun (pairs, groups) m => do
      let s_t := [group.source.getGroupId m, group.target.getGroupId m]
      let pairs ← clNgramHashAdd fill pairs (ngramOf 2 s_t) 1
      let groups ← clNgramHashAdd fill groups (ngramOf 1 s_t) 1
      pure (pairs, groups)) (clNewNgramHash 2 0, clNewNgramHash 1 0) = some (pairs, groups) ∧
    NgramHashInv (additionsOf pairKey (L.map group.ids)) pairs ∧
    NgramHashInv (additionsOf sourceKey (L.map group.ids)) groups := by
  induction L using List.reverseRecOn with
  | nil => exact ⟨_, _, rfl, ngramInv_new 0, ngramInv_new 0⟩
  | append_singleton L m ih =>
    rw [List.length_append, List.length_singleton] at hL
    obtain ⟨pairs, groups, hrun, hpairs, hgroups⟩ := ih (by omega)
    have hcap : ∀ {N : ℕ} (key : ℤ × ℤ → Vector UInt32 N),
        (presentTuples (additionsOf key (L.map group.ids))).ncard < MAX_ENTRIES := fun key => by
      have hle := presentTuples_map_add_le key (fun _ => 1) (L.map group.ids)
      rw [List.length_map] at hle
      have hlt : L.length < MAX_ENTRIES := by
        rw [MAX_ENTRIES]
        omega
      exact hle.trans_lt hlt
    obtain ⟨pairs', hadd, hpairs'⟩ := ngramInv_add fill hpairs (hcap pairKey) (pairKey (group.ids m)) 1
    obtain ⟨groups', hadd', hgroups'⟩ := ngramInv_add fill hgroups (hcap sourceKey) (sourceKey (group.ids m)) 1
    refine ⟨pairs', groups', ?_, ?_, ?_⟩
    · rw [List.foldlM_append, hrun]
      simp only [pairKey, sourceKey, ids] at hadd hadd'
      simp [hadd, hadd']
    · rw [List.map_append, additionsOf, List.map_append]
      exact hpairs'
    · rw [List.map_append, additionsOf, List.map_append]
      exact hgroups'

theorem pairKey_val {k : ℤ × ℤ} : pairKey k = #v[(Int32.ofInt k.1).toUInt32, (Int32.ofInt k.2).toUInt32] := by
  apply Vector.ext
  intro i hi
  interval_cases i <;> simp [pairKey, ngramOf]

theorem sourceKey_val {k : ℤ × ℤ} : sourceKey k = #v[(Int32.ofInt k.1).toUInt32] := by
  apply Vector.ext
  simp [sourceKey, ngramOf]

theorem ofInt_toInt {n : ℤ} (h : -2 ^ 31 ≤ n ∧ n < 2 ^ 31) : (Int32.ofInt n).toUInt32.toInt32.toInt = n := by
  rw [Int32.toInt32_toUInt32, Int32.toInt_ofInt_of_le h.1 h.2]

theorem ofInt_inj {n n' : ℤ} (h : -2 ^ 31 ≤ n ∧ n < 2 ^ 31) (h' : -2 ^ 31 ≤ n' ∧ n' < 2 ^ 31) :
    (Int32.ofInt n).toUInt32 = (Int32.ofInt n').toUInt32 ↔ n = n' := by
  refine ⟨fun heq => ?_, fun heq => by rw [heq]⟩
  rw [← ofInt_toInt h, heq, ofInt_toInt h']

theorem ids_range (m : Match) : (-2 ^ 31 ≤ (group.ids m).1 ∧ (group.ids m).1 < 2 ^ 31) ∧
    -2 ^ 31 ≤ (group.ids m).2 ∧ (group.ids m).2 < 2 ^ 31 :=
  ⟨(group.source.getGroupId_idOf m).range, (group.target.getGroupId_idOf m).range⟩

theorem pairKey_inj {m m' : Match} (h : pairKey (group.ids m) = pairKey (group.ids m')) : group.ids m = group.ids m' := by
  obtain ⟨hs, ht⟩ := group.ids_range m
  obtain ⟨hs', ht'⟩ := group.ids_range m'
  have h0 := congrArg (fun t => t[0]) h
  have h1 := congrArg (fun t => t[1]) h
  simp only [pairKey_val] at h0 h1
  exact Prod.ext ((ofInt_inj hs hs').mp h0) ((ofInt_inj ht ht').mp h1)

theorem sourceKey_eq_iff (m m' : Match) :
    sourceKey (group.ids m) = sourceKey (group.ids m') ↔ (group.ids m).1 = (group.ids m').1 := by
  rw [sourceKey_val, sourceKey_val, ← ofInt_inj (group.ids_range m).1 (group.ids_range m').1]
  simp

section Counting

variable {N : ℕ} {key : ℤ × ℤ → Vector UInt32 N} {L : List (ℤ × ℤ)} {hash : NgramHash N}

theorem sum_additionsOf (key : ℤ × ℤ → Vector UInt32 N) (L : List (ℤ × ℤ)) (t : Vector UInt32 N) :
    (addedSinceDel (additionsOf key L) t).sum = UInt32.ofNat (L.countP fun k => key k = t) := by
  have hones : ∀ n : ℕ, (List.replicate n (1 : UInt32)).sum = UInt32.ofNat n := fun n => by
    induction n with
    | zero => rfl
    | succ n ih =>
      rw [List.replicate_succ, List.sum_cons, ih, UInt32.ofNat_add]
      exact UInt32.add_comm _ _
  rw [additionsOf, addedSinceDel_map_add, List.map_const', List.length_reverse, hones, List.countP_eq_length_filter]

/-- The entries of the table are the different tuples with their frequencies. -/
theorem table_perm (h : NgramHashInv (additionsOf key L) hash) (hinj : ∀ k ∈ L, ∀ k' ∈ L, key k = key k' → k = k') :
    hash.table.flatten.Perm (L.dedup.map fun k => ⟨key k, UInt32.ofNat (L.count k)⟩) := by
  have hcount : ∀ k ∈ L, (L.countP fun k' => key k' = key k) = L.count k := fun k hk => by
    rw [List.count]
    apply List.countP_congr
    intro k' hk'
    simpa using ⟨fun heq => hinj k' hk' k hk heq, fun heq => by rw [heq]⟩
  have hnodup : (L.dedup.map fun k => (⟨key k, UInt32.ofNat (L.count k)⟩ : NgramHashEntry N)).Nodup := by
    refine List.Nodup.map_on (fun k hk k' hk' heq => ?_) L.nodup_dedup
    exact hinj k (List.mem_dedup.mp hk) k' (List.mem_dedup.mp hk') (congrArg NgramHashEntry.ngram heq)
  refine (List.perm_ext_iff_of_nodup h.wf.nodup.of_map hnodup).mpr fun e => ?_
  rw [h.mem_table, List.mem_map]
  refine ⟨?_, ?_⟩
  · rintro ⟨⟨k, hk, hkey⟩, hfreq⟩
    refine ⟨k, List.mem_dedup.mpr hk, ?_⟩
    rw [← hcount k hk, hkey, ← sum_additionsOf, additionsOf, ← hfreq]
  · rintro ⟨k, hk, rfl⟩
    have hk' := List.mem_dedup.mp hk
    refine ⟨⟨k, hk', rfl⟩, ?_⟩
    rw [← hcount k hk', ← sum_additionsOf, additionsOf]

theorem freq_eq (h : NgramHashInv (additionsOf key L) hash) (t : Vector UInt32 N) :
    clNgramHashFreq hash t = UInt32.ofNat (L.countP fun k => key k = t) := by
  have hfind := h.find_eq t
  rw [clNgramHashFreq, hfind, ← sum_additionsOf]
  split_ifs with hnil
  · rw [hnil]
    rfl
  · rfl

end Counting

/-! ## The cells -/

/-- The pairs of IDs of all matches. -/
def idPairs (group : Group) : List (ℤ × ℤ) := group.range.map group.ids

/-- The cell for a pair of IDs. -/
def cellAt (group : Group) (k : ℤ × ℤ) : IDCountMapping where
  s := k.1
  t := k.2
  freq := group.idPairs.count k
  sFreq := group.idPairs.countP fun k' => k'.1 = k.1

theorem toInt_ofNat {n : ℕ} (h : n < 2 ^ 31) : (UInt32.ofNat n).toInt32.toInt = n := by
  rw [UInt32.toInt32_ofNat', Int32.toInt_ofNat_of_lt h]

theorem countMatches_spec (group : Group) (fill : FillRate) : ∃ pairs groups,
    group.countMatches fill = some (pairs, groups) ∧
    pairs.table.flatten.Perm (group.idPairs.dedup.map fun k => ⟨pairKey k, UInt32.ofNat (group.idPairs.count k)⟩) ∧
    ∀ k ∈ group.idPairs, cellOf groups ⟨pairKey k, UInt32.ofNat (group.idPairs.count k)⟩ = group.cellAt k := by
  obtain ⟨pairs, groups, hrun, hpairs, hgroups⟩ := foldlM_countMatches group.range group.length_lt
  refine ⟨pairs, groups, hrun, table_perm hpairs ?_, ?_⟩
  · intro k hk k' hk'
    obtain ⟨m, -, rfl⟩ := List.mem_map.mp hk
    obtain ⟨m', -, rfl⟩ := List.mem_map.mp hk'
    exact pairKey_inj
  · intro k hk
    obtain ⟨m, -, rfl⟩ := List.mem_map.mp hk
    obtain ⟨hs, ht⟩ := group.ids_range m
    have hlt : ∀ n, n ≤ group.idPairs.length → n < 2 ^ 31 := fun n hn =>
      hn.trans_lt (by rw [idPairs, List.length_map]; exact group.length_lt)
    have hcount : (group.idPairs.countP fun k => sourceKey k = #v[(pairKey (group.ids m))[0]]) =
        group.idPairs.countP fun k => k.1 = (group.ids m).1 := by
      apply List.countP_congr
      intro k' hk'
      obtain ⟨m', -, rfl⟩ := List.mem_map.mp hk'
      rw [show #v[(pairKey (group.ids m))[0]] = sourceKey (group.ids m) by rw [sourceKey_val]; simp [pairKey_val]]
      simpa using sourceKey_eq_iff m' m
    have hfreq := freq_eq hgroups #v[(pairKey (group.ids m))[0]]
    rw [← idPairs, hcount] at hfreq
    rw [cellOf, cellAt, hfreq, pairKey_val]
    simp only [Vector.getElem_mk, List.getElem_toArray, List.getElem_cons_zero, List.getElem_cons_succ, ofInt_toInt hs, ofInt_toInt ht, toInt_ofNat (hlt _ (List.count_le_length)),
      toInt_ofNat (hlt _ (List.countP_le_length))]

theorem compareCells_consistent (group : Group) : Consistent group.compareCells := by
  have hstr : Consistent group.clStrcmp :=
    strcmp_consistent.comap fun w => (group.bytes w).map fun c : UInt8 => c.toInt8.toInt
  have hsource := hstr.comap fun c : IDCountMapping => group.source.groupId2str c.s
  have htarget := hstr.comap fun c : IDCountMapping => group.target.groupId2str c.t
  have hfreq := descending_consistent.comap IDCountMapping.freq
  have hsFreq := descending_consistent.comap IDCountMapping.sFreq
  unfold compareCells
  cases group.isGrouped with
  | true => exact hsFreq.thenBy (hsource.thenBy (hfreq.thenBy htarget))
  | false => exact hfreq.thenBy (hsource.thenBy htarget)

theorem toNat_ofInt (n : ℤ) : ((Int32.ofInt n).toUInt32.toNat : ℤ) = n % 2 ^ 32 := by
  rw [← Int32.toNat_toBitVec, Int32.toBitVec_ofInt, BitVec.toNat_ofInt, Int.toNat_of_nonneg (by omega)]
  rfl

theorem freq_range (group : Group) (k : ℤ × ℤ) : group.idPairs.count k < 2 ^ 31 :=
  List.count_le_length.trans_lt (by rw [idPairs, List.length_map]; exact group.length_lt)

theorem reachesCutoff_iff (group : Group) (k : ℤ × ℤ) :
    group.reachesCutoff ⟨pairKey k, UInt32.ofNat (group.idPairs.count k)⟩ = true ↔
      group.cutoffFrequency % 2 ^ 32 ≤ (group.cellAt k).freq := by
  have hlt := group.freq_range k
  rw [reachesCutoff, decide_eq_true_eq, UInt32.le_iff_toNat_le, UInt32.toNat_ofNat_of_lt' (hlt.trans (by decide)), ← toNat_ofInt]
  exact Int.ofNat_le.symm

/-- The cells of the command: those of the pairs of IDs that reach the cutoff as an unsigned
number, in the order of `compare_cells`. -/
theorem computeGroupInternally_spec (group : Group) (fill : FillRate) : ∃ cells,
    group.computeGroupInternally fill = some cells ∧
    cells.Perm ((group.idPairs.dedup.map group.cellAt).filter fun c => group.cutoffFrequency % 2 ^ 32 ≤ c.freq) ∧
    cells.Pairwise fun c c' => group.compareCells c c' ≤ 0 := by
  obtain ⟨pairs, groups, hrun, hperm, hcell⟩ := group.countMatches_spec fill
  refine ⟨_, by rw [computeGroupInternally, hrun]; rfl, ?_, group.compareCells_consistent.pairwise_mergeSort _⟩
  refine (List.mergeSort_perm _ _).trans (((hperm.filter _).map _).trans ?_)
  rw [List.filter_map, List.filter_map, List.map_map]
  have hfilter : group.idPairs.dedup.filter (group.reachesCutoff ∘ fun k => ⟨pairKey k, UInt32.ofNat (group.idPairs.count k)⟩) =
      group.idPairs.dedup.filter ((fun c => decide (group.cutoffFrequency % 2 ^ 32 ≤ c.freq)) ∘ group.cellAt) := by
    apply List.filter_congr
    intro k hk
    rw [Bool.eq_iff_iff]
    simpa using group.reachesCutoff_iff k
  rw [hfilter]
  apply List.Perm.of_eq
  apply List.map_congr_left
  intro k hk
  exact hcell k (List.mem_dedup.mp (List.mem_of_mem_filter hk))

/-! ## What the cells stand for -/

/-- The match is counted in this cell. -/
def CountedIn (group : Group) (m : Match) (cell : IDCountMapping) : Prop :=
  cell.s = group.source.getGroupId m ∧ cell.t = group.target.getGroupId m

instance (group : Group) (m : Match) (cell : IDCountMapping) : Decidable (group.CountedIn m cell) :=
  inferInstanceAs (Decidable (_ ∧ _))

/-- The same command with cutoff 0. -/
def uncut (group : Group) : Group := { group with cutoffFrequency := 0, cutoff_range := by decide }

/-- The cells for cutoff 0 count the matches by what is displayed of them, and those that reach
the cutoff frequency remain, in order. -/
structure CountsDisplayed (group : Group) (cells remaining : List IDCountMapping) : Prop where
  nodup : cells.Nodup
  counted : ∀ m ∈ group.range, ∃ cell ∈ cells, group.CountedIn m cell ∧ ∀ cell' ∈ cells, group.CountedIn m cell' → cell' = cell
  same : ∀ m ∈ group.range, ∀ m' ∈ group.range, (∃ cell ∈ cells, group.CountedIn m cell ∧ group.CountedIn m' cell) ↔
    group.source.displayed m = group.source.displayed m' ∧ group.target.displayed m = group.target.displayed m'
  freq : ∀ cell ∈ cells, cell.freq = group.range.countP fun m => group.CountedIn m cell
  total : (cells.map IDCountMapping.freq).sum = group.range.length
  sFreq : ∀ cell ∈ cells, cell.sFreq = ((cells.filter fun cell' =>
    group.source.groupId2str cell'.s = group.source.groupId2str cell.s).map IDCountMapping.freq).sum
  kept : remaining.Perm (cells.filter fun cell => group.cutoffFrequency ≤ cell.freq)
  sorted : remaining.Pairwise fun cell cell' => group.compareCells cell cell' ≤ 0

/-- Source values that are displayed alike are alike, and so are the target values that are
displayed alike for such a source. -/
def Unambiguous (group : Group) : Prop := ∀ m ∈ group.range, ∀ m' ∈ group.range,
  (group.source.value m).shown = (group.source.value m').shown → group.source.value m = group.source.value m' ∧
    ((group.target.value m).shown = (group.target.value m').shown → group.target.value m = group.target.value m')

theorem ids_eq_iff (group : Group) (m m' : Match) : group.ids m = group.ids m' ↔
    group.source.value m = group.source.value m' ∧ group.target.value m = group.target.value m' := by
  rw [ids, ids, Prod.mk.injEq, GroupKey.getGroupId_eq_iff, GroupKey.getGroupId_eq_iff]

theorem countedIn_cellAt (group : Group) (m : Match) (k : ℤ × ℤ) : group.CountedIn m (group.cellAt k) ↔ k = group.ids m := by
  rw [CountedIn, cellAt, ids, Prod.ext_iff]

section Cells

variable {cells : List IDCountMapping} (h : cells.Perm (group.idPairs.dedup.map group.cellAt))

include h

theorem mem_cells {cell : IDCountMapping} : cell ∈ cells ↔ ∃ m ∈ group.range, cell = group.cellAt (group.ids m) := by
  rw [h.mem_iff, List.mem_map]
  refine ⟨?_, ?_⟩
  · rintro ⟨k, hk, rfl⟩
    obtain ⟨m, hm, rfl⟩ := List.mem_map.mp (List.mem_dedup.mp hk)
    exact ⟨m, hm, rfl⟩
  · rintro ⟨m, hm, rfl⟩
    exact ⟨_, List.mem_dedup.mpr (List.mem_map_of_mem hm), rfl⟩

theorem cells_nodup : cells.Nodup := by
  refine h.nodup_iff.mpr (group.idPairs.nodup_dedup.map fun k k' heq => ?_)
  exact Prod.ext (congrArg IDCountMapping.s heq) (congrArg IDCountMapping.t heq)

theorem sum_freq_filter (p : IDCountMapping → Bool) :
    ((cells.filter p).map IDCountMapping.freq).sum = group.idPairs.countP fun k => p (group.cellAt k) := by
  rw [((h.filter p).map _).sum_eq, List.filter_map, List.map_map, ← List.sum_map_count_dedup_filter_eq_countP,
    Nat.cast_list_sum, List.map_map]
  refine congrArg List.sum (List.map_congr_left fun k _ => ?_)
  rw [Function.comp_apply, Function.comp_apply, cellAt]
  congr!

theorem counted_together_iff {m m' : Match} (hm : m ∈ group.range) :
    (∃ cell ∈ cells, group.CountedIn m cell ∧ group.CountedIn m' cell) ↔ group.ids m = group.ids m' := by
  refine ⟨?_, fun heq => ?_⟩
  · rintro ⟨cell, hcell, hin, hin'⟩
    obtain ⟨m₀, -, rfl⟩ := (mem_cells h).mp hcell
    exact ((group.countedIn_cellAt _ _).mp hin).symm.trans ((group.countedIn_cellAt _ _).mp hin')
  · exact ⟨_, (mem_cells h).mpr ⟨m, hm, rfl⟩, (group.countedIn_cellAt _ _).mpr rfl, (group.countedIn_cellAt _ _).mpr heq⟩

/-- `s_freq` is the sum for the displayed source exactly if no other source is displayed like it. -/
theorem sFreq_eq_iff (m : Match) : (group.cellAt (group.ids m)).sFreq = ((cells.filter fun cell' =>
      group.source.groupId2str cell'.s = group.source.groupId2str (group.cellAt (group.ids m)).s).map IDCountMapping.freq).sum ↔
    ∀ m' ∈ group.range, (group.source.value m').shown = (group.source.value m).shown →
      group.source.value m' = group.source.value m := by
  have hpairs : ∀ q : ℤ × ℤ → Bool, group.idPairs.countP q = group.range.countP fun m' => q (group.ids m') :=
    fun q => List.countP_map
  have hsub : (group.range.filter fun m' => group.source.displayed m' = group.source.displayed m).countP
      (fun m' => (group.ids m').1 = (group.ids m).1) = group.idPairs.countP fun k => k.1 = (group.ids m).1 := by
    rw [List.countP_filter, hpairs]
    apply List.countP_congr
    intro m' _
    simp only [Bool.and_eq_true, decide_eq_true_eq, and_iff_left_iff_imp]
    intro heq
    rw [GroupKey.displayed, GroupKey.displayed, show group.source.getGroupId m' = _ from heq]
    rfl
  rw [sum_freq_filter h, hpairs, List.countP_eq_length_filter, cellAt, ← hsub, Nat.cast_inj]
  refine List.countP_eq_length.trans ?_
  simp only [List.mem_filter, decide_eq_true_eq, and_imp, GroupKey.displayed_eq]
  exact forall₃_congr fun m' _ _ => GroupKey.getGroupId_eq_iff m' m

end Cells

/-- The cells that remain with a cutoff are those of the command with cutoff 0 that reach it. -/
theorem compute_spec (group : Group) (fill : FillRate) : ∃ cells remaining,
    group.uncut.computeGroupInternally fill = some cells ∧ group.computeGroupInternally fill = some remaining ∧
    cells.Perm (group.idPairs.dedup.map group.cellAt) ∧
    remaining.Perm (cells.filter fun c => group.cutoffFrequency % 2 ^ 32 ≤ c.freq) ∧
    remaining.Pairwise fun c c' => group.compareCells c c' ≤ 0 := by
  obtain ⟨cells, hcells, hperm, -⟩ := group.uncut.computeGroupInternally_spec fill
  obtain ⟨remaining, hremaining, hperm', hsorted⟩ := group.computeGroupInternally_spec fill
  have hall : cells.Perm (group.idPairs.dedup.map group.cellAt) := by
    refine hperm.trans (List.Perm.of_eq (List.filter_eq_self.mpr fun c hc => ?_))
    obtain ⟨k, -, rfl⟩ := List.mem_map.mp hc
    exact decide_eq_true (Int.natCast_nonneg _)
  exact ⟨cells, remaining, hcells, hremaining, hall, hperm'.trans (hall.filter _).symm, hsorted⟩

theorem countsDisplayed_iff (group : Group) {cells remaining : List IDCountMapping}
    (h : cells.Perm (group.idPairs.dedup.map group.cellAt))
    (hkept : remaining.Perm (cells.filter fun c => group.cutoffFrequency % 2 ^ 32 ≤ c.freq))
    (hsorted : remaining.Pairwise fun c c' => group.compareCells c c' ≤ 0) :
    group.CountsDisplayed cells remaining ↔ 0 ≤ group.cutoffFrequency ∧ group.Unambiguous := by
  have hrange := group.cutoff_range
  refine ⟨fun hc => ⟨?_, fun m hm m' hm' hs => ?_⟩, ?_⟩
  · -- as an unsigned number, a negative cutoff is larger than every frequency
    by_contra hneg
    obtain ⟨m, hm⟩ := List.exists_mem_of_ne_nil _ group.nonempty
    have hfreq : (group.cellAt (group.ids m)).freq = group.idPairs.count (group.ids m) := rfl
    have hmem : group.cellAt (group.ids m) ∈ remaining := by
      refine hc.kept.mem_iff.mpr (List.mem_filter.mpr ⟨(mem_cells h).mpr ⟨m, hm, rfl⟩, decide_eq_true ?_⟩)
      omega
    have hle := of_decide_eq_true (List.mem_filter.mp (hkept.mem_iff.mp hmem)).2
    have hlt := group.freq_range (group.ids m)
    omega
  · have hsource : group.source.value m = group.source.value m' :=
      ((sFreq_eq_iff h m').mp (hc.sFreq _ ((mem_cells h).mpr ⟨m', hm', rfl⟩))) m hm hs
    refine ⟨hsource, fun ht => ?_⟩
    have hsame := (hc.same m hm m' hm').mpr (by simpa only [GroupKey.displayed_eq] using ⟨hs, ht⟩)
    exact ((group.ids_eq_iff m m').mp ((counted_together_iff h hm).mp hsame)).2
  · rintro ⟨hcutoff, hu⟩
    refine ⟨cells_nodup h, fun m hm => ?_, fun m hm m' hm' => ?_, fun cell hcell => ?_, ?_, fun cell hcell => ?_, ?_, hsorted⟩
    · refine ⟨_, (mem_cells h).mpr ⟨m, hm, rfl⟩, (group.countedIn_cellAt _ _).mpr rfl, fun cell hcell hin => ?_⟩
      obtain ⟨m', -, rfl⟩ := (mem_cells h).mp hcell
      rw [(group.countedIn_cellAt _ _).mp hin]
    · rw [counted_together_iff h hm, group.ids_eq_iff]
      simp only [GroupKey.displayed_eq]
      refine ⟨fun heq => ⟨by rw [heq.1], by rw [heq.2]⟩, fun hshown => ?_⟩
      obtain ⟨hs, ht⟩ := hu m hm m' hm' hshown.1
      exact ⟨hs, ht hshown.2⟩
    · obtain ⟨m, -, rfl⟩ := (mem_cells h).mp hcell
      simp only [countedIn_cellAt]
      rw [cellAt, List.count, idPairs, List.countP_map, Nat.cast_inj]
      apply List.countP_congr
      intro m' _
      rw [Function.comp_apply, beq_iff_eq, decide_eq_true_eq]
      exact eq_comm
    · have hsum := sum_freq_filter h fun _ => true
      rw [List.filter_true, List.countP_true, idPairs, List.length_map] at hsum
      exact hsum
    · obtain ⟨m, hm, rfl⟩ := (mem_cells h).mp hcell
      exact (sFreq_eq_iff h m).mpr fun m' hm' hs => (hu m' hm' m hm hs).1
    · rwa [show group.cutoffFrequency % 2 ^ 32 = group.cutoffFrequency by omega] at hkept

/-- The cells count what is displayed, for every cutoff frequency, exactly if the cutoff is not
negative and values that are displayed alike are alike. -/
theorem groups_count_displayed_iff (group : Group) (fill : FillRate) :
    (∃ cells remaining, group.uncut.computeGroupInternally fill = some cells ∧
      group.computeGroupInternally fill = some remaining ∧ group.CountsDisplayed cells remaining) ↔
    0 ≤ group.cutoffFrequency ∧ group.Unambiguous := by
  obtain ⟨cells, remaining, hcells, hremaining, h, hkept, hsorted⟩ := group.compute_spec fill
  rw [← group.countsDisplayed_iff h hkept hsorted]
  refine ⟨?_, fun hc => ⟨cells, remaining, hcells, hremaining, hc⟩⟩
  rintro ⟨cells', remaining', hcells', hremaining', hc⟩
  cases hcells.symm.trans hcells'
  cases hremaining.symm.trans hremaining'
  exact hc

/-- `group A target[1] w` on the corpus `a b`: one match without a target and one with its target
on the last token. -/
theorem length_lt_abWord : abWord.ids.length < 2 ^ 31 := by decide

def demoGroup : Group where
  range := [{ start := 0, stop := 0 }, { start := 1, stop := 1, target := 1 }]
  nonempty := by simp
  length_lt := by decide
  source := { field := .noField, offset := 0, attr := none, attr_none := fun _ => rfl }
  target := { field := .targetField, offset := 1, attr := some (.pos abWord length_lt_abWord), attr_none := by simp }
  cutoffFrequency := 0
  cutoff_range := by decide
  isGrouped := false
  bytes w := w.toList.map fun c => c.toNat.toUInt8

theorem demoGroup_not_displayed : ¬∃ cells remaining, demoGroup.uncut.computeGroupInternally abFill = some cells ∧
    demoGroup.computeGroupInternally abFill = some remaining ∧ demoGroup.CountsDisplayed cells remaining := by
  rintro ⟨cells', remaining', hcells', hremaining', hc⟩
  obtain ⟨cells, remaining, hcells, hremaining, h, hkept, hsorted⟩ := demoGroup.compute_spec abFill
  cases hcells.symm.trans hcells'
  cases hremaining.symm.trans hremaining'
  have hu := ((demoGroup.countsDisplayed_iff h hkept hsorted).mp hc).2
  have hvalues : GroupValue.undefined = .beyond :=
    (hu _ (List.mem_cons_self ..) _ (List.mem_cons_of_mem _ (List.mem_singleton_self _)) rfl).2 rfl
  cases hvalues

end Group

end CWB
