import CWB.Proofs.CqiAnswers
import CWB.Proofs.Groups

/-! The frequency distributions of the CQi server. The handlers lower the cutoff because
`compute_grouping` is taken to keep the frequencies above it; the internal implementation keeps those
that are equal to it as well, so cells with the frequency just below the cutoff are sent. -/

namespace CWB

open BitVec List

namespace Group

variable {group : Group}

theorem groupLines_eq (group : Group) : group.groupLines = group.idPairs := rfl

theorem idPairs_length_lt (group : Group) : group.idPairs.length < 2 ^ 31 := by
  rw [idPairs, length_map]
  exact group.length_lt

end Group

namespace Cqi

open CWB.Group

/-- The external command writes one line for each different line of its input, with its frequency. -/
def GroupAccess.CommandCounts (access : GroupAccess) : Prop :=
  ∀ lines, ∃ output, access.externalCommand lines = some output ∧
    output.Perm (lines.dedup.map fun k => ((lines.count k : ℤ), k.1, k.2))

/-- The server with this grouping. -/
def GroupAccess.env (access : GroupAccess) (env : CqiEnv) : CqiEnv := { env with computeGrouping := access.computeGrouping }

/-- The row for a pair of IDs in the full distribution. -/
def FdistRequest.cellRow (request : FdistRequest) (group : Group) (k : ℤ × ℤ) : List CInt :=
  request.row (BitVec.ofInt 32 k.1) (BitVec.ofInt 32 k.2) (BitVec.ofInt 32 (group.idPairs.count k))

/-- The reply is a table of the cells whose frequency is at least the cutoff. -/
def FdistExact (request : FdistRequest) (group : Group) (cutoff : ℤ) (reply : List CqiValue) : Prop :=
  ∃ rows, reply = request.tableReply rows ∧
    rows.Perm ((group.idPairs.dedup.filter fun k => cutoff ≤ group.idPairs.count k).map (request.cellRow group))

namespace GroupAccess

variable {access : GroupAccess} {group : Group} {cl : Entry} {source : Option (AnchorField × CString)} {target : AnchorField × CString}

/-- The cells that are kept, as the implementation that is used compares the frequencies. -/
def keeps (access : GroupAccess) (group : Group) (k : ℤ × ℤ) : Bool :=
  if access.groupsExternally group then group.cutoffFrequency < group.idPairs.count k
  else group.cutoffFrequency ≤ group.idPairs.count k

def pairCell (group : Group) (k : ℤ × ℤ) : GroupCell :=
  ⟨BitVec.ofInt 32 k.1, BitVec.ofInt 32 k.2, BitVec.ofInt 32 (group.idPairs.count k)⟩

theorem computeGroup_spec (hcommand : access.groupsExternally group = true → access.CommandCounts)
    (hcutoff : 0 ≤ group.cutoffFrequency) :
    ∃ cells, access.computeGroup group = some cells ∧
      (cells.map sentCell).Perm ((group.idPairs.dedup.filter (access.keeps group)).map (pairCell group)) := by
  cases hexternal : access.groupsExternally group with
  | true =>
    obtain ⟨output, houtput, hperm⟩ := hcommand hexternal group.groupLines
    refine ⟨_, by rw [computeGroup, hexternal, if_pos rfl], ?_⟩
    rw [computeGroupExternally, houtput, Option.getD_some, map_map]
    refine ((hperm.filter _).map _).trans ?_
    rw [filter_map, map_map, groupLines_eq]
    apply List.Perm.of_eq
    congr 1
    apply filter_congr
    intro k hk
    simp [keeps, hexternal]
  | false =>
    obtain ⟨cells, hcells, hperm, -⟩ := group.computeGroupInternally_spec access.fill
    refine ⟨cells, by rw [computeGroup, hexternal, if_neg Bool.false_ne_true, hcells], (hperm.map _).trans ?_⟩
    rw [List.filter_map, map_map]
    apply List.Perm.of_eq
    have hmod : group.cutoffFrequency % 2 ^ 32 = group.cutoffFrequency := by
      have hrange := group.cutoff_range
      omega
    rw [hmod]
    have hfilter : group.idPairs.dedup.filter ((fun c => decide (group.cutoffFrequency ≤ c.freq)) ∘ group.cellAt) =
        group.idPairs.dedup.filter (access.keeps group) := by
      apply filter_congr
      intro k hk
      rw [keeps, hexternal, if_neg Bool.false_ne_true]
      rfl
    rw [hfilter]
    rfl

theorem computeGrouping_spec {cutoffFreq : ℤ} (hgroup : access.setUp cl source target (BitVec.ofInt 32 cutoffFreq) = some group)
    (hcommand : access.groupsExternally group = true → access.CommandCounts) (hcutoff : 0 ≤ group.cutoffFrequency) :
    ∃ table, access.computeGrouping cl source target cutoffFreq = some table ∧
      table.elems.Perm ((group.idPairs.dedup.filter (access.keeps group)).map (pairCell group)) := by
  obtain ⟨cells, hcells, hperm⟩ := computeGroup_spec hcommand hcutoff
  have hlength : (cells.map sentCell).length < 2 ^ 31 := by
    rw [hperm.length_eq, length_map]
    exact ((length_filter_le _ _).trans (dedup_sublist _).length_le).trans_lt group.idPairs_length_lt
  refine ⟨⟨_, hlength⟩, ?_, hperm⟩
  rw [computeGrouping, hgroup, Option.bind_eq_bind, Option.bind_some, hcells, Option.bind_eq_bind, Option.bind_some, dif_pos hlength]

theorem setUp_cutoff {cutoffFreq : CInt} (h : access.setUp cl source target cutoffFreq = some group) :
    group.cutoffFrequency = cutoffFreq.toInt := by
  rw [setUp] at h
  split_ifs at h
  obtain ⟨source', -, h⟩ := Option.bind_eq_some_iff.mp h
  obtain ⟨target', -, h⟩ := Option.bind_eq_some_iff.mp h
  cases h
  rfl

end GroupAccess

/-! ## Replies -/

theorem cqiField_fieldByte (field : AnchorField) : cqiField (fieldByte field) = some field := by
  cases field
  · rfl
  · rfl
  · rfl
  · rfl

/-- The table of the reply is the one of `compute_grouping`. -/
theorem FdistRequest.handler_eq {env : CqiEnv} {st : CqiServer} {subcorpus : CString} {cl : Entry} {table : CList GroupCell}
    (request : FdistRequest) {cutoff : CInt} (hcl : findCorpus env st.store (nameOf subcorpus) = some cl)
    (htable : env.computeGrouping cl request.source request.target (groupCutoff cutoff) = some table) :
    ∃ st', request.handler env subcorpus cutoff st =
      some (request.tableReply (table.elems.map fun cell => request.row cell.s cell.t cell.freq), st') := by
  cases request with
  | fdist1 field att =>
    simp only [source, target] at htable
    simp only [handler, doCqiCqpFdist1, cqiFindCorpus_of_some hcl, cqiField_fieldByte, htable, cqiIntTable]
    refine ⟨_, congrArg some (Prod.ext ?_ rfl)⟩
    simp [tableReply, row, flatMap, map_flatten, Function.comp_def]
  | fdist2 field1 att1 field2 att2 =>
    simp only [source, target] at htable
    simp only [handler, doCqiCqpFdist2, cqiFindCorpus_of_some hcl, cqiField_fieldByte, htable, cqiIntTable]
    refine ⟨_, congrArg some (Prod.ext ?_ rfl)⟩
    simp [tableReply, row, flatMap, map_flatten, Function.comp_def]

/-- Tables with equal replies have equally many rows. -/
theorem FdistRequest.length_of_tableReply {request : FdistRequest} {rows rows' : List (List CInt)}
    (h : request.tableReply rows = request.tableReply rows') (hrows : rows.length < 2 ^ 31) (hrows' : rows'.length < 2 ^ 31) :
    rows.length = rows'.length := by
  have hsecond := CqiValue.int.inj (List.cons.inj (List.cons.inj h).2).1
  have hnat := congrArg BitVec.toNat hsecond
  rw [toNat_ofNat, toNat_ofNat, Nat.mod_eq_of_lt (by omega), Nat.mod_eq_of_lt (by omega)] at hnat
  exact hnat

/-! ## The cutoff -/

section Cutoff

variable {env : CqiEnv} {access : GroupAccess} {st : CqiServer} {request : FdistRequest} {subcorpus : CString} {cutoff : CInt}
  {cl : Entry} {group : Group}

theorem fdist_reply (hcl : findCorpus (access.env env) st.store (nameOf subcorpus) = some cl)
    (hgroup : access.setUp cl request.source request.target (BitVec.ofInt 32 (groupCutoff cutoff)) = some group)
    (hcutoff : 1 ≤ cutoff.toInt) (hcommand : access.groupsExternally group = true → access.CommandCounts) :
    group.cutoffFrequency = cutoff.toInt - 1 ∧ ∃ rows st', request.handler (access.env env) subcorpus cutoff st =
        some (request.tableReply rows, st') ∧
      rows.Perm ((group.idPairs.dedup.filter (access.keeps group)).map (request.cellRow group)) := by
  have hfreq : group.cutoffFrequency = cutoff.toInt - 1 := by
    have hlt : cutoff.toInt < 2 ^ 31 := toInt_lt
    rw [GroupAccess.setUp_cutoff hgroup, groupCutoff, if_pos (by omega), toInt_ofInt]
    exact Int.bmod_eq_of_le (by omega) (by omega)
  obtain ⟨table, htable, hperm⟩ := GroupAccess.computeGrouping_spec hgroup hcommand (by omega)
  obtain ⟨st', hrun⟩ := @FdistRequest.handler_eq (access.env env) st subcorpus cl table request cutoff hcl htable
  refine ⟨hfreq, _, st', hrun, (hperm.map _).trans (List.Perm.of_eq ?_)⟩
  rw [List.map_map]
  rfl

/-- The cells that reach the cutoff are those that are kept. -/
theorem keeps_eq_iff (hfreq : group.cutoffFrequency = cutoff.toInt - 1) :
    (∀ k ∈ group.idPairs, access.keeps group k = decide (cutoff.toInt ≤ group.idPairs.count k)) ↔
      access.groupsExternally group = true ∨ ∀ k ∈ group.idPairs, (group.idPairs.count k : ℤ) ≠ cutoff.toInt - 1 := by
  cases hexternal : access.groupsExternally group with
  | true =>
    refine ⟨fun _ => .inl rfl, fun _ k _ => ?_⟩
    rw [GroupAccess.keeps, hexternal, if_pos rfl, hfreq, decide_eq_decide]
    omega
  | false =>
    have hkeeps : ∀ k, access.keeps group k = decide (cutoff.toInt - 1 ≤ group.idPairs.count k) := by
      intro k
      rw [GroupAccess.keeps, hexternal, if_neg Bool.false_ne_true, hfreq]
    rw [or_iff_right Bool.false_ne_true]
    refine forall₂_congr fun k _ => ?_
    rw [hkeeps, decide_eq_decide]
    omega

/-- A table of all cells that reach the cutoff has no others. -/
theorem keeps_of_length {rows rows' : List (List CInt)} (hfreq : group.cutoffFrequency = cutoff.toInt - 1)
    (hrows : rows.Perm ((group.idPairs.dedup.filter (access.keeps group)).map (request.cellRow group)))
    (hrows' : rows'.Perm ((group.idPairs.dedup.filter fun k => cutoff.toInt ≤ group.idPairs.count k).map (request.cellRow group)))
    (hreply : request.tableReply rows = request.tableReply rows') :
    ∀ k ∈ group.idPairs, access.keeps group k = decide (cutoff.toInt ≤ group.idPairs.count k) := by
  have himp : ∀ k, decide (cutoff.toInt ≤ group.idPairs.count k) = true → access.keeps group k = true := by
    intro k hk
    have hk := of_decide_eq_true hk
    rw [GroupAccess.keeps, hfreq]
    split_ifs
    · exact decide_eq_true (by omega)
    · exact decide_eq_true (by omega)
  have hlt : ∀ p : ℤ × ℤ → Bool, (group.idPairs.dedup.filter p).length < 2 ^ 31 := fun p =>
    ((length_filter_le _ _).trans (dedup_sublist _).length_le).trans_lt group.idPairs_length_lt
  have hlen := hrows.length_eq
  have hlen' := hrows'.length_eq
  rw [length_map] at hlen hlen'
  have heq := FdistRequest.length_of_tableReply hreply (hlen ▸ hlt _) (hlen' ▸ hlt _)
  rw [hlen, hlen'] at heq
  have hsame := (monotone_filter_right group.idPairs.dedup himp).eq_of_length heq.symm
  intro k hk
  have hmem := congrArg (k ∈ ·) hsame
  simp only [mem_filter, mem_dedup, hk, true_and, decide_eq_true_eq, eq_iff_iff] at hmem
  rw [Bool.eq_iff_iff, decide_eq_true_eq]
  exact hmem.symm

/-- The table has the cells that reach the cutoff exactly if the external implementation is used or no
frequency is just below the cutoff. -/
theorem fdist_exact_iff (env : CqiEnv) (access : GroupAccess) (st : CqiServer) (request : FdistRequest)
    (hcl : findCorpus (access.env env) st.store (nameOf subcorpus) = some cl)
    (hgroup : access.setUp cl request.source request.target (BitVec.ofInt 32 (groupCutoff cutoff)) = some group)
    (hcutoff : 1 ≤ cutoff.toInt) (hcommand : access.groupsExternally group = true → access.CommandCounts) :
    (∃ reply st', request.handler (access.env env) subcorpus cutoff st = some (reply, st') ∧
      FdistExact request group cutoff.toInt reply) ↔
    access.groupsExternally group = true ∨ ∀ k ∈ group.idPairs, (group.idPairs.count k : ℤ) ≠ cutoff.toInt - 1 := by
  obtain ⟨hfreq, rows, st', hrun, hperm⟩ := fdist_reply hcl hgroup hcutoff hcommand
  rw [← keeps_eq_iff hfreq]
  constructor
  · rintro ⟨reply, st'', hrun', rows', hreply, hperm'⟩
    rw [hrun] at hrun'
    obtain ⟨rfl, -⟩ := Prod.mk.inj (Option.some.inj hrun')
    exact keeps_of_length hfreq hperm hperm' hreply
  · intro hkeeps
    refine ⟨_, st', hrun, rows, rfl, hperm.trans (List.Perm.of_eq ?_)⟩
    congr 1
    apply filter_congr
    intro k hk
    exact hkeeps k (mem_dedup.mp hk)

end Cutoff

/-! A query result with one match, on the first token of the corpus `a b`. -/

def abAccess : GroupAccess where
  posAttribute _ _ := some abWord
  posAttribute_length _ _ a h := by
    cases h
    decide
  strucAttribute _ _ := none
  useExternalGrouping := false
  externalCommand _ := none
  fill := abFill
  bytes _ _ := []

def abResult : Entry where
  id := 0
  type := .sub
  name := ['B']
  motherName := ['A']
  registry := []
  data :=
    { corpus := ⟨0, []⟩
      range := [(0, 0)]
      targets := none
      keywords := none
      targets_length := by simp
      keywords_length := by simp
      size_lt := by decide }

def abServer : CqiServer := { emptyServer with store := { corpuslist := [abResult], nextId := 1 } }

/-- The result `A:B`. -/
def abName : CString := ⟨[0x41, 0x3A, 0x42], by decide⟩

def abWordName : CString := ⟨[0x77], by decide⟩

theorem findCorpus_ab : findCorpus (abAccess.env emptyEnv) abServer.store (nameOf abName) = some abResult := by
  have hname : nameOf abName = ['A', ':', 'B'] := by decide +kernel
  have hcorpus : checkCorpusName (abAccess.env emptyEnv) ['A', ':', 'B'] = false := by
    rw [checkCorpusName, idUcFirst_eq, idUc_eq]
    rfl
  have hsplit : (splitSubcorpusSpec (abAccess.env emptyEnv) ['A', ':', 'B']).isSome = true := by
    simp only [splitSubcorpusSpec, checkCorpusName, idUcFirst_eq, idUc_eq]
    rfl
  rw [findCorpus, hname, hcorpus, hsplit]
  rfl

/-- The group of the request for the words of the matches. -/
theorem toInt_range (n : CInt) : -2 ^ 31 ≤ n.toInt ∧ n.toInt < 2 ^ 31 := ⟨le_toInt n, toInt_lt⟩

def abGroup (cutoff : CInt) : Group where
  range := [{ start := 0, stop := 0 }]
  nonempty := by simp
  length_lt := by decide
  source := ⟨.noField, 0, none, fun _ => rfl⟩
  target := ⟨.matchField, 0, some (.pos abWord length_lt_abWord), by simp⟩
  cutoffFrequency := cutoff.toInt
  cutoff_range := toInt_range cutoff
  isGrouped := false
  bytes _ := []

def abRequest : FdistRequest := .fdist1 .matchField abWordName

theorem setUp_ab (cutoff : CInt) : abAccess.setUp abResult abRequest.source abRequest.target (BitVec.ofInt 32 (groupCutoff cutoff)) =
    some (abGroup (BitVec.ofInt 32 (groupCutoff cutoff))) := rfl

theorem fdist_exact_ab : ∃ reply st', abRequest.handler (abAccess.env emptyEnv) abName 1 abServer = some (reply, st') ∧
    FdistExact abRequest (abGroup 0) 1 reply := by
  refine (fdist_exact_iff emptyEnv abAccess abServer abRequest findCorpus_ab (setUp_ab 1) (by decide) nofun).mpr (.inr fun k hk => ?_)
  have hpos := count_pos_iff.mpr hk
  have hone : (1 : CInt).toInt = 1 := rfl
  omega

/-- With the cutoff 2 the word of the only match is sent, with its frequency 1. -/
theorem fdist_below_cutoff_ab : ¬∃ reply st', abRequest.handler (abAccess.env emptyEnv) abName 2 abServer = some (reply, st') ∧
    FdistExact abRequest (abGroup 1) 2 reply := by
  rintro ⟨reply, st', hrun, rows, hreply, hperm⟩
  obtain ⟨hfreq, rows', st'', hrun', hperm'⟩ := fdist_reply findCorpus_ab (setUp_ab 2) (by decide) nofun
  rw [hrun] at hrun'
  obtain ⟨hreply', -⟩ := Prod.mk.inj (Option.some.inj hrun')
  have hsame := keeps_of_length hfreq hperm' hperm (hreply'.symm.trans hreply) (-1, 0) (by decide)
  exact absurd hsame (by decide)

end Cqi

end CWB
