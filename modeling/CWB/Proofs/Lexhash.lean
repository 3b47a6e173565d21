import Mathlib
import CWB.Spec.Lexhash

/-! The lexhash as a finite map. What it answers after a sequence of calls is read off
the calls alone: the frequency of a string is the number of adds since its last deletion,
its ID the number of insertions before its own. -/

namespace CWB

open List ChainedTable

def addsSinceDel (ops : List LexhashOp) (s : List UInt8) : ℕ :=
  (ops.reverse.takeWhile fun o => decide (o ≠ .del s)).count (.add s)

/-- The strings for which an entry was made, in the order of insertion. -/
def inserted (ops : List LexhashOp) : List (List UInt8) :=
  (range ops.length).filterMap fun n =>
    match ops[n]? with
    | some (LexhashOp.add s) => if addsSinceDel (ops.take n) s = 0 then some s else none
    | _ => none

/-- The place of the last occurrence. -/
def lastIdx (s : List UInt8) (l : List (List UInt8)) : ℕ := l.length - 1 - l.reverse.idxOf s

theorem lastIdx_self (s : List UInt8) (l : List (List UInt8)) : lastIdx s (l ++ [s]) = l.length := by
  simp [lastIdx]

theorem lastIdx_of_ne {s t : List UInt8} (h : t ≠ s) (l : List (List UInt8)) : lastIdx s (l ++ [t]) = lastIdx s l := by
  simp only [lastIdx, reverse_append, reverse_singleton, singleton_append, length_append,
    length_singleton]
  rw [idxOf_cons_ne _ h]
  omega

theorem addsSinceDel_add (ops : List LexhashOp) (s t : List UInt8) :
    addsSinceDel (ops ++ [.add t]) s = addsSinceDel ops s + if t = s then 1 else 0 := by
  simp only [addsSinceDel, reverse_append, reverse_singleton, singleton_append]
  rw [takeWhile_cons_of_pos (by simp), count_cons]
  simp

theorem addsSinceDel_del (ops : List LexhashOp) (s t : List UInt8) :
    addsSinceDel (ops ++ [.del t]) s = if t = s then 0 else addsSinceDel ops s := by
  simp only [addsSinceDel, reverse_append, reverse_singleton, singleton_append]
  by_cases h : t = s
  · rw [takeWhile_cons_of_neg (by simp [h]), if_pos h]
    rfl
  · rw [takeWhile_cons_of_pos (by simp [h]), if_neg h, count_cons_of_ne (by simp)]

/-- The calls that change no entry. -/
def LexhashOp.isQuery : LexhashOp → Bool
  | .add _ | .del _ => false
  | _ => true

theorem addsSinceDel_query {o : LexhashOp} (ho : o.isQuery = true) (ops : List LexhashOp) (s : List UInt8) :
    addsSinceDel (ops ++ [o]) s = addsSinceDel ops s := by
  simp only [addsSinceDel, reverse_append, reverse_singleton, singleton_append]
  rw [takeWhile_cons_of_pos (by cases o <;> simp_all [LexhashOp.isQuery]),
    count_cons_of_ne (by cases o <;> simp_all [LexhashOp.isQuery])]

theorem inserted_snoc (ops : List LexhashOp) (o : LexhashOp) :
    inserted (ops ++ [o]) = inserted ops ++
      match o with
      | .add s => if addsSinceDel ops s = 0 then [s] else []
      | _ => [] := by
  unfold inserted
  rw [length_append, length_singleton, range_succ, filterMap_append]
  congr 1
  · refine filterMap_congr fun n hn => ?_
    have hlt := mem_range.mp hn
    rw [getElem?_append_left hlt, take_append_of_le_length hlt.le]
  · cases o with
    | add s => by_cases h : addsSinceDel ops s = 0 <;> simp [h]
    | _ => simp

/-! Growing. -/

theorem nrOfBuckets_pos (buckets : ℤ) : 0 < nrOfBuckets buckets := by
  have h := (Nat.find_spec (exists_isPrime (if buckets ≤ 0 then DEFAULT_NR_OF_BUCKETS else buckets.toNat))).1
  refine lt_of_lt_of_le ?_ h
  by_cases hb : buckets ≤ 0
  · rw [if_pos hb]; decide
  · rw [if_neg hb]; omega

theorem checkGrow_spec {κ ε : Type} {key : ε → κ} {hash : κ → ℕ} (fill : FillRate) (autoGrow : Bool)
    {table : List (List ε)} {entries : ℕ} (h : Chained key hash table) (hlen : entries = table.flatten.length) :
    ∃ table' autoGrow', checkGrow key hash fill autoGrow entries table = some (table', autoGrow') ∧
      Chained key hash table' ∧ table'.flatten.Perm table.flatten := by
  unfold checkGrow
  by_cases hgrow : autoGrow ∧ fill.exceeds entries table.length
  · simp only [if_pos hgrow]
    by_cases hmax : fill.targetSize entries > MAX_BUCKETS ∧ 2 * table.length > fill.targetSize entries
    · rw [if_pos hmax]
      exact ⟨table, false, rfl, h, List.Perm.refl _⟩
    · rw [if_neg hmax]
      obtain ⟨hwf, -, hperm⟩ := rehash_spec hash (nrOfBuckets_pos
        ((if fill.targetSize entries > MAX_BUCKETS then MAX_BUCKETS else fill.targetSize entries : ℕ) : ℤ)) h.nodup
      rw [if_pos (by rw [hperm.length_eq, hlen])]
      exact ⟨_, _, rfl, hwf, hperm⟩
  · rw [if_neg hgrow]
    exact ⟨table, autoGrow, rfl, h, List.Perm.refl _⟩

/-! The invariant. -/

structure LexhashInv (ops : List LexhashOp) (hash : Lexhash) : Prop where
  wf : Chained LexhashEntry.key hashString hash.table
  entries_eq : hash.entries = hash.table.flatten.length
  next_eq : hash.nextId = (inserted ops).length
  find_eq : ∀ s, clLexhashFind hash s = if addsSinceDel ops s = 0 then none else
    some ⟨s, addsSinceDel ops s, lastIdx s (inserted ops)⟩

theorem inv_new (buckets : ℤ) : LexhashInv [] (clNewLexhash buckets) := by
  have hwf : Chained LexhashEntry.key hashString (clNewLexhash buckets).table :=
    chained_empty (nrOfBuckets_pos buckets)
  refine ⟨hwf, by simp [clNewLexhash], rfl, fun s => ?_⟩
  exact (lookup_eq_none_iff hwf).mpr (by simp [clNewLexhash])

variable {ops : List LexhashOp} {hash : Lexhash}

theorem inv_grow (fill : FillRate) (h : LexhashInv ops hash) :
    ∃ hash', clLexhashCheckGrow fill hash = some hash' ∧ LexhashInv ops hash' ∧
      hash'.table.flatten.Perm hash.table.flatten := by
  obtain ⟨table, autoGrow, heq, hwf, hperm⟩ := checkGrow_spec fill hash.autoGrow h.wf h.entries_eq
  refine ⟨{ hash with table := table, autoGrow := autoGrow }, by simp [clLexhashCheckGrow, heq], ?_, hperm⟩
  refine ⟨hwf, by rw [h.entries_eq]; exact hperm.length_eq.symm, h.next_eq, fun s => ?_⟩
  rw [← h.find_eq s, clLexhashFind, lookup_of_perm h.wf hwf hperm]
  rfl

theorem inv_add (fill : FillRate) (h : LexhashInv ops hash) (s : List UInt8) :
    ∃ hash', clLexhashAdd fill hash s = some hash' ∧ LexhashInv (ops ++ [.add s]) hash' := by
  have hs := h.find_eq s
  unfold clLexhashAdd
  by_cases h0 : addsSinceDel ops s = 0
  · rw [if_pos h0] at hs
    rw [hs]
    obtain ⟨hwf, hperm⟩ := append_spec (e := (⟨s, 1, hash.nextId⟩ : LexhashEntry)) h.wf
      ((lookup_eq_none_iff h.wf).mp hs)
    have hins : inserted (ops ++ [.add s]) = inserted ops ++ [s] := by
      rw [inserted_snoc]
      simp [h0]
    have hinv : LexhashInv (ops ++ [.add s]) { hash with
        table := hash.table.modify (slot hashString hash.table s) (· ++ [⟨s, 1, hash.nextId⟩])
        nextId := hash.nextId + 1, entries := hash.entries + 1 } := by
      refine ⟨hwf, by rw [h.entries_eq]; exact hperm.length_eq.symm, ?_, ?_⟩
      · rw [hins, length_append, h.next_eq]
        rfl
      · intro t
        have hlook := lookup_append (e := (⟨s, 1, hash.nextId⟩ : LexhashEntry)) h.wf hs t
        rw [clLexhashFind, hlook, addsSinceDel_add, hins]
        by_cases hst : t = s
        · subst hst
          simp [h0, lastIdx_self, h.next_eq]
        · rw [if_neg hst, if_neg (Ne.symm hst), lastIdx_of_ne (Ne.symm hst)]
          exact h.find_eq t
    simp only
    split_ifs
    · obtain ⟨hash', hgrow, hinv', -⟩ := inv_grow fill hinv
      exact ⟨hash', hgrow, hinv'⟩
    · exact ⟨_, rfl, hinv⟩
  · rw [if_neg h0] at hs
    rw [hs]
    obtain ⟨hwf, R, h1, h2⟩ := change_spec (f := fun e : LexhashEntry => { e with freq := e.freq + 1 }) h.wf hs rfl
    have hins : inserted (ops ++ [.add s]) = inserted ops := by
      rw [inserted_snoc]
      simp [h0]
    refine ⟨_, rfl, hwf, ?_, by rw [hins]; exact h.next_eq, ?_⟩
    · rw [h.entries_eq, h1.length_eq, h2.length_eq]
      rfl
    · intro t
      have hlook := lookup_change (f := fun e : LexhashEntry => { e with freq := e.freq + 1 }) h.wf hs rfl t
      rw [clLexhashFind, hlook, addsSinceDel_add, hins]
      by_cases hst : t = s
      · subst hst
        simp
      · rw [if_neg hst, if_neg (Ne.symm hst)]
        exact h.find_eq t

theorem inv_del (h : LexhashInv ops hash) (s : List UInt8) :
    LexhashInv (ops ++ [.del s]) (clLexhashDel hash s).2 := by
  have hs := h.find_eq s
  have hins : inserted (ops ++ [.del s]) = inserted ops := by
    rw [inserted_snoc]
    simp
  unfold clLexhashDel
  by_cases h0 : addsSinceDel ops s = 0
  · rw [if_pos h0] at hs
    rw [hs]
    refine ⟨h.wf, h.entries_eq, by rw [hins]; exact h.next_eq, fun t => ?_⟩
    rw [hins, addsSinceDel_del, h.find_eq t]
    by_cases hst : s = t
    · rw [if_pos hst, ← hst, if_pos h0, if_pos rfl]
    · rw [if_neg hst]
  · rw [if_neg h0] at hs
    rw [hs]
    obtain ⟨hwf, hperm⟩ := remove_spec h.wf hs
    refine ⟨hwf, ?_, by rw [hins]; exact h.next_eq, fun t => ?_⟩
    · have := hperm.length_eq
      rw [length_cons] at this
      simp only
      rw [h.entries_eq, this]
      rfl
    · rw [clLexhashFind, lookup_remove h.wf hs t, hins, addsSinceDel_del]
      by_cases hst : t = s
      · rw [if_pos hst, if_pos hst.symm, if_pos rfl]
      · rw [if_neg hst, if_neg (Ne.symm hst)]
        exact h.find_eq t

theorem inv_query {o : LexhashOp} (ho : o.isQuery = true)
    (h : LexhashInv ops hash) : LexhashInv (ops ++ [o]) hash := by
  have hins : inserted (ops ++ [o]) = inserted ops := by
    rw [inserted_snoc]
    cases o <;> simp_all [LexhashOp.isQuery]
  refine ⟨h.wf, h.entries_eq, by rw [hins]; exact h.next_eq, fun s => ?_⟩
  rw [addsSinceDel_query ho, hins]
  exact h.find_eq s

theorem inv_step (fill : FillRate) (h : LexhashInv ops hash) (o : LexhashOp) :
    ∃ hash', lexhashStep fill hash o = some hash' ∧ LexhashInv (ops ++ [o]) hash' := by
  cases o with
  | add s => exact inv_add fill h s
  | del s => exact ⟨_, rfl, inv_del h s⟩
  | find s | id s | freq s => exact ⟨hash, rfl, inv_query rfl h⟩
  | autoGrow flag =>
    obtain ⟨hwf, hent, hnext, hfind⟩ := inv_query (o := .autoGrow flag) rfl h
    exact ⟨_, rfl, hwf, hent, hnext, hfind⟩

theorem inv_run (fill : FillRate) (buckets : ℤ) (ops : List LexhashOp) :
    ∃ hash, lexhashRun fill (clNewLexhash buckets) ops = some hash ∧ LexhashInv ops hash := by
  induction ops using reverseRecOn with
  | nil => exact ⟨_, rfl, inv_new buckets⟩
  | append_singleton ops o ih =>
    obtain ⟨hash, hrun, hinv⟩ := ih
    obtain ⟨hash', hstep, hinv'⟩ := inv_step fill hinv o
    refine ⟨hash', ?_, hinv'⟩
    rw [lexhashRun] at hrun ⊢
    rw [foldlM_append, hrun]
    simp [hstep]

/-! The iterator. -/

/-- What the iterator has still to return when it stands before bucket `b`. -/
def Lexhash.remaining (hash : Lexhash) (b : ℕ) : List LexhashEntry := hash.iterPoint ++ (hash.table.drop b).flatten

theorem iteratorNext_spec (fuel b : ℕ) (hash : Lexhash) (hb : hash.iterBucket = b - 1)
    (hfuel : hash.table.length - b + 1 < fuel) :
    match hash.remaining b with
    | [] => (clLexhashIteratorNext fuel hash).1 = none
    | e :: rest => ∃ hash' b', clLexhashIteratorNext fuel hash = (some e, hash') ∧ hash'.table = hash.table ∧
        hash'.iterBucket = (b' : ℕ) - 1 ∧ hash'.remaining b' = rest := by
  induction fuel generalizing b hash with
  | zero => omega
  | succ fuel ih =>
    unfold clLexhashIteratorNext Lexhash.remaining
    cases hpt : hash.iterPoint with
    | cons e rest => exact ⟨{ hash with iterPoint := rest }, b, rfl, rfl, hb, rfl⟩
    | nil =>
      have hnext : hash.iterBucket + 1 = b := by omega
      simp only [hnext, nil_append]
      by_cases hend : (b : ℤ) ≥ hash.table.length
      · rw [if_pos hend, drop_eq_nil_of_le (by omega)]
        rfl
      · have hlt : b < hash.table.length := by omega
        have hih := ih (b + 1) { hash with iterBucket := b, iterPoint := hash.table.getD b [] }
          (by simp) (by simp only; omega)
        have hdrop : (hash.table.drop b).flatten = hash.table.getD b [] ++ (hash.table.drop (b + 1)).flatten := by
          rw [drop_eq_getElem_cons hlt, flatten_cons, getD_eq_getElem _ _ hlt]
        rw [if_neg hend, Int.toNat_natCast, hdrop]
        exact hih

theorem iteratorRun_eq (fuel b : ℕ) (hash : Lexhash) (hb : hash.iterBucket = b - 1)
    (hfuel : (hash.remaining b).length < fuel) : iteratorRun fuel hash = hash.remaining b := by
  induction fuel generalizing b hash with
  | zero => omega
  | succ fuel ih =>
    have hnext := iteratorNext_spec (hash.table.length + 2) b hash hb (by omega)
    unfold iteratorRun
    cases hrem : hash.remaining b with
    | nil =>
      rw [hrem] at hnext
      rcases h : clLexhashIteratorNext (hash.table.length + 2) hash with ⟨r, hash'⟩
      rw [h] at hnext
      simp only at hnext
      subst hnext
      rfl
    | cons e rest =>
      rw [hrem] at hnext hfuel
      obtain ⟨hash', b', heq, -, hb', hrest⟩ := hnext
      rw [heq]
      simp only
      rw [ih b' hash' hb' (by rw [hrest]; simpa using hfuel), hrest]

theorem iteratorRun_reset (hash : Lexhash) :
    iteratorRun (hash.table.flatten.length + 1) (clLexhashIteratorReset hash) = hash.table.flatten := by
  have h := iteratorRun_eq (hash.table.flatten.length + 1) 0 (clLexhashIteratorReset hash) rfl
    (by simp [Lexhash.remaining, clLexhashIteratorReset])
  rw [h]
  simp [Lexhash.remaining, clLexhashIteratorReset]

theorem size_eq (h : LexhashInv ops hash) :
    clLexhashSize hash = {s | 0 < addsSinceDel ops s}.ncard := by
  rw [clLexhashSize, h.entries_eq, length_flatten h.wf]
  congr 1
  ext s
  have hs := h.find_eq s
  rw [clLexhashFind] at hs
  rw [Set.mem_ofPred_eq, Set.mem_ofPred_eq, hs]
  by_cases h0 : addsSinceDel ops s = 0
  · simp [h0]
  · simp [h0, Nat.pos_of_ne_zero h0]

end CWB

/-! The n-gram hash as a finite map from tuples to frequencies modulo `2 ^ 32`. The only
way to abort it is to add a tuple to a table that is at its capacity. -/

namespace CWB

open ChainedTable

variable {N : ℕ}

/-- The frequencies added for a tuple since its last deletion. -/
def addedSinceDel (ops : List (NgramHashOp N)) (t : Vector UInt32 N) : List UInt32 :=
  (ops.reverse.takeWhile fun o => decide (o ≠ .del t)).filterMap fun o =>
    match o with
    | .add t' f => if t' = t then some f else none
    | _ => none

theorem addedSinceDel_add (ops : List (NgramHashOp N)) (t t' : Vector UInt32 N) (f : UInt32) :
    addedSinceDel (ops ++ [.add t' f]) t = if t' = t then f :: addedSinceDel ops t else addedSinceDel ops t := by
  simp only [addedSinceDel, List.reverse_append, List.reverse_singleton, List.singleton_append]
  rw [List.takeWhile_cons_of_pos (by simp)]
  by_cases h : t' = t <;> simp [h]

theorem addedSinceDel_del (ops : List (NgramHashOp N)) (t t' : Vector UInt32 N) :
    addedSinceDel (ops ++ [.del t']) t = if t' = t then [] else addedSinceDel ops t := by
  simp only [addedSinceDel, List.reverse_append, List.reverse_singleton, List.singleton_append]
  by_cases h : t' = t
  · rw [List.takeWhile_cons_of_neg (by simp [h]), if_pos h]
    rfl
  · rw [List.takeWhile_cons_of_pos (by simp [h]), if_neg h]
    rfl

def NgramHashOp.isQuery : NgramHashOp N → Bool
  | .add _ _ | .del _ => false
  | _ => true

theorem addedSinceDel_query {o : NgramHashOp N} (ho : o.isQuery = true) (ops : List (NgramHashOp N))
    (t : Vector UInt32 N) : addedSinceDel (ops ++ [o]) t = addedSinceDel ops t := by
  simp only [addedSinceDel, List.reverse_append, List.reverse_singleton, List.singleton_append]
  cases o with
  | add t' f => exact absurd ho (by simp [NgramHashOp.isQuery])
  | del t' => exact absurd ho (by simp [NgramHashOp.isQuery])
  | find t' | freq t' | autoGrow flag => rfl

/-- The tuples that are present. -/
def presentTuples (ops : List (NgramHashOp N)) : Set (Vector UInt32 N) := {t | addedSinceDel ops t ≠ []}

structure NgramHashInv (ops : List (NgramHashOp N)) (hash : NgramHash N) : Prop where
  wf : Chained NgramHashEntry.ngram hashNgram hash.table
  entries_eq : hash.entries = hash.table.flatten.length
  find_eq : ∀ t, clNgramHashFind hash t =
    if addedSinceDel ops t = [] then none else some ⟨t, (addedSinceDel ops t).sum⟩

variable {ops : List (NgramHashOp N)} {hash : NgramHash N}

theorem NgramHashInv.size_eq (h : NgramHashInv ops hash) :
    clNgramHashSize hash = (presentTuples ops).ncard := by
  rw [clNgramHashSize, h.entries_eq, length_flatten h.wf]
  congr 1
  ext t
  have ht := h.find_eq t
  rw [clNgramHashFind] at ht
  rw [presentTuples, Set.mem_ofPred_eq, Set.mem_ofPred_eq, ht]
  by_cases h0 : addedSinceDel ops t = [] <;> simp [h0]

theorem ngramInv_new (buckets : ℤ) : NgramHashInv [] (clNewNgramHash N buckets) := by
  have hwf : Chained NgramHashEntry.ngram hashNgram (clNewNgramHash N buckets).table :=
    chained_empty (nrOfBuckets_pos buckets)
  refine ⟨hwf, by simp [clNewNgramHash], fun t => ?_⟩
  exact (lookup_eq_none_iff hwf).mpr (by simp [clNewNgramHash])

theorem ngramInv_grow (fill : FillRate) (h : NgramHashInv ops hash) :
    ∃ hash', clNgramHashCheckGrow fill hash = some hash' ∧ NgramHashInv ops hash' ∧
      hash'.table.flatten.Perm hash.table.flatten := by
  obtain ⟨table, autoGrow, heq, hwf, hperm⟩ := checkGrow_spec fill hash.autoGrow h.wf h.entries_eq
  refine ⟨{ hash with table := table, autoGrow := autoGrow }, by simp [clNgramHashCheckGrow, heq], ?_, hperm⟩
  refine ⟨hwf, by rw [h.entries_eq]; exact hperm.length_eq.symm, fun t => ?_⟩
  rw [← h.find_eq t, clNgramHashFind, lookup_of_perm h.wf hwf hperm]
  rfl

/-- An add fails only when the table is full. -/
theorem ngramInv_add (fill : FillRate) (h : NgramHashInv ops hash)
    (hcap : (presentTuples ops).ncard < MAX_ENTRIES) (t : Vector UInt32 N) (f : UInt32) :
    ∃ hash', clNgramHashAdd fill hash t f = some hash' ∧ NgramHashInv (ops ++ [.add t f]) hash' := by
  have ht := h.find_eq t
  unfold clNgramHashAdd
  by_cases h0 : addedSinceDel ops t = []
  · rw [if_pos h0] at ht
    rw [ht]
    obtain ⟨hwf, hperm⟩ := append_spec (e := (⟨t, f⟩ : NgramHashEntry N)) h.wf ((lookup_eq_none_iff h.wf).mp ht)
    have hinv : NgramHashInv (ops ++ [.add t f]) { hash with
        table := hash.table.modify (slot hashNgram hash.table t) (· ++ [⟨t, f⟩]), entries := hash.entries + 1 } := by
      refine ⟨hwf, by rw [h.entries_eq]; exact hperm.length_eq.symm, fun u => ?_⟩
      have hlook := lookup_append (e := (⟨t, f⟩ : NgramHashEntry N)) h.wf ht u
      rw [clNgramHashFind, hlook, addedSinceDel_add]
      by_cases hut : u = t
      · subst hut
        simp [h0]
      · rw [if_neg hut, if_neg (Ne.symm hut)]
        exact h.find_eq u
    have hroom : hash.entries < MAX_ENTRIES := by
      rw [← h.size_eq] at hcap
      exact hcap
    simp only [if_pos hroom]
    split_ifs
    · obtain ⟨hash', hgrow, hinv', -⟩ := ngramInv_grow fill hinv
      exact ⟨hash', hgrow, hinv'⟩
    · exact ⟨_, rfl, hinv⟩
  · rw [if_neg h0] at ht
    rw [ht]
    obtain ⟨hwf, R, h1, h2⟩ := change_spec (f := fun e : NgramHashEntry N => { e with freq := e.freq + f }) h.wf ht rfl
    refine ⟨_, rfl, hwf, ?_, fun u => ?_⟩
    · rw [h.entries_eq, h1.length_eq, h2.length_eq]
      rfl
    · have hlook := lookup_change (f := fun e : NgramHashEntry N => { e with freq := e.freq + f }) h.wf ht rfl u
      rw [clNgramHashFind, hlook, addedSinceDel_add]
      by_cases hut : u = t
      · subst hut
        simp [List.sum_cons, UInt32.add_comm]
      · rw [if_neg hut, if_neg (Ne.symm hut)]
        exact h.find_eq u

theorem ngramInv_del (h : NgramHashInv ops hash)
    (t : Vector UInt32 N) : NgramHashInv (ops ++ [.del t]) (clNgramHashDel hash t).2 := by
  have ht := h.find_eq t
  unfold clNgramHashDel
  by_cases h0 : addedSinceDel ops t = []
  · rw [if_pos h0] at ht
    rw [ht]
    refine ⟨h.wf, h.entries_eq, fun u => ?_⟩
    rw [addedSinceDel_del, h.find_eq u]
    by_cases htu : t = u
    · rw [if_pos htu, ← htu, if_pos h0, if_pos rfl]
    · rw [if_neg htu]
  · rw [if_neg h0] at ht
    rw [ht]
    obtain ⟨hwf, hperm⟩ := remove_spec h.wf ht
    refine ⟨hwf, ?_, fun u => ?_⟩
    · have := hperm.length_eq
      rw [List.length_cons] at this
      simp only
      rw [h.entries_eq, this]
      rfl
    · rw [clNgramHashFind, lookup_remove h.wf ht u, addedSinceDel_del]
      by_cases hut : u = t
      · rw [if_pos hut, if_pos hut.symm, if_pos rfl]
      · rw [if_neg hut, if_neg (Ne.symm hut)]
        exact h.find_eq u

theorem ngramInv_query {o : NgramHashOp N} (ho : o.isQuery = true)
    (h : NgramHashInv ops hash) : NgramHashInv (ops ++ [o]) hash := by
  refine ⟨h.wf, h.entries_eq, fun t => ?_⟩
  rw [addedSinceDel_query ho]
  exact h.find_eq t

theorem ngramInv_step (fill : FillRate) (h : NgramHashInv ops hash)
    (hcap : (presentTuples ops).ncard < MAX_ENTRIES) (o : NgramHashOp N) :
    ∃ hash', ngramHashStep fill hash o = some hash' ∧ NgramHashInv (ops ++ [o]) hash' := by
  cases o with
  | add t f => exact ngramInv_add fill h hcap t f
  | del t => exact ⟨_, rfl, ngramInv_del h t⟩
  | find t | freq t => exact ⟨hash, rfl, ngramInv_query rfl h⟩
  | autoGrow flag =>
    obtain ⟨hwf, hent, hfind⟩ := ngramInv_query (o := .autoGrow flag) rfl h
    exact ⟨_, rfl, hwf, hent, hfind⟩

theorem ngramInv_run (fill : FillRate) (buckets : ℤ) (ops : List (NgramHashOp N))
    (hcap : ∀ pre, pre <+: ops → pre ≠ ops → (presentTuples pre).ncard < MAX_ENTRIES) :
    ∃ hash, ngramHashRun fill (clNewNgramHash N buckets) ops = some hash ∧ NgramHashInv ops hash := by
  induction ops using List.reverseRecOn with
  | nil => exact ⟨_, rfl, ngramInv_new buckets⟩
  | append_singleton ops o ih =>
    obtain ⟨hash, hrun, hinv⟩ := ih fun pre hpre hne =>
      hcap pre (hpre.trans (List.prefix_append _ _)) fun heq => by
        have := hpre.length_le
        rw [heq, List.length_append, List.length_singleton] at this
        omega
    obtain ⟨hash', hstep, hinv'⟩ := ngramInv_step fill hinv
      (hcap ops (List.prefix_append _ _) (by simp)) o
    refine ⟨hash', ?_, hinv'⟩
    rw [ngramHashRun] at hrun ⊢
    rw [List.foldlM_append, hrun]
    simp [hstep]

/-! A table that is only added to. -/

section Additions

variable {α : Type*} (key : α → Vector UInt32 N) (f : α → UInt32) (L : List α)

theorem addedSinceDel_map_add (t : Vector UInt32 N) :
    addedSinceDel (L.map fun x => .add (key x) (f x)) t = ((L.filter fun x => key x = t).reverse).map f := by
  induction L using List.reverseRecOn with
  | nil => rfl
  | append_singleton L x ih =>
    rw [List.map_append, List.map_singleton, addedSinceDel_add, ih, List.filter_append]
    split_ifs with heq
    · simp [heq]
    · simp [heq]

theorem addedSinceDel_map_add_eq_nil (t : Vector UInt32 N) :
    addedSinceDel (L.map fun x => .add (key x) (f x)) t = [] ↔ ∀ x ∈ L, key x ≠ t := by
  rw [addedSinceDel_map_add, List.map_eq_nil_iff, List.reverse_eq_nil_iff, List.filter_eq_nil_iff]
  simp

theorem presentTuples_map_add_le : (presentTuples (L.map fun x => .add (key x) (f x))).ncard ≤ L.length := by
  have hset : presentTuples (L.map fun x => .add (key x) (f x)) = ↑(L.map key).toFinset := by
    ext t
    rw [presentTuples, Set.mem_ofPred_eq, Ne, addedSinceDel_map_add_eq_nil]
    simp
  rw [hset, Set.ncard_coe_finset]
  exact (List.toFinset_card_le _).trans (List.length_map _).le

variable {key f L}

theorem NgramHashInv.mem_table (h : NgramHashInv (L.map fun x => .add (key x) (f x)) hash)
    (e : NgramHashEntry N) : e ∈ hash.table.flatten ↔
      (∃ x ∈ L, key x = e.ngram) ∧ e.freq = (addedSinceDel (L.map fun x => .add (key x) (f x)) e.ngram).sum := by
  have hfind : e ∈ hash.table.flatten ↔ clNgramHashFind hash e.ngram = some e := by
    rw [clNgramHashFind, ChainedTable.lookup_eq_some_iff h.wf]
    exact ⟨fun he => ⟨he, rfl⟩, fun he => he.1⟩
  rw [hfind, h.find_eq]
  split_ifs with hnil
  · have hnone := (addedSinceDel_map_add_eq_nil key f L e.ngram).mp hnil
    simp only [false_iff, not_and]
    intro hex
    obtain ⟨x, hx, heq⟩ := hex
    exact absurd heq (hnone x hx)
  · have hex : ∃ x ∈ L, key x = e.ngram := by
      by_contra hno
      push Not at hno
      exact hnil ((addedSinceDel_map_add_eq_nil key f L e.ngram).mpr hno)
    simp only [hex, true_and, Option.some.injEq]
    refine ⟨fun heq => ?_, fun heq => ?_⟩
    · rw [← heq]
    · rw [← heq]

end Additions

/-! The array of all entries. -/

theorem copyBucket_eq {size : ℕ} (result bucket : List (NgramHashEntry N)) (h : result.length + bucket.length ≤ size) :
    copyBucket size result bucket = some (result ++ bucket) := by
  induction bucket generalizing result with
  | nil => simp [copyBucket]
  | cons e bucket ih =>
    rw [List.length_cons] at h
    have hih := ih (result ++ [e]) (by rw [List.length_append, List.length_singleton]; omega)
    rw [copyBucket, List.foldlM_cons, if_pos (by omega)]
    rw [copyBucket] at hih
    simpa using hih

theorem foldlM_copyBucket {size : ℕ} (table : List (List (NgramHashEntry N))) (result : List (NgramHashEntry N))
    (h : result.length + table.flatten.length ≤ size) :
    table.foldlM (copyBucket size) result = some (result ++ table.flatten) := by
  induction table generalizing result with
  | nil => simp
  | cons bucket table ih =>
    rw [List.flatten_cons, List.length_append] at h
    rw [List.foldlM_cons, copyBucket_eq result bucket (by omega)]
    have hih := ih (result ++ bucket) (by rw [List.length_append]; omega)
    simpa using hih

theorem getEntries_eq (h : NgramHashInv ops hash) :
    clNgramHashGetEntries hash = some (hash.table.flatten, hash.entries) := by
  unfold clNgramHashGetEntries
  rw [foldlM_copyBucket hash.table [] (by rw [h.entries_eq]; simp)]
  simp [h.entries_eq]

/-- After any calls on a new n-gram hash, whenever it was made to grow. The calls abort
only at an add when `MAX_ENTRIES` tuples are present already. -/
theorem ngramHash_refines_map (fill : FillRate) (buckets : ℤ) (ops : List (NgramHashOp N)) :
    (∃ pre, pre <+: ops ∧ pre ≠ ops ∧ MAX_ENTRIES ≤ (presentTuples pre).ncard) ∨
    ∃ hash, ngramHashRun fill (clNewNgramHash N buckets) ops = some hash ∧
      (∀ t, clNgramHashFind hash t =
        if addedSinceDel ops t = [] then none else some ⟨t, (addedSinceDel ops t).sum⟩) ∧
      (∀ t, (clNgramHashFreq hash t).toNat = ((addedSinceDel ops t).map UInt32.toNat).sum % 2 ^ 32) ∧
      clNgramHashSize hash = (presentTuples ops).ncard ∧
      (∀ i bucket, hash.table[i]? = some bucket → ∀ e ∈ bucket, hashNgram e.ngram % hash.table.length = i) ∧
      (∃ hash', clNgramHashCheckGrow fill hash = some hash' ∧ hash'.table.flatten.Perm hash.table.flatten) ∧
      ∃ result, clNgramHashGetEntries hash = some (result, result.length) ∧
        result.length = (presentTuples ops).ncard ∧ (result.map NgramHashEntry.ngram).Nodup ∧
        ∀ e, e ∈ result ↔ clNgramHashFind hash e.ngram = some e := by
  by_cases hcap : ∃ pre, pre <+: ops ∧ pre ≠ ops ∧ MAX_ENTRIES ≤ (presentTuples pre).ncard
  · exact .inl hcap
  right
  push Not at hcap
  obtain ⟨hash, hrun, h⟩ := ngramInv_run fill buckets ops hcap
  obtain ⟨hash', hgrow, -, hperm⟩ := ngramInv_grow fill h
  have hsum : ∀ fs : List UInt32, fs.sum.toNat = (fs.map UInt32.toNat).sum % 2 ^ 32 := by
    intro fs
    induction fs with
    | nil => rfl
    | cons f fs ih => rw [List.sum_cons, UInt32.toNat_add, ih, List.map_cons, List.sum_cons, Nat.add_mod_mod]
  refine ⟨hash, hrun, h.find_eq, ?_, h.size_eq, h.wf.placed, ⟨hash', hgrow, hperm⟩, hash.table.flatten, ?_, ?_,
    h.wf.nodup, ?_⟩
  · intro t
    rw [← hsum, clNgramHashFreq, h.find_eq t]
    by_cases h0 : addedSinceDel ops t = [] <;> simp [h0]
  · rw [getEntries_eq h, h.entries_eq]
  · rw [← h.size_eq, clNgramHashSize, h.entries_eq]
  · intro e
    rw [clNgramHashFind, lookup_eq_some_iff h.wf]
    exact ⟨fun he => ⟨he, rfl⟩, fun he => he.1⟩

end CWB
