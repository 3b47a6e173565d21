import CWB.Library.Traverse
import CWB.Proofs.Lexhash
import CWB.Sanity.ScanCorpus

/-! The frequency distribution of `cwb-scan-corpus`. The scan counts every position of the ranges
that all keys accept, and accepts the positions that meet all constraints but for those it loses to
an empty list of IDs or to the filter of `-C`. -/

namespace CWB

open Finset Traverse

variable {c : ScanCorpus} {checkWords : Bool} {keys : List ScanKey} {cpos : ℤ}

/-! ## One position -/

def acceptsAll (c : ScanCorpus) (checkWords : Bool) (keys : List ScanKey) (cpos : ℤ) : Bool :=
  keys.all fun key => key.accepts c checkWords cpos

def keyIds (keys : List ScanKey) (cpos : ℤ) : List ℤ := (tupleKeys keys).map fun key => key.idAt cpos

/-- What the loop over the keys finds at a position. -/
structure TupleScanned (c : ScanCorpus) (checkWords : Bool) (keys : List (ScanKey × RegionCursor)) (cpos nextCpos : ℤ)
    (accept : Bool) (r : TupleScan) : Prop where
  keys_eq : r.keys.map Prod.fst = keys.map Prod.fst
  ready : ∀ p ∈ r.keys, p.1.Ready c checkWords cpos p.2
  next_ge : nextCpos ≤ r.nextCpos
  rejected : ∀ q, cpos < q → q < r.nextCpos → q < nextCpos ∨ acceptsAll c checkWords (keys.map Prod.fst) q = false
  accept_eq : r.accept = (accept && acceptsAll c checkWords (keys.map Prod.fst) cpos)
  tuple_eq : r.accept = true → r.tuple = keyIds (keys.map Prod.fst) cpos

theorem scanKeys_spec (h0 : 0 ≤ cpos) {ks : List (ScanKey × RegionCursor)}
    (hks : ∀ p ∈ ks, p.1.Prepared c checkWords ∧ p.1.Ready c checkWords cpos p.2 ∧ cpos + p.1.offset < c.size)
    (nextCpos : ℤ) (accept : Bool) :
    TupleScanned c checkWords ks cpos nextCpos accept (scanKeys c checkWords cpos ks nextCpos accept) := by
  induction ks generalizing nextCpos accept with
  | nil =>
    exact ⟨rfl, fun _ hp => (List.not_mem_nil hp).elim, le_rfl, fun q _ hq => .inl hq, (Bool.and_true accept).symm, fun _ => rfl⟩
  | cons p ks ih =>
    obtain ⟨key, cursor⟩ := p
    obtain ⟨hprep, hready, hsize⟩ := hks (key, cursor) List.mem_cons_self
    have ih := ih fun p hp => hks p (List.mem_cons_of_mem _ hp)
    have hall : ∀ q, acceptsAll c checkWords (((key, cursor) :: ks).map Prod.fst) q =
        (key.accepts c checkWords q && acceptsAll c checkWords (ks.map Prod.fst) q) := fun _ => rfl
    cases accept with
    | false =>
      obtain ⟨hkeys, hr, hnext, hrej, hacc, -⟩ := ih nextCpos false
      rw [scanKeys, if_neg Bool.false_ne_true]
      refine ⟨by simpa using hkeys, fun p hp => ?_, hnext, fun q hq hlt => ?_, by simpa using hacc, fun ht => ?_⟩
      · obtain heq | hp := List.mem_cons.mp hp
        · rw [heq]
          exact hready
        · exact hr p hp
      · obtain hlt | hfalse := hrej q hq hlt
        · exact .inl hlt
        · exact .inr (by rw [hall, hfalse, Bool.and_false])
      · rw [hacc, Bool.false_and] at ht
        cases ht
    | true =>
      have hscan := ScanKey.scan_spec hprep hready h0 hsize nextCpos
      rw [scanKeys, if_pos rfl]
      generalize key.scan c checkWords cursor cpos nextCpos = r at hscan
      obtain ⟨cursor', nextCpos', id, accept'⟩ := r
      obtain ⟨hready', hnext', hrej', hresult⟩ := hscan
      obtain ⟨rfl, rfl⟩ := Prod.mk.inj hresult
      obtain ⟨hkeys, hr, hnext, hrej, hacc, htuple⟩ := ih nextCpos' (key.accepts c checkWords cpos)
      refine ⟨by simpa using hkeys, fun p hp => ?_, hnext'.trans hnext, fun q hq hlt => ?_, ?_, fun ht => ?_⟩
      · obtain heq | hp := List.mem_cons.mp hp
        · rw [heq]
          exact hready'
        · exact hr p hp
      · obtain hlt | hfalse := hrej q hq hlt
        · obtain hlt | hfalse := hrej' q hq hlt
          · exact .inl hlt
          · exact .inr (by rw [hall, hfalse, Bool.false_and])
        · exact .inr (by rw [hall, hfalse, Bool.and_false])
      · rw [hall, Bool.true_and]
        exact hacc
      · have htail := htuple ht
        simp only [htail, keyIds, tupleKeys, List.map_cons]
        cases hc : key.isConstraint with
        | true => rw [if_pos rfl, List.filter_cons_of_neg (by simp [hc])]
        | false => rw [if_neg Bool.false_ne_true, List.filter_cons_of_pos (by simp [hc]), List.map_cons]

theorem offset_le_maxOffset {key : ScanKey} (h : key ∈ keys) : key.offset ≤ maxOffset keys := by
  have hfold : ∀ (l : List ScanKey) (m : ℕ), m ≤ l.foldl (fun m key => max m key.offset) m ∧
      ∀ key ∈ l, key.offset ≤ l.foldl (fun m key => max m key.offset) m := by
    intro l
    induction l with
    | nil => exact fun m => ⟨le_rfl, fun _ hk => by cases hk⟩
    | cons k l ih =>
      intro m
      obtain ⟨hle, hall⟩ := ih (max m k.offset)
      refine ⟨(le_max_left _ _).trans hle, fun key hkey => ?_⟩
      obtain heq | hkey := List.mem_cons.mp hkey
      · rw [heq]
        exact (le_max_right _ _).trans hle
      · exact hall key hkey
  exact (hfold keys 0).2 key h

/-- The round at a position without jumps: the regions of all keys are looked up from scratch. -/
def plainPosition (c : ScanCorpus) (checkWords : Bool) (fill : FillRate) (frequencies : FrequencyValues)
    (keys : List ScanKey) {K : ℕ} (table : NgramHash K) (cpos : ℤ) : Option (NgramHash K) :=
  if acceptsAll c checkWords keys cpos then
    clNgramHashAdd fill table (ngramOf K (keyIds keys cpos)) (Int32.ofInt (frequencies.frequencyAt cpos)).toUInt32
  else some table

/-- The keys and their regions when the positions from `cpos` on are still to be scanned. -/
structure KeysReady (c : ScanCorpus) (checkWords : Bool) (keys : List ScanKey) (cpos : ℤ)
    (ks : List (ScanKey × RegionCursor)) : Prop where
  keys_eq : ks.map Prod.fst = keys
  ready : ∀ p ∈ ks, p.1.Ready c checkWords cpos p.2

theorem KeysReady.mono {cpos' : ℤ} {ks : List (ScanKey × RegionCursor)} (h : KeysReady c checkWords keys cpos ks)
    (hle : cpos ≤ cpos') : KeysReady c checkWords keys cpos' ks :=
  ⟨h.keys_eq, fun p hp => (h.ready p hp).mono hle⟩

/-- A round of the scan does what the plain round does, and jumps over positions only that are not
accepted. -/
theorem scanPosition_plain (fill : FillRate) (frequencies : FrequencyValues) {K : ℕ} {st : ScanState K}
    (hprep : ∀ key ∈ keys, key.Prepared c checkWords) (h : KeysReady c checkWords keys cpos st.keys) (h0 : 0 ≤ cpos)
    (hsize : cpos + maxOffset keys < c.size) :
    ∃ keys' nextCpos, scanPosition c checkWords fill frequencies st cpos =
        (plainPosition c checkWords fill frequencies keys st.table cpos).map (fun table => (⟨keys', table⟩, nextCpos)) ∧
      cpos < nextCpos ∧ (∀ q, cpos < q → q < nextCpos → acceptsAll c checkWords keys q = false) ∧
      KeysReady c checkWords keys (cpos + 1) keys' := by
  have hall : ∀ p ∈ st.keys, p.1.Prepared c checkWords ∧ p.1.Ready c checkWords cpos p.2 ∧ cpos + p.1.offset < c.size := by
    intro p hp
    have hmem : p.1 ∈ keys := h.keys_eq ▸ List.mem_map_of_mem hp
    have hoff := offset_le_maxOffset hmem
    exact ⟨hprep _ hmem, h.ready p hp, by omega⟩
  have hscan := scanKeys_spec h0 hall (cpos + 1) true
  rw [scanPosition]
  generalize scanKeys c checkWords cpos st.keys (cpos + 1) true = r at hscan
  obtain ⟨hkeys, hready, hnext, hrej, hacc, htuple⟩ := hscan
  rw [h.keys_eq] at hkeys hrej hacc htuple
  rw [Bool.true_and] at hacc
  refine ⟨r.keys, r.nextCpos, ?_, by omega, fun q hq hlt => ?_, hkeys, fun p hp => (hready p hp).mono (by omega)⟩
  · rw [plainPosition]
    cases haccept : acceptsAll c checkWords keys cpos with
    | false =>
      rw [haccept] at hacc
      rw [hacc]
      rfl
    | true =>
      rw [haccept] at hacc
      rw [hacc, htuple hacc, if_pos rfl, if_pos rfl, Option.map_eq_bind]
      rfl
  · obtain hlt | hfalse := hrej q hq hlt
    · omega
    · exact hfalse

/-! ## The scan loop -/

section Loop

variable {fill : FillRate} {frequencies : FrequencyValues} {K : ℕ} {st : ScanState K} {L : List ℕ}

def ngramAt (keys : List ScanKey) (K : ℕ) (p : ℕ) : Vector UInt32 K := ngramOf K (keyIds keys p)

/-- The frequency of a position as it is added to the table. -/
def addedFrequency (frequencies : FrequencyValues) (p : ℕ) : UInt32 := (Int32.ofInt (frequencies.frequencyAt p)).toUInt32

/-- The additions to the table for these positions. -/
def additions (keys : List ScanKey) (frequencies : FrequencyValues) (K : ℕ) (L : List ℕ) : List (NgramHashOp K) :=
  L.map fun p => .add (ngramAt keys K p) (addedFrequency frequencies p)

theorem addedSinceDel_additions (keys : List ScanKey) (frequencies : FrequencyValues) (L : List ℕ) (t : Vector UInt32 K) :
    addedSinceDel (additions keys frequencies K L) t =
      ((L.filter fun p => ngramAt keys K p = t).reverse).map (addedFrequency frequencies) :=
  addedSinceDel_map_add (ngramAt keys K) (addedFrequency frequencies) L t

theorem presentTuples_additions_le (keys : List ScanKey) (frequencies : FrequencyValues) (L : List ℕ) :
    (presentTuples (additions keys frequencies K L)).ncard ≤ L.length :=
  presentTuples_map_add_le (ngramAt keys K) (addedFrequency frequencies) L

/-- The state when the positions from `cpos` on are still to be scanned; those of `L` have been
counted. -/
structure Scanning (c : ScanCorpus) (checkWords : Bool) (keys : List ScanKey) (frequencies : FrequencyValues) (cpos : ℤ)
    (L : List ℕ) (st : ScanState K) : Prop where
  keys_eq : st.keys.map Prod.fst = keys
  ready : ∀ p ∈ st.keys, p.1.Ready c checkWords cpos p.2
  table : NgramHashInv (additions keys frequencies K L) st.table
  length_le : (L.length : ℤ) ≤ cpos

theorem Scanning.mono {cpos' : ℤ} (h : Scanning c checkWords keys frequencies cpos L st) (hle : cpos ≤ cpos') :
    Scanning c checkWords keys frequencies cpos' L st :=
  ⟨h.keys_eq, fun p hp => (h.ready p hp).mono hle, h.table, h.length_le.trans hle⟩

variable (fill) in
theorem scanPosition_spec (hprep : ∀ key ∈ keys, key.Prepared c checkWords)
    (h : Scanning c checkWords keys frequencies cpos L st) (h0 : 0 ≤ cpos) (hsize : cpos + maxOffset keys < c.size) :
    ∃ st' nextCpos, scanPosition c checkWords fill frequencies st cpos = some (st', nextCpos) ∧ cpos < nextCpos ∧
      (∀ q, cpos < q → q < nextCpos → acceptsAll c checkWords keys q = false) ∧
      Scanning c checkWords keys frequencies (cpos + 1)
        (if acceptsAll c checkWords keys cpos then L ++ [cpos.toNat] else L) st' := by
  obtain ⟨keys', nextCpos, hpos, hlt, hskip, hready⟩ :=
    scanPosition_plain fill frequencies hprep ⟨h.keys_eq, h.ready⟩ h0 hsize
  rw [hpos, plainPosition]
  cases haccept : acceptsAll c checkWords keys cpos with
  | false => exact ⟨⟨keys', st.table⟩, nextCpos, rfl, hlt, hskip, hready.keys_eq, hready.ready, h.table, h.length_le.trans (by omega)⟩
  | true =>
    have hlen := h.length_le
    have hlt := c.size_lt
    have hcap : (presentTuples (additions keys frequencies K L)).ncard < MAX_ENTRIES := by
      refine (presentTuples_additions_le keys frequencies L).trans_lt ?_
      rw [MAX_ENTRIES]
      omega
    have hcast : ((cpos.toNat : ℕ) : ℤ) = cpos := Int.toNat_of_nonneg h0
    obtain ⟨table, hadd, hinv⟩ := ngramInv_add fill h.table hcap (ngramOf K (keyIds keys cpos))
      (Int32.ofInt (frequencies.frequencyAt cpos)).toUInt32
    rw [if_pos rfl, hadd]
    refine ⟨⟨keys', table⟩, nextCpos, rfl, by omega, hskip, hready.keys_eq, hready.ready, ?_, ?_⟩
    · rw [if_pos rfl, additions, List.map_append, List.map_singleton, ngramAt, addedFrequency, hcast]
      exact hinv
    · rw [if_pos rfl, List.length_append, List.length_singleton]
      push_cast
      omega

variable (fill) in
theorem scanLoop_spec (hprep : ∀ key ∈ keys, key.Prepared c checkWords) {last : ℤ} (hsize : last + maxOffset keys < c.size)
    {fuel : ℕ} (hfuel : (last + 1 - cpos).toNat ≤ fuel) {lo : ℤ} (h : Scanning c checkWords keys frequencies lo L st)
    (hlo : lo ≤ cpos) (h0 : 0 ≤ cpos) :
    ∃ st' M, scanLoop c checkWords fill frequencies fuel cpos last st = some st' ∧
      Scanning c checkWords keys frequencies (max lo (last + 1)) (L ++ M) st' ∧ M.Pairwise (· < ·) ∧
      ∀ p : ℕ, p ∈ M ↔ cpos ≤ p ∧ p ≤ last ∧ acceptsAll c checkWords keys p = true := by
  induction fuel generalizing cpos L st lo with
  | zero =>
    refine ⟨st, [], rfl, by simpa using h.mono (le_max_left _ _), List.Pairwise.nil, fun p => ?_⟩
    simp only [List.not_mem_nil, false_iff, not_and]
    omega
  | succ fuel ih =>
    rw [scanLoop]
    by_cases hend : cpos ≤ last
    · rw [if_pos hend]
      obtain ⟨st1, nextCpos, hpos, hlt, hskip, h1⟩ := scanPosition_spec fill hprep (h.mono hlo) h0 (by omega)
      obtain ⟨st', M, hloop, h', hasc, hmem⟩ := ih (show (last + 1 - nextCpos).toNat ≤ fuel by omega) h1 hlt (by omega)
      simp only [hpos, Option.bind_eq_bind, Option.bind_some, hloop]
      have hmax : max (cpos + 1) (last + 1) = max lo (last + 1) := by omega
      rw [hmax] at h'
      have hcast : ((cpos.toNat : ℕ) : ℤ) = cpos := Int.toNat_of_nonneg h0
      -- the positions that were jumped over are not accepted
      have hrest : ∀ p : ℕ, (cpos < p ∧ p ≤ last ∧ acceptsAll c checkWords keys p = true) ↔ p ∈ M := by
        intro p
        rw [hmem]
        refine ⟨fun hp => ⟨?_, hp.2⟩, fun hp => ⟨by omega, hp.2⟩⟩
        by_contra hnext
        have hfalse := hskip p hp.1 (by omega)
        rw [hp.2.2] at hfalse
        cases hfalse
      cases haccept : acceptsAll c checkWords keys cpos with
      | false =>
        rw [haccept] at h'
        refine ⟨st', M, rfl, h', hasc, fun p => ?_⟩
        rw [← hrest]
        refine ⟨fun hp => ⟨hp.1.le, hp.2⟩, fun hp => ⟨lt_of_le_of_ne hp.1 ?_, hp.2⟩⟩
        intro heq
        rw [← heq, haccept] at hp
        cases hp.2.2
      | true =>
        rw [haccept, if_pos rfl] at h'
        refine ⟨st', cpos.toNat :: M, rfl, by simpa using h', List.pairwise_cons.mpr ⟨fun p hp => ?_, hasc⟩, fun p => ?_⟩
        · have hp' := (hrest p).mpr hp
          omega
        · rw [List.mem_cons, ← hrest]
          constructor
          · intro hp
            obtain heq | hp := hp
            · rw [heq, hcast]
              exact ⟨le_rfl, hend, haccept⟩
            · exact ⟨hp.1.le, hp.2⟩
          · intro hp
            obtain heq | hlt := hp.1.eq_or_lt
            · left
              omega
            · exact .inr ⟨hlt, hp.2⟩
    · rw [if_neg hend]
      refine ⟨st, [], rfl, by simpa using h.mono (le_max_left _ _), List.Pairwise.nil, fun p => ?_⟩
      simp only [List.not_mem_nil, false_iff, not_and]
      omega

variable (fill) in
theorem scanRanges_spec (hprep : ∀ key ∈ keys, key.Prepared c checkWords) {ranges : List (ℤ × ℤ)}
    (hranges : Intervals.Ascending Prod.fst Prod.snd ranges) {previousEnd : ℤ} (hprev : -1 ≤ previousEnd)
    (hstart : ∀ r ∈ ranges, previousEnd < r.1) {lo : ℤ} (h : Scanning c checkWords keys frequencies lo L st)
    (hlo : lo ≤ previousEnd + 1) :
    ∃ st' lo' M, scanRanges c checkWords fill frequencies (maxOffset keys) previousEnd ranges st = some st' ∧
      Scanning c checkWords keys frequencies lo' (L ++ M) st' ∧ M.Pairwise (· < ·) ∧
      ∀ p : ℕ, p ∈ M ↔ (∃ r ∈ ranges, r.1 ≤ p ∧ p + maxOffset keys ≤ r.2) ∧ p + maxOffset keys < (c.size : ℤ) ∧
        acceptsAll c checkWords keys p = true := by
  induction ranges generalizing previousEnd L st lo with
  | nil => exact ⟨st, lo, [], rfl, by simpa using h, List.Pairwise.nil, fun p => by simp⟩
  | cons r ranges ih =>
    obtain ⟨startCpos, endCpos⟩ := r
    have hlt := hstart _ List.mem_cons_self
    have hle := hranges.nonempty _ List.mem_cons_self
    simp only at hlt hle
    rw [scanRanges, if_neg (by omega), if_neg (by omega)]
    have hlast : ∀ p : ℤ, p ≤ (if (c.size : ℤ) ≤ endCpos then (c.size : ℤ) - 1 else endCpos) - maxOffset keys ↔
        p + maxOffset keys ≤ endCpos ∧ p + maxOffset keys < (c.size : ℤ) := by
      intro p
      split_ifs
      · omega
      · omega
    generalize (if (c.size : ℤ) ≤ endCpos then (c.size : ℤ) - 1 else endCpos) - (maxOffset keys : ℤ) = last at hlast ⊢
    have hbound := (hlast last).mp le_rfl
    obtain ⟨st1, M1, hloop, h1, hasc1, hmem1⟩ :=
      scanLoop_spec fill hprep hbound.2 le_rfl h (show lo ≤ startCpos by omega) (by omega)
    have hbelow : ∀ r ∈ ranges, endCpos < r.1 := fun r hr => List.rel_of_pairwise_cons hranges.apart hr
    have hranges' : Intervals.Ascending Prod.fst Prod.snd ranges :=
      ⟨hranges.apart.of_cons, fun r hr => hranges.nonempty r (List.mem_cons_of_mem _ hr)⟩
    obtain ⟨st', lo', M2, hrun, h', hasc2, hmem2⟩ := ih hranges' (show -1 ≤ endCpos by omega) hbelow h1 (by omega)
    simp only [hloop, Option.bind_eq_bind, Option.bind_some, hrun]
    refine ⟨st', lo', M1 ++ M2, rfl, by simpa using h', List.pairwise_append.mpr ⟨hasc1, hasc2, fun p hp q hq => ?_⟩, fun p => ?_⟩
    · obtain ⟨r, hr, hq1, -⟩ := ((hmem2 q).mp hq).1
      have hp1 := (hlast p).mp ((hmem1 p).mp hp).2.1
      have hend := hbelow r hr
      omega
    · rw [List.mem_append, hmem1, hmem2, hlast]
      simp only [List.mem_cons, exists_eq_or_imp]
      tauto

end Loop

/-! ## The table -/

section Table

variable {frequencies : FrequencyValues} {L : List ℕ}

/-- The tuple of a position is inside the corpus. -/
def TupleInside (c : ScanCorpus) (keys : List ScanKey) (p : ℕ) : Prop := p + maxOffset keys < c.size

theorem ngramOf_toList {tuple : List ℤ} {K : ℕ} (h : tuple.length = K) :
    (ngramOf K tuple).toList = tuple.map fun id => (Int32.ofInt id).toUInt32 := by
  apply List.ext_getElem
  · simp [h]
  · intro k hk hk'
    rw [List.length_map] at hk'
    simp [ngramOf, List.getElem?_eq_getElem hk']

theorem tupleKeys_mem {key : ScanKey} (h : key ∈ tupleKeys keys) : key ∈ keys ∧ key.isConstraint = false := by
  simpa [tupleKeys] using h

/-- The values of an entry are those of the position it comes from. -/
theorem entryRow_values (hprep : ∀ key ∈ keys, key.Prepared c checkWords) {p : ℕ} (hp : TupleInside c keys p)
    {e : NgramHashEntry (tupleKeys keys).length} (he : e.ngram = ngramAt keys _ p) :
    (entryRow keys e).1 = keyValues keys p := by
  have hlist : e.ngram.toList = (tupleKeys keys).map fun key => (Int32.ofInt (key.idAt p)).toUInt32 := by
    rw [he, ngramAt, ngramOf_toList (by simp [keyIds]), keyIds, List.map_map]
    rfl
  rw [entryRow, hlist, ← List.map_prod_left_eq_zip, List.map_map, keyValues]
  apply List.map_congr_left
  intro key hkey
  obtain ⟨hmem, hc⟩ := tupleKeys_mem hkey
  have hoff := offset_le_maxOffset hmem
  rw [TupleInside] at hp
  obtain ⟨hvalue, hlo, hhi⟩ := ScanKey.valueOf_idAt (hprep key hmem) hc (show 0 ≤ (p : ℤ) by omega) (by omega)
  rw [Function.comp_apply, Int32.toInt32_toUInt32, Int32.toInt_ofInt_of_le hlo hhi, hvalue]

theorem ngramAt_eq_iff (hprep : ∀ key ∈ keys, key.Prepared c checkWords) {p q : ℕ} (hp : TupleInside c keys p)
    (hq : TupleInside c keys q) :
    ngramAt keys (tupleKeys keys).length p = ngramAt keys (tupleKeys keys).length q ↔ keyValues keys p = keyValues keys q := by
  constructor
  · intro heq
    have hrow := entryRow_values hprep hp (e := ⟨ngramAt keys _ p, 0⟩) rfl
    rw [← hrow]
    exact entryRow_values hprep hq heq
  · intro heq
    have hids : keyIds keys p = keyIds keys q := by
      apply List.map_congr_left
      intro key hkey
      obtain ⟨hmem, hc⟩ := tupleKeys_mem hkey
      have hoff := offset_le_maxOffset hmem
      rw [TupleInside] at hp hq
      exact ScanKey.idAt_eq_of_value (hprep key hmem) hc (by omega) (by omega) (by omega) (by omega)
        (List.map_inj_left.mp heq key hkey)
    rw [ngramAt, hids, ngramAt]

theorem sum_ofInt (l : List ℤ) : (l.map fun n => (Int32.ofInt n).toUInt32).sum = (Int32.ofInt l.sum).toUInt32 := by
  induction l with
  | nil => rfl
  | cons n l ih => rw [List.map_cons, List.sum_cons, ih, List.sum_cons, Int32.ofInt_add, Int32.toUInt32_add]

/-- The frequency of a tuple among the positions that have been counted. -/
def countedFrequency (keys : List ScanKey) (frequencies : FrequencyValues) (L : List ℕ) (values : List (Option String)) : ℤ :=
  ((L.filter fun p : ℕ => keyValues keys p = values).map fun p : ℕ => frequencies.frequencyAt p).sum

theorem mem_table {K : ℕ} {hash : NgramHash K} (h : NgramHashInv (additions keys frequencies K L) hash) (e : NgramHashEntry K) :
    e ∈ hash.table.flatten ↔
      (∃ p ∈ L, ngramAt keys K p = e.ngram) ∧ e.freq = (addedSinceDel (additions keys frequencies K L) e.ngram).sum :=
  NgramHashInv.mem_table h e

/-- The frequencies of the table are sums of 32-bit integers. -/
theorem freq_of_counted (hprep : ∀ key ∈ keys, key.Prepared c checkWords) (hL : ∀ p ∈ L, TupleInside c keys p) {p : ℕ}
    (hp : p ∈ L) :
    (addedSinceDel (additions keys frequencies _ L) (ngramAt keys (tupleKeys keys).length p)).sum.toInt32.toInt =
      (countedFrequency keys frequencies L (keyValues keys p)).bmod (2 ^ 32) := by
  have hfilter : (L.filter fun q : ℕ => ngramAt keys (tupleKeys keys).length q = ngramAt keys _ p) =
      L.filter fun q : ℕ => keyValues keys q = keyValues keys p := by
    apply List.filter_congr
    intro q hq
    rw [decide_eq_decide]
    exact ngramAt_eq_iff hprep (hL q hq) (hL p hp)
  have hsum := sum_ofInt (((L.filter fun q : ℕ => keyValues keys q = keyValues keys p).map
    fun q : ℕ => frequencies.frequencyAt q).reverse)
  rw [List.sum_reverse, ← List.map_reverse, List.map_map] at hsum
  rw [addedSinceDel_additions, hfilter]
  refine (congrArg (fun n : UInt32 => n.toInt32.toInt) hsum).trans ?_
  simp only [Int32.toInt32_toUInt32, Int32.toInt_ofInt]
  rfl

/-- The rows of a table to which the positions of `L` have been added. -/
theorem rows_spec (hprep : ∀ key ∈ keys, key.Prepared c checkWords) (hL : ∀ p ∈ L, TupleInside c keys p)
    {hash : NgramHash (tupleKeys keys).length} (h : NgramHashInv (additions keys frequencies _ L) hash) :
    ((hash.table.flatten.map (entryRow keys)).map Prod.fst).Nodup ∧ ∀ values f,
      (values, f) ∈ hash.table.flatten.map (entryRow keys) ↔
        (∃ p ∈ L, keyValues keys p = values) ∧ f = (countedFrequency keys frequencies L values).bmod (2 ^ 32) := by
  constructor
  · rw [List.map_map]
    apply List.pairwise_map.mpr
    apply (List.pairwise_map.mp h.wf.nodup).imp_of_mem
    intro e e' he he' hne heq
    obtain ⟨⟨p, hp, hpe⟩, -⟩ := (mem_table h e).mp he
    obtain ⟨⟨q, hq, hqe⟩, -⟩ := (mem_table h e').mp he'
    rw [Function.comp_apply, Function.comp_apply, entryRow_values hprep (hL p hp) hpe.symm,
      entryRow_values hprep (hL q hq) hqe.symm] at heq
    rw [← hpe, ← hqe] at hne
    exact hne ((ngramAt_eq_iff hprep (hL p hp) (hL q hq)).mpr heq)
  · intro values f
    rw [List.mem_map]
    constructor
    · intro hex
      obtain ⟨e, he, hrow⟩ := hex
      obtain ⟨⟨p, hp, hpe⟩, hfreq⟩ := (mem_table h e).mp he
      have hvalues : values = keyValues keys p := by
        rw [← entryRow_values hprep (hL p hp) hpe.symm, hrow]
      refine ⟨⟨p, hp, hvalues.symm⟩, ?_⟩
      rw [hvalues, ← freq_of_counted hprep hL hp, hpe, ← hfreq]
      exact congrArg Prod.snd hrow.symm
    · intro hex
      obtain ⟨⟨p, hp, rfl⟩, hf⟩ := hex
      refine ⟨⟨ngramAt keys _ p, (addedSinceDel (additions keys frequencies _ L) (ngramAt keys _ p)).sum⟩,
        (mem_table h _).mpr ⟨⟨p, hp, rfl⟩, rfl⟩, ?_⟩
      refine Prod.ext (entryRow_values hprep (hL p hp) rfl) ?_
      rw [hf, ← freq_of_counted hprep hL hp]
      rfl

end Table

/-! ## The distribution -/

section Distribution

open Classical

variable {frequencies : FrequencyValues} {ranges : List (ℤ × ℤ)} {L : List ℕ}

theorem frequencyAt_pos {frequencyAtt : Option (List Char)} (h : c.frequencyValues frequencyAtt = some frequencies) {p : ℕ}
    (hp : p < c.size) : 0 < frequencies.frequencyAt p := by
  cases frequencyAtt with
  | none =>
    cases h
    exact one_pos
  | some name =>
    obtain ⟨a, ha, h⟩ := Option.bind_eq_some_iff.mp h
    obtain ⟨frequency, hfreq, h⟩ := Option.bind_eq_some_iff.mp h
    cases h
    have hpos : ∀ n ∈ frequency, 0 < n := forall_of_mapM hfreq fun str n hn => by
      obtain ⟨intval, -, hn⟩ := Option.bind_eq_some_iff.mp hn
      split_ifs at hn with hle
      cases hn
      exact not_le.mp hle
    obtain ⟨id, -, hid, hlt⟩ := cpos2id_some (c.posAttribute_size name a ha) (show 0 ≤ (p : ℤ) by omega) (by omega)
    have hlen : id < frequency.length := by
      rw [← (forall₂_mapM hfreq).length_eq, a.lexicon_length]
      exact hlt
    simp only [FrequencyValues.frequencyAt, hid, Int.toNat_natCast]
    rw [List.getD_eq_getElem _ _ hlen]
    exact hpos _ (List.getElem_mem hlen)

/-- The positions that are counted in the table. -/
theorem accepted_iff (hprep : ∀ key ∈ keys, key.Prepared c checkWords) (p : ℕ) :
    ((∃ r ∈ ranges, r.1 ≤ p ∧ p + maxOffset keys ≤ r.2) ∧ p + maxOffset keys < (c.size : ℤ) ∧
      acceptsAll c checkWords keys p = true) ↔
    Counted c checkWords keys ranges p ∧ ∀ key ∈ keys, ¬key.Lost c checkWords p := by
  have haccept : p + maxOffset keys < (c.size : ℤ) → (acceptsAll c checkWords keys p = true ↔
      ∀ key ∈ keys, key.Holds c checkWords p ∧ ¬key.Lost c checkWords p) := by
    intro hsize
    rw [acceptsAll, List.all_eq_true]
    refine forall₂_congr fun key hkey => (hprep key hkey).accepts_iff (by omega) ?_
    have hoff := offset_le_maxOffset hkey
    omega
  constructor
  · intro h
    obtain ⟨hrange, hsize, hacc⟩ := h
    have hall := (haccept hsize).mp hacc
    exact ⟨⟨hrange, ⟨by omega, hsize⟩, fun key hkey => (hall key hkey).1⟩, fun key hkey => (hall key hkey).2⟩
  · intro h
    obtain ⟨hcounted, hlost⟩ := h
    refine ⟨hcounted.inRange, hcounted.inCorpus.2, (haccept hcounted.inCorpus.2).mpr fun key hkey => ?_⟩
    exact ⟨hcounted.holds key hkey, hlost key hkey⟩

theorem countedFrequency_eq (hL : L.Nodup)
    (hmem : ∀ p, p ∈ L ↔ Counted c checkWords keys ranges p ∧ ∀ key ∈ keys, ¬key.Lost c checkWords p)
    (values : List (Option String)) : countedFrequency keys frequencies L values =
      ∑ p ∈ (range c.size).filter (fun p : ℕ => (Counted c checkWords keys ranges p ∧ keyValues keys p = values) ∧
        ∀ key ∈ keys, ¬key.Lost c checkWords p), frequencies.frequencyAt p := by
  rw [countedFrequency, ← List.sum_toFinset _ (hL.filter _)]
  apply sum_congr _ fun _ _ => rfl
  ext p
  simp only [List.mem_toFinset, List.mem_filter, decide_eq_true_eq, mem_filter, mem_range, hmem]
  constructor
  · intro h
    have hsize := h.1.1.inCorpus.2
    exact ⟨by omega, ⟨h.1.1, h.2⟩, h.1.2⟩
  · intro h
    exact ⟨⟨h.2.1.1, h.2.2⟩, h.2.1.2⟩

theorem jointFrequency_eq (values : List (Option String)) : jointFrequency c checkWords keys ranges frequencies values =
    ∑ p ∈ (range c.size).filter (fun p : ℕ => Counted c checkWords keys ranges p ∧ keyValues keys p = values),
      frequencies.frequencyAt p := by
  rw [jointFrequency, ← List.sum_toFinset _ (List.nodup_range.filter _)]
  apply sum_congr _ fun _ _ => rfl
  ext p
  simp

theorem jointFrequency_nonneg (hpos : ∀ p < c.size, 0 < frequencies.frequencyAt p) (values : List (Option String)) :
    0 ≤ jointFrequency c checkWords keys ranges frequencies values := by
  rw [jointFrequency_eq]
  exact sum_nonneg fun p hp => (hpos p (mem_range.mp (mem_filter.mp hp).1)).le

/-- A tuple has a frequency if it occurs at some position that is counted. -/
theorem jointFrequency_ne_zero_iff (hpos : ∀ p < c.size, 0 < frequencies.frequencyAt p) (values : List (Option String)) :
    jointFrequency c checkWords keys ranges frequencies values ≠ 0 ↔
      ∃ p : ℕ, Counted c checkWords keys ranges p ∧ keyValues keys p = values := by
  rw [jointFrequency_eq]
  constructor
  · intro hne
    obtain ⟨p, hp, -⟩ := exists_ne_zero_of_sum_ne_zero hne
    exact ⟨p, (mem_filter.mp hp).2⟩
  · intro hex
    obtain ⟨p, hp⟩ := hex
    have hsize := hp.1.inCorpus.2
    apply ne_of_gt
    apply sum_pos
    · exact fun q hq => hpos q (mem_range.mp (mem_filter.mp hq).1)
    · exact ⟨p, mem_filter.mpr ⟨mem_range.mpr (by omega), hp⟩⟩

/-- Without `-F` no frequency exceeds the size of the corpus. -/
theorem jointFrequency_plain_lt (values : List (Option String)) : jointFrequency c checkWords keys ranges none values < 2 ^ 31 := by
  rw [jointFrequency_eq]
  have hle : ∑ p ∈ (range c.size).filter (fun p : ℕ => Counted c checkWords keys ranges p ∧ keyValues keys p = values),
      FrequencyValues.frequencyAt none (p : ℤ) ≤ ∑ _p ∈ range c.size, (1 : ℤ) :=
    sum_le_sum_of_subset_of_nonneg (filter_subset _ _) fun _ _ _ => zero_le_one
  have hlt := c.size_lt
  simp only [sum_const, card_range, nsmul_eq_mul, mul_one] at hle
  exact hle.trans_lt (by exact_mod_cast hlt)

section Exact

variable {args : List (List Char)} {opts : ScanOptions} {fill : FillRate}

variable (c opts fill) in
/-- The scan of a list of keys runs to its end, and its table holds the positions it has accepted. -/
theorem scanCorpus_rows (hkeys : args.mapM (c.scancorpusAddKey opts.checkWords) = some keys)
    (hK : ∃ key ∈ keys, key.isConstraint = false) (hfreq : c.frequencyValues opts.frequencyAtt = some frequencies)
    (hranges : Intervals.Ascending Prod.fst Prod.snd (opts.ranges c.size)) (hstart : ∀ r ∈ opts.ranges c.size, 0 ≤ r.1) :
    ∃ (table : List (List (Option String) × ℤ)) (L : List ℕ), c.scanCorpus opts fill args = some table ∧ L.Nodup ∧
      (∀ p, p ∈ L ↔ Counted c opts.checkWords keys (opts.ranges c.size) p ∧ ∀ key ∈ keys, ¬key.Lost c opts.checkWords p) ∧
      (table.map Prod.fst).Nodup ∧ ∀ values f, (values, f) ∈ table ↔
        (∃ p ∈ L, keyValues keys p = values) ∧ f = (countedFrequency keys frequencies L values).bmod (2 ^ 32) := by
  have hprep : ∀ key ∈ keys, key.Prepared c opts.checkWords := forall_of_mapM hkeys fun _ _ => scancorpusAddKey_prepared
  have hpos : (tupleKeys keys).length ≠ 0 := by
    obtain ⟨key, hkey, hc⟩ := hK
    exact List.length_pos_of_mem (List.mem_filter.mpr ⟨hkey, by simp [hc]⟩) |>.ne'
  have hinit : Scanning c opts.checkWords keys frequencies 0 []
      { keys := keys.map fun key => (key, RegionCursor.initial key)
        table := { clNewNgramHash (tupleKeys keys).length opts.nBuckets with autoGrow := opts.nBuckets ≤ 0 } } := by
    refine ⟨(List.map_map ..).trans (List.map_id keys), fun p hp => ?_, ?_, le_rfl⟩
    · obtain ⟨key, -, rfl⟩ := List.mem_map.mp hp
      exact ScanKey.ready_initial 0
    · have hnew := ngramInv_new (N := (tupleKeys keys).length) opts.nBuckets
      exact ⟨hnew.wf, hnew.entries_eq, hnew.find_eq⟩
  obtain ⟨st, lo, L, hrun, hst, hasc, hmem⟩ := scanRanges_spec fill hprep hranges (show (-1 : ℤ) ≤ -1 from le_rfl)
    (fun r hr => by have h0 := hstart r hr; omega) hinit le_rfl
  rw [List.nil_append] at hst
  have hmem' := fun p => (hmem p).trans (accepted_iff hprep p)
  obtain ⟨hnodup, hrows⟩ := rows_spec hprep (fun p hp => by exact_mod_cast ((hmem p).mp hp).2.1) hst.table
  refine ⟨_, L, ?_, hasc.imp ne_of_lt, hmem', hnodup, hrows⟩
  simp only [ScanCorpus.scanCorpus, hkeys, hfreq, hrun, getEntries_eq hst.table, Option.bind_eq_bind, Option.bind_some,
    if_neg hpos, Option.pure_def]

/-- What is counted is part of the frequency, and less than it if a position has been lost. -/
theorem countedFrequency_le (hpos : ∀ p < c.size, 0 < frequencies.frequencyAt p) (hL : L.Nodup)
    (hmem : ∀ p, p ∈ L ↔ Counted c checkWords keys ranges p ∧ ∀ key ∈ keys, ¬key.Lost c checkWords p)
    (values : List (Option String)) :
    0 ≤ countedFrequency keys frequencies L values ∧
      countedFrequency keys frequencies L values ≤ jointFrequency c checkWords keys ranges frequencies values ∧
      ∀ p : ℕ, Counted c checkWords keys ranges p → keyValues keys p = values → p ∉ L →
        countedFrequency keys frequencies L values < jointFrequency c checkWords keys ranges frequencies values := by
  rw [countedFrequency_eq hL hmem, jointFrequency_eq]
  have hsub : ((range c.size).filter fun p : ℕ => (Counted c checkWords keys ranges p ∧ keyValues keys p = values) ∧
      ∀ key ∈ keys, ¬key.Lost c checkWords p) ⊆
      (range c.size).filter fun p : ℕ => Counted c checkWords keys ranges p ∧ keyValues keys p = values := by
    intro p hp
    obtain ⟨hr, hp, -⟩ := mem_filter.mp hp
    exact mem_filter.mpr ⟨hr, hp⟩
  have hnonneg : ∀ p ∈ range c.size, 0 ≤ frequencies.frequencyAt p := fun p hp => (hpos p (mem_range.mp hp)).le
  refine ⟨sum_nonneg fun p hp => hnonneg p (mem_filter.mp hp).1,
    sum_le_sum_of_subset_of_nonneg hsub fun p hp _ => hnonneg p (mem_filter.mp hp).1, fun p hp hv hnot => ?_⟩
  have hsize := hp.inCorpus.2
  have hlt : p < c.size := by omega
  refine sum_lt_sum_of_subset hsub (i := p) (mem_filter.mpr ⟨mem_range.mpr hlt, hp, hv⟩) (fun hin => ?_)
    (hpos p hlt) fun q hq _ => hnonneg q (mem_filter.mp hq).1
  exact hnot ((hmem p).mpr ⟨hp, (mem_filter.mp hin).2.2⟩)

theorem bmod_int {n : ℤ} (h0 : 0 ≤ n) (hlt : n < 2 ^ 31) : n.bmod (2 ^ 32) = n := by
  rw [Int.bmod_eq_of_le]
  · omega
  · omega

/-- When such a table is the joint frequency distribution. -/
theorem isDistribution_iff_of_rows (hpos : ∀ p < c.size, 0 < frequencies.frequencyAt p)
    {table : List (List (Option String) × ℤ)} (hL : L.Nodup)
    (hmem : ∀ p, p ∈ L ↔ Counted c checkWords keys ranges p ∧ ∀ key ∈ keys, ¬key.Lost c checkWords p)
    (hnodup : (table.map Prod.fst).Nodup) (hrows : ∀ values f, (values, f) ∈ table ↔
      (∃ p ∈ L, keyValues keys p = values) ∧ f = (countedFrequency keys frequencies L values).bmod (2 ^ 32)) :
    IsDistribution table (jointFrequency c checkWords keys ranges frequencies) ↔
      (∀ p : ℕ, Counted c checkWords keys ranges p → ∀ key ∈ keys, ¬key.Lost c checkWords p) ∧
      ∀ values, jointFrequency c checkWords keys ranges frequencies values < 2 ^ 31 := by
  refine ⟨fun h => ?_, fun h => ?_⟩
  · have hbound : ∀ values, jointFrequency c checkWords keys ranges frequencies values < 2 ^ 31 := by
      intro values
      by_cases hzero : jointFrequency c checkWords keys ranges frequencies values = 0
      · rw [hzero]
        norm_num
      · obtain ⟨-, hval⟩ := (hrows _ _).mp ((h.mem_iff values _).mpr ⟨hzero, rfl⟩)
        have hlt := Int.bmod_lt (x := countedFrequency keys frequencies L values) (m := 2 ^ 32) (by norm_num)
        omega
    refine ⟨fun p hp key hkey hlost => ?_, hbound⟩
    have hne := (jointFrequency_ne_zero_iff hpos (keyValues keys p)).mpr ⟨p, hp, rfl⟩
    obtain ⟨-, hval⟩ := (hrows _ _).mp ((h.mem_iff _ _).mpr ⟨hne, rfl⟩)
    obtain ⟨h0, hle, hless⟩ := countedFrequency_le hpos hL hmem (keyValues keys p)
    have hlt := hless p hp rfl fun hin => ((hmem p).mp hin).2 key hkey hlost
    rw [bmod_int h0 (hle.trans_lt (hbound _))] at hval
    omega
  · obtain ⟨hkept, hbound⟩ := h
    have hmemCounted : ∀ p, p ∈ L ↔ Counted c checkWords keys ranges p := by
      intro p
      rw [hmem]
      exact and_iff_left_of_imp (hkept p)
    refine ⟨hnodup, fun values f => ?_⟩
    have hsum : countedFrequency keys frequencies L values =
        jointFrequency c checkWords keys ranges frequencies values := by
      rw [countedFrequency_eq hL hmem, jointFrequency_eq]
      apply sum_congr _ fun _ _ => rfl
      ext p
      simp only [mem_filter]
      exact and_congr_right fun _ => and_iff_left_of_imp fun hp => hkept p hp.1
    rw [hrows, hsum, bmod_int (jointFrequency_nonneg hpos values) (hbound values)]
    constructor
    · intro hrow
      obtain ⟨⟨p, hp, hv⟩, hf⟩ := hrow
      refine ⟨?_, hf⟩
      rw [hf]
      exact (jointFrequency_ne_zero_iff hpos values).mpr ⟨p, (hmemCounted p).mp hp, hv⟩
    · intro hrow
      obtain ⟨hne, hf⟩ := hrow
      rw [hf] at hne
      obtain ⟨p, hp, hv⟩ := (jointFrequency_ne_zero_iff hpos values).mp hne
      exact ⟨⟨p, (hmemCounted p).mpr hp, hv⟩, hf⟩

theorem nodup_abWord : ["a", "b"].Nodup := by decide

theorem length_abWord : ["a", "b"].length = 2 := rfl

def abWord : PAttribute where
  ids := [0, 1]
  lexsize := 2
  lexsize_pos := Nat.two_pos
  id_lt := by decide
  occurs := by decide
  lexicon := ["a", "b"]
  lexicon_nodup := nodup_abWord
  lexicon_length := length_abWord

def abCorpus : ScanCorpus where
  size := 2
  size_lt := by decide
  posAttribute name := if name = ['w'] then some abWord else none
  posAttribute_size := by
    intro name a h
    split_ifs at h
    cases h
    rfl
  strucAttribute _ := none
  newRegex rx _ _ := some fun str => str.toList = rx
  utf8 := false
  regularRx _ := false
  isAlphanumeric := Char.isAlphanum

/-- The key `w`. -/
def abKey : ScanKey := ⟨false, .pos abWord, 0, false, none, none⟩

/-- The key `w!=/x/`. -/
def notXKey : ScanKey := ⟨false, .pos abWord, 0, true, some fun str => str.toList = ['x'], some []⟩

theorem abRanges : Intervals.Ascending Prod.fst Prod.snd (({} : ScanOptions).ranges 2) ∧
    ∀ r ∈ ({} : ScanOptions).ranges 2, 0 ≤ r.1 :=
  ⟨⟨by decide, by decide⟩, by decide⟩

/-- The fill rate limit 5 and the target 1. -/
def abFill : FillRate := ⟨fun entries buckets => 5 * buckets < entries, fun entries buckets => 5 * buckets < entries, id⟩

end Exact

end Distribution

end CWB

/-! The scan of `cwb-scan-corpus` without its jumps. The plain scan visits every position of a range
and looks up the region of every key from scratch; it leaves the same table, since a jump goes over
positions only that no tuple is counted at. -/

namespace CWB

open Traverse

section Scan

variable (c : ScanCorpus) (checkWords : Bool) (fill : FillRate) (frequencies : FrequencyValues) (keys : List ScanKey) {K : ℕ}

/-- The next `n` positions from `cpos` on, one after another. -/
def plainLoop : ℕ → ℤ → NgramHash K → Option (NgramHash K)
  | 0, _, table => some table
  | n + 1, cpos, table => do
    let table ← plainPosition c checkWords fill frequencies keys table cpos
    plainLoop n (cpos + 1) table

/-- The loop over the ranges. -/
def plainRanges : ℤ → List (ℤ × ℤ) → NgramHash K → Option (NgramHash K)
  | _, [], table => some table
  | previousEnd, (startCpos, endCpos) :: ranges, table =>
    if startCpos ≤ previousEnd then none
    else if endCpos < startCpos then none
    else do
      let last := (if c.size ≤ endCpos then (c.size : ℤ) - 1 else endCpos) - maxOffset keys
      let table ← plainLoop c checkWords fill frequencies keys (last + 1 - startCpos).toNat startCpos table
      plainRanges endCpos ranges table

end Scan

/-- `main` with the plain scan. -/
def ScanCorpus.plainScanCorpus (c : ScanCorpus) (opts : ScanOptions) (fill : FillRate) (args : List (List Char)) :
    Option (List (List (Option String) × ℤ)) := do
  let keys ← args.mapM (c.scancorpusAddKey opts.checkWords)
  if (tupleKeys keys).length = 0 then none
  else do
    let frequencies ← c.frequencyValues opts.frequencyAtt
    let table := clNewNgramHash (tupleKeys keys).length opts.nBuckets
    let table ← plainRanges c opts.checkWords fill frequencies keys (-1) (opts.ranges c.size)
      { table with autoGrow := opts.nBuckets ≤ 0 }
    let (entries, _) ← clNgramHashGetEntries table
    pure (entries.map (entryRow keys))

section Jumps

variable {c : ScanCorpus} {checkWords : Bool} (fill : FillRate) (frequencies : FrequencyValues) {keys : List ScanKey}
  {K : ℕ} {cpos : ℤ}

/-- Positions that are not accepted may be left out. -/
theorem plainLoop_skip {m n : ℕ} (hmn : m ≤ n) (table : NgramHash K)
    (hskip : ∀ q, cpos ≤ q → q < cpos + m → acceptsAll c checkWords keys q = false) :
    plainLoop c checkWords fill frequencies keys n cpos table =
      plainLoop c checkWords fill frequencies keys (n - m) (cpos + m) table := by
  induction m generalizing n cpos with
  | zero => simp
  | succ m ih =>
    obtain ⟨n, rfl⟩ := Nat.exists_eq_succ_of_ne_zero (show n ≠ 0 by omega)
    have hfalse := hskip cpos le_rfl (by omega)
    have hrest := @ih (cpos + 1) n (show m ≤ n by omega) fun q hq hlt => hskip q (by omega) (by push_cast; omega)
    rw [plainLoop, plainPosition, hfalse, if_neg Bool.false_ne_true, Option.bind_eq_bind, Option.bind_some, hrest,
      Nat.succ_eq_add_one, Nat.add_sub_add_right]
    congr 1
    push_cast
    ring

/-- The scan of a range ends with the table of the plain scan, and the keys are ready for what comes
after the range. -/
theorem scanLoop_plain (hprep : ∀ key ∈ keys, key.Prepared c checkWords) {last : ℤ} (hsize : last + maxOffset keys < c.size)
    {fuel : ℕ} (hfuel : (last + 1 - cpos).toNat ≤ fuel) {st : ScanState K} {lo : ℤ}
    (h : KeysReady c checkWords keys lo st.keys) (hlo : lo ≤ cpos) (h0 : 0 ≤ cpos) :
    (scanLoop c checkWords fill frequencies fuel cpos last st).map ScanState.table =
        plainLoop c checkWords fill frequencies keys (last + 1 - cpos).toNat cpos st.table ∧
      ∀ st' ∈ scanLoop c checkWords fill frequencies fuel cpos last st,
        KeysReady c checkWords keys (max lo (last + 1)) st'.keys := by
  induction fuel generalizing cpos st lo with
  | zero =>
    rw [Nat.le_zero.mp hfuel]
    refine ⟨rfl, fun st' hst' => ?_⟩
    cases hst'
    exact h.mono (le_max_left _ _)
  | succ fuel ih =>
    rw [scanLoop]
    by_cases hend : cpos ≤ last
    · rw [if_pos hend]
      obtain ⟨keys', nextCpos, hpos, hlt, hskip, hready⟩ :=
        scanPosition_plain fill frequencies hprep (h.mono hlo) h0 (show cpos + maxOffset keys < c.size by omega)
      have hrounds : (last + 1 - cpos).toNat = (last - cpos).toNat + 1 := by omega
      rw [hpos, hrounds, plainLoop]
      cases plainPosition c checkWords fill frequencies keys st.table cpos with
      | none => exact ⟨rfl, fun st' hst' => by cases hst'⟩
      | some table =>
        have hready' : KeysReady c checkWords keys (cpos + 1) (ScanState.mk keys' table).keys := hready
        obtain ⟨hloop, hkeys⟩ := ih (show (last + 1 - nextCpos).toNat ≤ fuel by omega) hready' hlt (by omega)
        simp only [Option.map_some, Option.bind_eq_bind, Option.bind_some]
        refine ⟨hloop.trans ?_, fun st' hst' => ?_⟩
        · -- the plain scan goes over the positions that have been jumped over, as far as they are in the range
          have hjumped := plainLoop_skip fill frequencies
            (Nat.min_le_left (last - cpos).toNat (nextCpos - (cpos + 1)).toNat) table
            fun q (hq : cpos + 1 ≤ q) hq' => hskip q (by omega) (by omega)
          rw [hjumped]
          by_cases hnext : nextCpos ≤ last + 1
          · congr 1
            · omega
            · omega
          · have hdone : (last - cpos).toNat - min (last - cpos).toNat (nextCpos - (cpos + 1)).toNat = 0 := by omega
            rw [hdone, show (last + 1 - nextCpos).toNat = 0 by omega]
            rfl
        · have hmax : max (cpos + 1) (last + 1) = max lo (last + 1) := by omega
          exact hmax ▸ hkeys st' hst'
    · rw [if_neg hend, show (last + 1 - cpos).toNat = 0 by omega]
      refine ⟨rfl, fun st' hst' => ?_⟩
      cases hst'
      exact h.mono (le_max_left _ _)

theorem scanRanges_plain (hprep : ∀ key ∈ keys, key.Prepared c checkWords) (ranges : List (ℤ × ℤ)) {previousEnd : ℤ}
    (hprev : -1 ≤ previousEnd) {st : ScanState K} (h : KeysReady c checkWords keys (previousEnd + 1) st.keys) :
    (scanRanges c checkWords fill frequencies (maxOffset keys) previousEnd ranges st).map ScanState.table =
      plainRanges c checkWords fill frequencies keys previousEnd ranges st.table := by
  induction ranges generalizing previousEnd st with
  | nil => rfl
  | cons r ranges ih =>
    obtain ⟨startCpos, endCpos⟩ := r
    rw [scanRanges, plainRanges]
    by_cases hstart : startCpos ≤ previousEnd
    · rw [if_pos hstart, if_pos hstart]
      rfl
    by_cases hend : endCpos < startCpos
    · rw [if_neg hstart, if_neg hstart, if_pos hend, if_pos hend]
      rfl
    rw [if_neg hstart, if_neg hstart, if_neg hend, if_neg hend]
    dsimp only
    have hlast : (if (c.size : ℤ) ≤ endCpos then (c.size : ℤ) - 1 else endCpos) ≤ endCpos ∧
        (if (c.size : ℤ) ≤ endCpos then (c.size : ℤ) - 1 else endCpos) < c.size := by
      split_ifs
      · omega
      · omega
    generalize (if (c.size : ℤ) ≤ endCpos then (c.size : ℤ) - 1 else endCpos) = last at hlast ⊢
    obtain ⟨hloop, hkeys⟩ := scanLoop_plain fill frequencies hprep
      (show last - maxOffset keys + maxOffset keys < c.size by omega) le_rfl h (show previousEnd + 1 ≤ startCpos by omega) (by omega)
    rw [← hloop]
    cases hrun : scanLoop c checkWords fill frequencies (last - maxOffset keys + 1 - startCpos).toNat startCpos
        (last - maxOffset keys) st with
    | none => rfl
    | some st' => exact ih (by omega) ((hkeys st' hrun).mono (by omega))

end Jumps

end CWB
