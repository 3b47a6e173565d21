import Mathlib.Data.List.GetD
import Mathlib.Data.Set.Card
import Mathlib.Tactic

/-! Hash tables with chaining: a table is a list of chains, and an entry belongs into the
chain that the hash of its key selects. An operation touches one chain; what it does to
the whole table is said up to the order of the entries. -/

namespace ChainedTable

open List

variable {κ ε : Type*} (key : ε → κ) (hash : κ → ℕ)

/-- The number of the chain for a key. -/
def slot (table : List (List ε)) (k : κ) : ℕ := hash k % table.length

def lookup [DecidableEq κ] (table : List (List ε)) (k : κ) : Option ε :=
  ((table[slot hash table k]?).getD []).find? fun e => key e = k

/-- Change the first entry with a given key. -/
def changeFirst [DecidableEq κ] (k : κ) (f : ε → ε) : List ε → List ε
  | [] => []
  | e :: es => if key e = k then f e :: es else e :: changeFirst k f es

/-- Remove the first entry with a given key. -/
def removeFirst [DecidableEq κ] (k : κ) (es : List ε) : List ε := es.eraseP fun e => key e = k

/-- The entries of a table moved one by one to the front of their chains in a table of size `n`. -/
def rehash (n : ℕ) (entries : List ε) : List (List ε) :=
  entries.foldl (fun table e => table.modify (slot hash table (key e)) (e :: ·)) (replicate n [])

structure Chained (table : List (List ε)) : Prop where
  pos : 0 < table.length
  placed : ∀ i chain, table[i]? = some chain → ∀ e ∈ chain, hash (key e) % table.length = i
  nodup : (table.flatten.map key).Nodup

variable {key hash} {table : List (List ε)} {k : κ} {e : ε}

theorem Chained.slot_lt (h : Chained key hash table) (k : κ) : slot hash table k < table.length :=
  Nat.mod_lt _ h.pos

theorem chain_eq (h : Chained key hash table) (k : κ) :
    ∃ chain, table[slot hash table k]? = some chain := ⟨_, getElem?_eq_getElem (h.slot_lt k)⟩

theorem eq_of_key_eq (h : Chained key hash table) {e e' : ε} (he : e ∈ table.flatten) (he' : e' ∈ table.flatten)
    (heq : key e = key e') : e = e' := inj_on_of_nodup_map h.nodup he he' heq

section Lookup

variable [DecidableEq κ]

theorem lookup_eq_some_iff (h : Chained key hash table) :
    lookup key hash table k = some e ↔ e ∈ table.flatten ∧ key e = k := by
  obtain ⟨chain, hchain⟩ := chain_eq h k
  rw [lookup, hchain, Option.getD_some]
  have hmem : ∀ e ∈ chain, e ∈ table.flatten := fun e he =>
    mem_flatten.mpr ⟨chain, mem_of_getElem? hchain, he⟩
  constructor
  · intro hf
    exact ⟨hmem e (mem_of_find?_eq_some hf), by simpa using find?_some hf⟩
  · rintro ⟨he, rfl⟩
    obtain ⟨chain', hc', hin⟩ := mem_flatten.mp he
    obtain ⟨i, hi⟩ := getElem?_of_mem hc'
    have hslot : slot hash table (key e) = i := h.placed i chain' hi e hin
    rw [hslot, hi, Option.some.injEq] at hchain
    subst hchain
    cases hf : chain'.find? fun e' => decide (key e' = key e) with
    | none => simpa using find?_eq_none.mp hf e hin
    | some e' =>
      have hkey : key e' = key e := by simpa using find?_some hf
      rw [eq_of_key_eq h (hmem e' (mem_of_find?_eq_some hf)) he hkey]

theorem lookup_eq_none_iff (h : Chained key hash table) :
    lookup key hash table k = none ↔ k ∉ table.flatten.map key := by
  rw [Option.eq_none_iff_forall_ne_some]
  simp only [ne_eq, lookup_eq_some_iff h, mem_map]
  exact ⟨fun hn ⟨e, he⟩ => hn e he, fun hn e he => hn ⟨e, he⟩⟩

end Lookup

/-- Changing one chain leaves the other entries as they are. -/
theorem flatten_modify {i : ℕ} {chain : List ε} (hi : table[i]? = some chain) (f : List ε → List ε) :
    ∃ R, table.flatten.Perm (chain ++ R) ∧ (table.modify i f).flatten.Perm (f chain ++ R) := by
  induction table generalizing i with
  | nil => simp at hi
  | cons c table ih =>
    cases i with
    | zero =>
      simp only [getElem?_cons_zero, Option.some.injEq] at hi
      subst hi
      exact ⟨table.flatten, List.Perm.refl _, by simp⟩
    | succ i =>
      obtain ⟨R, h1, h2⟩ := ih (by simpa using hi)
      refine ⟨c ++ R, ?_, ?_⟩
      · rw [flatten_cons]
        exact (h1.append_left c).trans (perm_append_comm_assoc c chain R)
      · rw [modify_succ_cons, flatten_cons]
        exact (h2.append_left c).trans (perm_append_comm_assoc c (f chain) R)

/-- A change of one chain keeps the table well formed if the new chain belongs there. -/
theorem Chained.modify (h : Chained key hash table) (k : κ) {chain : List ε}
    (hchain : table[slot hash table k]? = some chain) (f : List ε → List ε)
    (hplaced : ∀ e ∈ f chain, key e ∈ k :: chain.map key)
    (hnodup : ((table.modify (slot hash table k) f).flatten.map key).Nodup) :
    Chained key hash (table.modify (slot hash table k) f) := by
  refine ⟨by simpa using h.pos, ?_, hnodup⟩
  intro i c hc e he
  rw [length_modify]
  rw [getElem?_modify] at hc
  by_cases hi : slot hash table k = i
  · subst hi
    rw [hchain] at hc
    simp only [if_pos, Option.map_eq_map, Option.map_some, Option.some.injEq] at hc
    subst hc
    rcases mem_cons.mp (hplaced e he) with hk | hk
    · rw [hk]; rfl
    · obtain ⟨e', he', hkey⟩ := mem_map.mp hk
      rw [← hkey]
      exact h.placed _ _ hchain e' he'
  · simp only [if_neg hi, Option.map_eq_map, Option.map_id'] at hc
    exact h.placed i c hc e he

theorem append_spec (h : Chained key hash table) (hnew : key e ∉ table.flatten.map key) :
    Chained key hash (table.modify (slot hash table (key e)) (· ++ [e])) ∧
      (table.modify (slot hash table (key e)) (· ++ [e])).flatten.Perm (e :: table.flatten) := by
  obtain ⟨chain, hchain⟩ := chain_eq h (key e)
  obtain ⟨R, h1, h2⟩ := flatten_modify hchain (· ++ [e])
  have hperm : (table.modify (slot hash table (key e)) (· ++ [e])).flatten.Perm (e :: table.flatten) := by
    refine h2.trans (List.Perm.trans ?_ (h1.symm.cons e))
    rw [append_assoc]
    exact perm_middle
  refine ⟨h.modify (key e) hchain _ ?_ ?_, hperm⟩
  · intro e' he'
    rcases mem_append.mp he' with he' | he'
    · exact mem_cons_of_mem _ (mem_map_of_mem he')
    · rw [mem_singleton.mp he']; exact mem_cons_self
  · rw [(hperm.map key).nodup_iff, map_cons]
    exact nodup_cons.mpr ⟨hnew, h.nodup⟩

theorem changeFirst_split [DecidableEq κ] {f : ε → ε} {chain : List ε} (h : chain.find? (fun e => key e = k) = some e) :
    ∃ l r, chain = l ++ e :: r ∧ changeFirst key k f chain = l ++ f e :: r ∧ removeFirst key k chain = l ++ r := by
  induction chain with
  | nil => simp at h
  | cons c chain ih =>
    by_cases hc : key c = k
    · rw [find?_cons_of_pos (by simpa using hc), Option.some.injEq] at h
      subst h
      exact ⟨[], chain, rfl, by simp [changeFirst, hc], by simp [removeFirst, hc]⟩
    · rw [find?_cons_of_neg (by simpa using hc)] at h
      obtain ⟨l, r, h1, h2, h3⟩ := ih h
      refine ⟨c :: l, r, by rw [h1]; rfl, by simp [changeFirst, hc, h2], ?_⟩
      rw [removeFirst, eraseP_cons_of_neg (by simpa using hc), ← removeFirst, h3]
      rfl

theorem change_spec [DecidableEq κ] (h : Chained key hash table) (hl : lookup key hash table k = some e) {f : ε → ε}
    (hf : key (f e) = key e) :
    Chained key hash (table.modify (slot hash table k) (changeFirst key k f)) ∧
      ∃ R, table.flatten.Perm (e :: R) ∧
        (table.modify (slot hash table k) (changeFirst key k f)).flatten.Perm (f e :: R) := by
  obtain ⟨chain, hchain⟩ := chain_eq h k
  rw [lookup, hchain, Option.getD_some] at hl
  obtain ⟨l, r, hc, hch, -⟩ := changeFirst_split (f := f) hl
  obtain ⟨R, h1, h2⟩ := flatten_modify hchain (changeFirst key k f)
  rw [hch, append_assoc, cons_append] at h2
  rw [hc, append_assoc, cons_append] at h1
  have h1' := h1.trans perm_middle
  have h2' := h2.trans perm_middle
  refine ⟨h.modify k hchain _ ?_ ?_, _, h1', h2'⟩
  · intro e' he'
    rw [hch] at he'
    refine mem_cons_of_mem _ ?_
    rw [hc]
    simp only [mem_append, mem_cons] at he'
    rcases he' with he' | rfl | he'
    · simp only [map_append, mem_append]
      exact .inl (mem_map_of_mem he')
    · simp [hf]
    · simp only [map_append, map_cons, mem_append, mem_cons]
      exact .inr (.inr (mem_map_of_mem he'))
  · have hn := (h1'.map key).nodup_iff.mp h.nodup
    rw [map_cons] at hn
    rw [(h2'.map key).nodup_iff, map_cons, hf]
    exact hn

theorem remove_spec [DecidableEq κ] (h : Chained key hash table) (hl : lookup key hash table k = some e) :
    Chained key hash (table.modify (slot hash table k) (removeFirst key k)) ∧
      table.flatten.Perm (e :: (table.modify (slot hash table k) (removeFirst key k)).flatten) := by
  obtain ⟨chain, hchain⟩ := chain_eq h k
  rw [lookup, hchain, Option.getD_some] at hl
  obtain ⟨l, r, hc, -, hrm⟩ := changeFirst_split (f := fun e => e) hl
  obtain ⟨R, h1, h2⟩ := flatten_modify hchain (removeFirst key k)
  rw [hrm, append_assoc] at h2
  rw [hc, append_assoc, cons_append] at h1
  have hperm := (h1.trans perm_middle).trans (h2.symm.cons e)
  refine ⟨h.modify k hchain _ ?_ ?_, hperm⟩
  · intro e' he'
    exact mem_cons_of_mem _ (mem_map_of_mem (mem_of_mem_eraseP he'))
  · have hn := (hperm.map key).nodup_iff.mp h.nodup
    exact (nodup_cons.mp hn).2

theorem chained_empty {n : ℕ} (hn : 0 < n) : Chained key hash (replicate n ([] : List ε)) := by
  refine ⟨by simpa using hn, ?_, by simp⟩
  intro i c hc e he
  rw [getElem?_replicate] at hc
  by_cases hi : i < n
  · rw [if_pos hi, Option.some.injEq] at hc
    rw [← hc] at he
    exact absurd he not_mem_nil
  · rw [if_neg hi] at hc
    exact absurd hc (by simp)

theorem prepend_spec (h : Chained key hash table) (hnew : key e ∉ table.flatten.map key) :
    Chained key hash (table.modify (slot hash table (key e)) (e :: ·)) ∧
      (table.modify (slot hash table (key e)) (e :: ·)).flatten.Perm (e :: table.flatten) := by
  obtain ⟨chain, hchain⟩ := chain_eq h (key e)
  obtain ⟨R, h1, h2⟩ := flatten_modify hchain (e :: ·)
  have hperm := h2.trans (h1.symm.cons e)
  refine ⟨h.modify (key e) hchain _ ?_ ?_, hperm⟩
  · intro e' he'
    rcases mem_cons.mp he' with rfl | he'
    · exact mem_cons_self
    · exact mem_cons_of_mem _ (mem_map_of_mem he')
  · rw [(hperm.map key).nodup_iff, map_cons]
    exact nodup_cons.mpr ⟨hnew, h.nodup⟩

/-- A rehashed table has the new size and the same entries. -/
theorem rehash_spec (hash : κ → ℕ) {n : ℕ} (hn : 0 < n) {entries : List ε} (hnodup : (entries.map key).Nodup) :
    Chained key hash (rehash key hash n entries) ∧ (rehash key hash n entries).length = n ∧
      (rehash key hash n entries).flatten.Perm entries := by
  induction entries using reverseRecOn with
  | nil => exact ⟨chained_empty hn, by simp [rehash], by simp [rehash]⟩
  | append_singleton entries e ih =>
    rw [map_append, nodup_append] at hnodup
    obtain ⟨hn1, -, hdis⟩ := hnodup
    obtain ⟨hwf, hlen, hperm⟩ := ih hn1
    have hnew : key e ∉ (rehash key hash n entries).flatten.map key := by
      rw [(hperm.map key).mem_iff]
      exact fun hmem => hdis _ hmem _ (by simp) rfl
    obtain ⟨hwf', hperm'⟩ := prepend_spec hwf hnew
    rw [rehash, foldl_append, foldl_cons, foldl_nil, ← rehash]
    refine ⟨hwf', by rw [length_modify, hlen], ?_⟩
    exact hperm'.trans ((hperm.cons e).trans (perm_append_singleton e entries).symm)

/-! The table as a finite map. -/

section Map

variable [DecidableEq κ]

theorem lookup_append (h : Chained key hash table) (hnew : lookup key hash table (key e) = none) (k : κ) :
    lookup key hash (table.modify (slot hash table (key e)) (· ++ [e])) k =
      if k = key e then some e else lookup key hash table k := by
  obtain ⟨hwf, hperm⟩ := append_spec h ((lookup_eq_none_iff h).mp hnew)
  refine Option.ext fun x => ?_
  rw [lookup_eq_some_iff hwf, hperm.mem_iff, mem_cons]
  by_cases hk : k = key e
  · rw [if_pos hk, Option.some.injEq]
    constructor
    · rintro ⟨rfl | hx, hkey⟩
      · rfl
      · have := (lookup_eq_none_iff h).mp hnew
        exact absurd (mem_map.mpr ⟨x, hx, hkey.trans hk⟩) this
    · rintro rfl
      exact ⟨.inl rfl, hk.symm⟩
  · rw [if_neg hk, lookup_eq_some_iff h]
    refine and_congr_left fun hkey => ⟨fun hx => hx.resolve_left ?_, .inr⟩
    rintro rfl
    exact hk hkey.symm

theorem lookup_change (h : Chained key hash table) (hl : lookup key hash table k = some e) {f : ε → ε}
    (hf : key (f e) = key e) (k' : κ) :
    lookup key hash (table.modify (slot hash table k) (changeFirst key k f)) k' =
      if k' = k then some (f e) else lookup key hash table k' := by
  obtain ⟨hwf, R, h1, h2⟩ := change_spec h hl hf
  obtain ⟨he, rfl⟩ := (lookup_eq_some_iff h).mp hl
  have hn := (h1.map key).nodup_iff.mp h.nodup
  rw [map_cons, nodup_cons] at hn
  refine Option.ext fun x => ?_
  rw [lookup_eq_some_iff hwf, h2.mem_iff, mem_cons]
  by_cases hk : k' = key e
  · rw [if_pos hk, Option.some.injEq]
    constructor
    · rintro ⟨rfl | hx, hkey⟩
      · rfl
      · exact absurd (mem_map.mpr ⟨x, hx, hkey.trans hk⟩) hn.1
    · rintro rfl
      exact ⟨.inl rfl, hf.trans hk.symm⟩
  · rw [if_neg hk, lookup_eq_some_iff h, h1.mem_iff, mem_cons]
    refine and_congr_left fun hkey => ?_
    have hx : x ≠ e := by
      rintro rfl
      exact hk hkey.symm
    have hx' : x ≠ f e := by
      rintro rfl
      exact hk (hkey.symm.trans hf)
    simp [hx, hx']

theorem lookup_remove (h : Chained key hash table) (hl : lookup key hash table k = some e) (k' : κ) :
    lookup key hash (table.modify (slot hash table k) (removeFirst key k)) k' =
      if k' = k then none else lookup key hash table k' := by
  obtain ⟨hwf, hperm⟩ := remove_spec h hl
  obtain ⟨he, rfl⟩ := (lookup_eq_some_iff h).mp hl
  have hn := (hperm.map key).nodup_iff.mp h.nodup
  rw [map_cons, nodup_cons] at hn
  by_cases hk : k' = key e
  · rw [if_pos hk, lookup_eq_none_iff hwf, hk]
    exact hn.1
  · rw [if_neg hk]
    refine Option.ext fun x => ?_
    rw [lookup_eq_some_iff hwf, lookup_eq_some_iff h, hperm.mem_iff, mem_cons]
    refine and_congr_left fun hkey => ⟨.inr, fun hx => hx.resolve_left ?_⟩
    rintro rfl
    exact hk hkey.symm

theorem lookup_of_perm {table' : List (List ε)} (h : Chained key hash table) (h' : Chained key hash table')
    (hperm : table'.flatten.Perm table.flatten) : lookup key hash table' = lookup key hash table := by
  refine funext fun k => Option.ext fun x => ?_
  rw [lookup_eq_some_iff h', lookup_eq_some_iff h, hperm.mem_iff]

/-- The keys that are found are as many as there are entries. -/
theorem length_flatten (h : Chained key hash table) :
    table.flatten.length = {k | (lookup key hash table k).isSome}.ncard := by
  have hset : {k | (lookup key hash table k).isSome} = ((table.flatten.map key).toFinset : Set κ) := by
    ext k
    rw [Set.mem_ofPred_eq, coe_toFinset, Set.mem_ofPred_eq, ← Option.ne_none_iff_isSome, ne_eq,
      lookup_eq_none_iff h, not_not]
  rw [hset, Set.ncard_coe_finset, toFinset_card_of_nodup h.nodup, length_map]

end Map

end ChainedTable

/-! Tables with open addressing. A probe goes from bucket to bucket, cyclically and for a limited
number of steps, until it meets a free bucket or the bucket of its key. -/

namespace OpenAddressing

variable {β κ : Type*} (key : β → κ)

/-- The bucket that is found from `p` on in a number of steps. -/
def probe [DecidableEq κ] (space : List (Option β)) (k : κ) : ℕ → ℕ → Option ℕ
  | 0, _ => none
  | i + 1, p =>
    let p := if p ≥ space.length then 0 else p
    match space[p]? with
    | none => none
    | some none => some p
    | some (some b) => if key b = k then some p else probe space k i (p + 1)

/-- The bucket `p` holds the key. -/
def Placed (space : List (Option β)) (k : κ) (p : ℕ) : Prop := ∃ b, space[p]? = some (some b) ∧ key b = k

/-- A probe for the key stops at `p`. -/
def StopsAt (space : List (Option β)) (k : κ) (p : ℕ) : Prop := space[p]? = some none ∨ Placed key space k p

variable {key} {space : List (Option β)} {k k' : κ} {i p₀ p q : ℕ} {b : β}

theorem probe_succ [DecidableEq κ] : probe key space k (i + 1) p₀ =
    match space[if p₀ ≥ space.length then 0 else p₀]? with
    | none => none
    | some none => some (if p₀ ≥ space.length then 0 else p₀)
    | some (some b) =>
      if key b = k then some (if p₀ ≥ space.length then 0 else p₀)
      else probe key space k i ((if p₀ ≥ space.length then 0 else p₀) + 1) :=
  rfl

theorem Placed.unique (h : Placed key space k p) (h' : Placed key space k' p) : k = k' := by
  obtain ⟨b, hb, rfl⟩ := h
  obtain ⟨b', hb', rfl⟩ := h'
  rw [hb] at hb'
  cases hb'
  rfl

theorem StopsAt.lt_length (h : StopsAt key space k p) : p < space.length := by
  obtain hempty | ⟨b, hb, -⟩ := h
  · exact (List.getElem?_eq_some_iff.mp hempty).1
  · exact (List.getElem?_eq_some_iff.mp hb).1

theorem StopsAt.key_eq (h : StopsAt key space k p) (hb : space.getD p none = some b) : key b = k := by
  rw [List.getD_eq_getElem?_getD] at hb
  obtain hempty | ⟨b', hb', hkey⟩ := h
  · rw [hempty] at hb
    cases hb
  · rw [hb'] at hb
    cases hb
    exact hkey

variable [DecidableEq κ]

theorem probe_stops (h : probe key space k i p₀ = some p) : StopsAt key space k p := by
  induction i generalizing p₀ with
  | zero => cases h
  | succ i ih =>
    rw [probe_succ] at h
    split at h
    · cases h
    · rename_i hempty
      cases h
      exact .inl hempty
    · rename_i b hb
      by_cases hkey : key b = k
      · rw [if_pos hkey] at h
        cases h
        exact .inr ⟨b, hb, hkey⟩
      · rw [if_neg hkey] at h
        exact ih h

/-- The bucket that was found is found again when it has been filled. -/
theorem probe_set (h : probe key space k i p₀ = some p) (hb : key b = k) :
    probe key (space.set p (some b)) k i p₀ = some p := by
  induction i generalizing p₀ with
  | zero => cases h
  | succ i ih =>
    have hlt := (probe_stops h).lt_length
    simp only [probe_succ, List.length_set] at h ⊢
    set q := if p₀ ≥ space.length then 0 else p₀
    by_cases hq : q = p
    · rw [hq, List.getElem?_set_self hlt]
      simp only [hb, if_true]
    · rw [List.getElem?_set_ne (Ne.symm hq)]
      split at h
      · cases h
      · exact absurd (Option.some.inj h) hq
      · split_ifs at h ⊢ with hkey
        · exact absurd (Option.some.inj h) hq
        · exact ih h

/-- Filling another bucket with another key does not matter. -/
theorem probe_set_other (h : probe key space k i p₀ = some p) (hne : q ≠ p) (hb : key b ≠ k) :
    probe key (space.set q (some b)) k i p₀ = some p := by
  induction i generalizing p₀ with
  | zero => cases h
  | succ i ih =>
    simp only [probe_succ, List.length_set] at h ⊢
    set r := if p₀ ≥ space.length then 0 else p₀
    by_cases hr : q = r
    · -- the probe went past this bucket, so it held a key already
      rw [← hr] at h ⊢
      split at h
      · cases h
      · exact absurd (Option.some.inj h) hne
      · rename_i b' hb'
        rw [List.getElem?_set_self (List.getElem?_eq_some_iff.mp hb').1]
        split_ifs at h with hkey
        · exact absurd (Option.some.inj h) hne
        · simp only [if_neg hb]
          exact ih h
    · rw [List.getElem?_set_ne hr]
      split at h
      · cases h
      · exact h
      · split_ifs at h ⊢ with hkey
        · exact h
        · exact ih h

/-- A probe succeeds exactly if it can stop at one of the buckets within its limit. -/
theorem probe_ne_none_iff (hlen : space.length ≠ 0) (hp : p₀ ≤ space.length) :
    probe key space k i p₀ ≠ none ↔ ∃ j < i, StopsAt key space k ((p₀ + j) % space.length) := by
  induction i generalizing p₀ with
  | zero => exact ⟨fun h => absurd rfl h, fun ⟨j, hj, _⟩ => absurd hj (Nat.not_lt_zero j)⟩
  | succ i ih =>
    have hq : (if p₀ ≥ space.length then 0 else p₀) = p₀ % space.length := by
      split_ifs with hge
      · rw [le_antisymm hp hge, Nat.mod_self]
      · rw [Nat.mod_eq_of_lt (not_le.mp hge)]
    have hlt : p₀ % space.length < space.length := Nat.mod_lt _ (Nat.pos_of_ne_zero hlen)
    have hrest : (∃ j < i + 1, StopsAt key space k ((p₀ + j) % space.length)) ↔
        StopsAt key space k (p₀ % space.length) ∨
          ∃ j < i, StopsAt key space k ((p₀ % space.length + 1 + j) % space.length) := by
      rw [Nat.exists_lt_succ_left]
      refine or_congr (by rw [Nat.add_zero]) (exists_congr fun j => and_congr_right fun _ => ?_)
      rw [Nat.add_assoc, Nat.mod_add_mod, Nat.add_comm 1 j]
    rw [hrest]
    simp only [probe_succ, hq]
    have hget := List.getElem?_eq_getElem hlt
    cases hcell : space[p₀ % space.length] with
    | none =>
      rw [hcell] at hget
      rw [hget]
      exact iff_of_true (Option.some_ne_none _) (.inl (.inl hget))
    | some b =>
      rw [hcell] at hget
      rw [hget]
      by_cases hkey : key b = k
      · simp only [if_pos hkey]
        exact iff_of_true (Option.some_ne_none _) (.inl (.inr ⟨b, hget, hkey⟩))
      · have hgo : ¬StopsAt key space k (p₀ % space.length) := by
          rintro (hempty | ⟨b', hb', hkey'⟩)
          · rw [hget] at hempty
            cases hempty
          · rw [hget] at hb'
            cases hb'
            exact hkey hkey'
        rw [or_iff_right hgo]
        simp only [if_neg hkey]
        exact ih hlt

end OpenAddressing
