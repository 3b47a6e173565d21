import CWB.Sanity.Matchlist

/-! The three merge loops of `RangeSetop` on operands ordered by `RangeSort`.
The loops advance the operand whose range ends first, the sort puts the longer
range first, so a range is recognised as common only while the two operands
agree on everything longer with the same start. -/

namespace CWB

open List

/-- The ranges an intersection leaves unmarked. -/
def found (as bs : List Match) : List (ℤ × ℤ) := keptPairs (intersectionLoop as bs)

/-- The strict order in which `RangeSort` leaves a list without duplicates. -/
def Before (a b : Match) : Prop := a.start < b.start ∨ (a.start = b.start ∧ b.stop < a.stop)

@[simp] theorem pair_rsCpRange (c : CorpusList) (m : Match) : (rsCpRange c m).pair = m.pair := rfl

theorem pair_eq_of {a b : Match} (h1 : ¬ a.start < b.start) (h2 : ¬ a.start > b.start)
    (h3 : a.stop = b.stop) : a.pair = b.pair := by
  simp only [Match.pair, Prod.mk.injEq]; omega

/-- `RDiff` keeps exactly what `RIntersection` marks. -/
theorem diff_count (p : ℤ × ℤ) (as bs : List Match) (h : Valid as) :
    (keptPairs (diffLoop as bs)).count p + (found as bs).count p = (as.map Match.pair).count p := by
  unfold found
  induction as, bs using intersectionLoop.induct with
  | case1 bs => simp [diffLoop, intersectionLoop, keptPairs]
  | case2 a as ih =>
    obtain ⟨ha, hv⟩ := valid_cons h
    have hm : keptPairs (intersectionLoop (a :: as) []) = keptPairs (intersectionLoop as []) := by
      rw [intersectionLoop, keptPairs_cons_mark]
    have hd : diffLoop as [] = as := by cases as <;> simp [diffLoop]
    have := ih hv
    rw [hd] at this
    simp only [diffLoop, hm, keptPairs_cons a as ha, map_cons, count_cons] at this ⊢
    omega
  | case3 a as b bs hlt ih =>
    obtain ⟨ha, hv⟩ := valid_cons h
    have := ih hv
    simp only [diffLoop, intersectionLoop, hlt, if_true, keptPairs_cons_mark,
      keptPairs_cons a _ ha, map_cons, count_cons] at this ⊢
    omega
  | case4 a as b bs hlt hgt ih =>
    simpa only [diffLoop, intersectionLoop, hlt, hgt, if_true, if_false] using ih h
  | case5 a as b bs hlt hgt he ih =>
    obtain ⟨ha, hv⟩ := valid_cons h
    have := ih hv
    simp only [diffLoop, intersectionLoop, hlt, hgt, he, if_true, if_false, keptPairs_cons_mark,
      keptPairs_cons a _ ha, map_cons, count_cons] at this ⊢
    omega
  | case6 a as b bs hlt hgt hne hle ih =>
    obtain ⟨ha, hv⟩ := valid_cons h
    have := ih hv
    simp only [diffLoop, intersectionLoop, hlt, hgt, hne, hle, if_true, if_false,
      keptPairs_cons_mark, keptPairs_cons a _ ha, map_cons, count_cons] at this ⊢
    omega
  | case7 a as b bs hlt hgt hne hle ih =>
    simpa only [diffLoop, intersectionLoop, hlt, hgt, hne, hle, if_true, if_false] using ih h

/-- `RUnion` copies both operands and leaves out one copy of each range that
`RIntersection` recognises as common. -/
theorem union_count (p : ℤ × ℤ) (c1 c2 : CorpusList) (as bs : List Match) (h : Valid as) :
    ((unionLoop (rsCpRange c1) (rsCpRange c2) as (bs.map fun b => (b, true))).map Match.pair).count p
      + (found as bs).count p = (as.map Match.pair).count p + (bs.map Match.pair).count p := by
  unfold found
  induction as, bs using intersectionLoop.induct with
  | case1 bs =>
    have hu : ∀ bs : List Match,
        (unionLoop (rsCpRange c1) (rsCpRange c2) [] (bs.map fun b => (b, true))).map Match.pair
          = bs.map Match.pair := by
      intro bs
      induction bs with
      | nil => simp [unionLoop]
      | cons b bs ih => simpa [unionLoop] using ih
    simp [hu, intersectionLoop, keptPairs]
  | case2 a as ih =>
    obtain ⟨ha, hv⟩ := valid_cons h
    have := ih hv
    simp only [map_nil, unionLoop, intersectionLoop, keptPairs_cons_mark, map_cons,
      pair_rsCpRange, count_cons] at this ⊢
    omega
  | case3 a as b bs hlt ih =>
    obtain ⟨ha, hv⟩ := valid_cons h
    have := ih hv
    simp only [map_cons, unionLoop, intersectionLoop, hlt, if_true, keptPairs_cons_mark,
      pair_rsCpRange, count_cons] at this ⊢
    omega
  | case4 a as b bs hlt hgt ih =>
    have := ih h
    simp only [map_cons, unionLoop, intersectionLoop, hlt, hgt, if_true, if_false,
      pair_rsCpRange, count_cons] at this ⊢
    omega
  | case5 a as b bs hlt hgt he ih =>
    obtain ⟨ha, hv⟩ := valid_cons h
    have := ih hv
    simp only [map_cons, unionLoop, intersectionLoop, hlt, hgt, he, if_true, if_false,
      keptPairs_cons a _ ha, pair_rsCpRange, count_cons, pair_eq_of hlt hgt he] at this ⊢
    omega
  | case6 a as b bs hlt hgt hne hle ih =>
    obtain ⟨ha, hv⟩ := valid_cons h
    have := ih hv
    simp only [map_cons, unionLoop, intersectionLoop, hlt, hgt, hne, hle, if_true, if_false,
      keptPairs_cons_mark, pair_rsCpRange, count_cons] at this ⊢
    omega
  | case7 a as b bs hlt hgt hne hle ih =>
    have := ih h
    simp only [map_cons, unionLoop, intersectionLoop, hlt, hgt, hne, hle, if_true, if_false,
      pair_rsCpRange, count_cons] at this ⊢
    omega

/-- Both operands or neither hold each range longer than `p` with the start of `p`. -/
def Agree (A B : List (ℤ × ℤ)) (p : ℤ × ℤ) : Prop :=
  ∀ e, p.2 < e → ((p.1, e) ∈ A ↔ (p.1, e) ∈ B)

def Common (A B : List (ℤ × ℤ)) (p : ℤ × ℤ) : Prop := p ∈ A ∧ p ∈ B ∧ Agree A B p

theorem agree_comm (A B : List (ℤ × ℤ)) (p : ℤ × ℤ) : Agree A B p ↔ Agree B A p :=
  ⟨fun h e he => (h e he).symm, fun h e he => (h e he).symm⟩

theorem common_comm (A B : List (ℤ × ℤ)) (p : ℤ × ℤ) : Common A B p ↔ Common B A p := by
  unfold Common; rw [agree_comm]; tauto

variable {p : ℤ × ℤ}

theorem mem_cons_ne_start {x : ℤ × ℤ} (A : List (ℤ × ℤ)) (h : p.1 ≠ x.1) (e : ℤ) :
    (p.1, e) ∈ x :: A ↔ (p.1, e) ∈ A := by
  rw [mem_cons]
  exact ⟨fun h' => h'.resolve_left fun hx => h (by rw [← hx]), Or.inr⟩

/-- A range with another start plays no role for `p`. -/
theorem common_cons_left {x : ℤ × ℤ} (A B : List (ℤ × ℤ)) (h : p.1 ≠ x.1) :
    Common (x :: A) B p ↔ Common A B p := by
  unfold Common Agree
  rw [show p ∈ x :: A ↔ p ∈ A from mem_cons_ne_start A h p.2]
  simp only [mem_cons_ne_start A h]

/-- A longer range in the second operand alone keeps `p` from being recognised. -/
theorem not_common_of_longer {A B : List (ℤ × ℤ)} {e : ℤ} (he : p.2 < e)
    (hB : (p.1, e) ∈ B) (hA : (p.1, e) ∉ A) : ¬ Common A B p :=
  fun h => hA ((h.2.2 e he).mpr hB)

theorem common_cons_same {x : ℤ × ℤ} {A B : List (ℤ × ℤ)} (hA : x ∉ A) (hB : x ∉ B)
    (p : ℤ × ℤ) (hp : p ≠ x) : Common (x :: A) (x :: B) p ↔ Common A B p := by
  have hx : ∀ q, (q ∈ x :: A ↔ q ∈ x :: B) ↔ (q ∈ A ↔ q ∈ B) := by
    intro q
    by_cases hq : q = x
    · subst hq; simp [hA, hB]
    · simp [hq]
  have hmem : ∀ C, p ∈ x :: C ↔ p ∈ C := fun C => by simp [hp]
  unfold Common Agree
  rw [hmem A, hmem B]
  simp only [hx]

theorem before_pair {a : Match} {l : List Match} (h : ∀ m ∈ l, Before a m)
    (hp : p ∈ l.map Match.pair) : a.start < p.1 ∨ (a.start = p.1 ∧ p.2 < a.stop) := by
  obtain ⟨m, hm, rfl⟩ := mem_map.mp hp
  exact h m hm

theorem start_le_of_mem {a : Match} {l : List Match} (h : ∀ m ∈ l, Before a m)
    (hp : p ∈ (a :: l).map Match.pair) : a.start ≤ p.1 ∧ (p.1 = a.start → p.2 ≤ a.stop) := by
  rcases mem_cons.mp hp with rfl | hp
  · exact ⟨le_rfl, fun _ => le_rfl⟩
  · rcases before_pair h hp with h | h
    · exact ⟨h.le, fun h' => by omega⟩
    · exact ⟨h.1.le, fun _ => h.2.le⟩

/-- With equal starts and `a` shorter than `b`, the loop gives `a` up, and rightly
so: `b` is longer than anything left in the first operand. -/
theorem common_shorter {a b : Match} {as : List Match} (ha : ∀ m ∈ as, Before a m)
    (hs : a.start = b.start) (hlt : a.stop < b.stop) (B : List (ℤ × ℤ)) (hB : b.pair ∈ B)
    (p : ℤ × ℤ) : Common ((a :: as).map Match.pair) B p ↔ Common (as.map Match.pair) B p := by
  by_cases hp : p.1 = a.start
  · have hb : (p.1, b.stop) ∈ B := by rw [hp, hs]; exact hB
    have hbA : (p.1, b.stop) ∉ (a :: as).map Match.pair := fun h => by
      have := (start_le_of_mem ha h).2 hp; simp at this; omega
    have hbA' : (p.1, b.stop) ∉ as.map Match.pair := fun h => hbA (mem_cons_of_mem _ h)
    constructor
    · intro h
      have := (start_le_of_mem ha h.1).2 hp
      exact absurd h (not_common_of_longer (by omega) hb hbA)
    · intro h
      have := (start_le_of_mem ha (mem_cons_of_mem a.pair h.1)).2 hp
      exact absurd h (not_common_of_longer (by omega) hb hbA')
  · exact common_cons_left _ _ hp

/-- The recognised ranges: those in both operands on which everything longer agrees. -/
theorem mem_found_iff (p : ℤ × ℤ) (as bs : List Match) (ha : as.Pairwise Before)
    (hb : bs.Pairwise Before) (hv : Valid as) :
    p ∈ found as bs ↔ Common (as.map Match.pair) (bs.map Match.pair) p := by
  unfold found
  induction as, bs using intersectionLoop.induct with
  | case1 bs => simp [intersectionLoop, keptPairs, Common]
  | case2 a as ih =>
    rw [intersectionLoop, keptPairs_cons_mark, ih (pairwise_cons.mp ha).2 hb (valid_cons hv).2]
    simp [Common]
  | case3 a as b bs hlt ih =>
    obtain ⟨-, ha2⟩ := pairwise_cons.mp ha
    obtain ⟨hb1, -⟩ := pairwise_cons.mp hb
    rw [intersectionLoop, if_pos hlt, keptPairs_cons_mark, ih ha2 hb (valid_cons hv).2]
    by_cases hp : p.1 = a.start
    · have hnB : p ∉ (b :: bs).map Match.pair := fun h => by
        have := (start_le_of_mem hb1 h).1; omega
      exact ⟨fun h => absurd h.2.1 hnB, fun h => absurd h.2.1 hnB⟩
    · exact (common_cons_left _ _ hp).symm
  | case4 a as b bs hlt hgt ih =>
    obtain ⟨ha1, -⟩ := pairwise_cons.mp ha
    obtain ⟨-, hb2⟩ := pairwise_cons.mp hb
    rw [intersectionLoop, if_neg hlt, if_pos hgt, ih ha hb2 hv]
    by_cases hp : p.1 = b.start
    · have hnA : p ∉ (a :: as).map Match.pair := fun h => by
        have := (start_le_of_mem ha1 h).1; omega
      exact ⟨fun h => absurd h.1 hnA, fun h => absurd h.1 hnA⟩
    · rw [common_comm, common_comm _ ((b :: bs).map Match.pair)]
      exact (common_cons_left _ _ hp).symm
  | case5 a as b bs hlt hgt he ih =>
    obtain ⟨ha1, ha2⟩ := pairwise_cons.mp ha
    obtain ⟨hb1, hb2⟩ := pairwise_cons.mp hb
    have hab := pair_eq_of hlt hgt he
    have hnA : a.pair ∉ as.map Match.pair := fun h => by
      rcases before_pair ha1 h with h | h <;> simp [Match.pair] at h
    have hnB : a.pair ∉ bs.map Match.pair := fun h => by
      rw [hab] at h
      rcases before_pair hb1 h with h | h <;> simp [Match.pair] at h
    rw [intersectionLoop, if_neg hlt, if_neg hgt, if_pos he, keptPairs_cons _ _ (valid_cons hv).1,
      mem_cons, ih ha2 hb2 (valid_cons hv).2, map_cons, map_cons, ← hab]
    by_cases hp : p = a.pair
    · subst hp
      refine iff_of_true (.inl rfl) ⟨by simp, by simp, fun e hlt' => ?_⟩
      -- nothing longer than the head in either operand
      have hA : (a.pair.1, e) ∉ a.pair :: as.map Match.pair := fun h => by
        have := (start_le_of_mem ha1 h).2 rfl; simp [Match.pair] at this hlt'; omega
      have hB : (a.pair.1, e) ∉ a.pair :: bs.map Match.pair := fun h => by
        rw [hab] at h hlt'
        have := (start_le_of_mem hb1 h).2 rfl; simp [Match.pair] at this hlt'; omega
      exact iff_of_false hA hB
    · rw [common_cons_same hnA hnB p hp]
      exact ⟨fun h => h.resolve_left hp, Or.inr⟩
  | case6 a as b bs hlt hgt hne hle ih =>
    obtain ⟨ha1, ha2⟩ := pairwise_cons.mp ha
    rw [intersectionLoop, if_neg hlt, if_neg hgt, if_neg hne, if_pos hle, keptPairs_cons_mark,
      ih ha2 hb (valid_cons hv).2]
    exact (common_shorter ha1 (by omega) hle _ (by simp) p).symm
  | case7 a as b bs hlt hgt hne hle ih =>
    obtain ⟨hb1, hb2⟩ := pairwise_cons.mp hb
    rw [intersectionLoop, if_neg hlt, if_neg hgt, if_neg hne, if_neg hle, ih ha hb2 hv,
      common_comm, common_comm _ ((b :: bs).map Match.pair)]
    exact (common_shorter hb1 (b := a) (by omega) (by omega) _ (by simp) p).symm

/-! What `RangeSort` leaves. -/

theorem rsLe_iff (a b : Match) :
    rsLe a b = true ↔ a.start < b.start ∨ (a.start = b.start ∧ b.stop ≤ a.stop) := by
  unfold rsLe rsCompareRanges
  split_ifs <;> simp <;> omega

theorem rangeSort_perm (c : CorpusList) (mk : Bool) (h : c.type ≠ .system) :
    (rangeSort c mk).range.Perm c.range := by
  have hp : ((c.range.zipIdx.mergeSort fun a b => rsLe a.1 b.1).map Prod.fst).Perm c.range := by
    have := (mergeSort_perm c.range.zipIdx fun a b => rsLe a.1 b.1).map Prod.fst
    rwa [zipIdx_map_fst] at this
  cases hc : c.type with
  | system => exact absurd hc h
  | sub => simpa only [rangeSort, hc] using hp
  | temp => simpa only [rangeSort, hc] using hp

theorem rangeSort_pairwise (c : CorpusList) (mk : Bool) (h : c.type ≠ .system) :
    (rangeSort c mk).range.Pairwise (fun a b => rsLe a b = true) := by
  have hs : ((c.range.zipIdx.mergeSort fun a b => rsLe a.1 b.1).map Prod.fst).Pairwise
      (fun a b => rsLe a b = true) := by
    rw [pairwise_map]
    apply pairwise_mergeSort
    · intro a b c h1 h2
      rw [rsLe_iff] at *
      omega
    · intro a b
      rw [Bool.or_eq_true, rsLe_iff, rsLe_iff]
      omega
  cases hc : c.type with
  | system => exact absurd hc h
  | sub => simpa only [rangeSort, hc] using hs
  | temp => simpa only [rangeSort, hc] using hs

theorem rangeSort_before (c : CorpusList) (mk : Bool) (h : c.type ≠ .system)
    (hn : c.pairs.Nodup) : (rangeSort c mk).range.Pairwise Before := by
  have hnd : ((rangeSort c mk).range.map Match.pair).Nodup :=
    (((rangeSort_perm c mk h).map Match.pair).nodup_iff).mpr hn
  refine ((rangeSort_pairwise c mk h).and (pairwise_map.mp hnd)).imp ?_
  rintro a b ⟨h1, h2⟩
  rw [rsLe_iff] at h1
  rcases h1 with h1 | ⟨h1, h3⟩
  · exact .inl h1
  · refine .inr ⟨h1, lt_of_le_of_ne h3 fun h => h2 ?_⟩
    simp [Match.pair, h1, h]

/-- A query result as `do_undump` and `do_translate` accept it: no range twice,
no negative position. -/
structure WellFormed (c : CorpusList) : Prop where
  query : c.type ≠ .system
  nodup : c.pairs.Nodup
  valid : Valid c.range

theorem rangeSort_valid {c : CorpusList} (mk : Bool) (h : WellFormed c) :
    Valid (rangeSort c mk).range :=
  fun m hm => h.valid m ((rangeSort_perm c mk h.query).mem_iff.mp hm)

theorem rangeSort_pairs {c : CorpusList} (mk : Bool) (h : WellFormed c) (p : ℤ × ℤ) :
    p ∈ (rangeSort c mk).pairs ↔ p ∈ c.pairs :=
  ((rangeSort_perm c mk h.query).map Match.pair).mem_iff

theorem rangeSort_count {c : CorpusList} (mk : Bool) (h : WellFormed c) (p : ℤ × ℤ) :
    (rangeSort c mk).pairs.count p = if p ∈ c.pairs then 1 else 0 := by
  rw [show (rangeSort c mk).pairs.count p = c.pairs.count p from
    ((rangeSort_perm c mk h.query).map Match.pair).count_eq p]
  exact h.nodup.count

theorem pairs_rUnion (c1 c2 : CorpusList) (h : Valid c1.range) (p : ℤ × ℤ) :
    (rUnion c1 c2 none).pairs.count p + (found c1.range c2.range).count p
      = c1.pairs.count p + c2.pairs.count p := by
  unfold rUnion
  split_ifs with hz
  · have hnil : c2.range = [] := length_eq_zero_iff.mp hz
    have hf : found c1.range [] = [] := by
      unfold found
      induction c1.range with
      | nil => simp [intersectionLoop, keptPairs]
      | cons a as ih => rw [intersectionLoop, keptPairs_cons_mark, ih]
    simp [CorpusList.pairs, hnil, hf]
  · have hb : (c2.range.zipIdx.map fun q => (q.1, ((none : Option (ℕ → Bool)).map (· q.2)).getD true))
        = c2.range.map fun b => (b, true) := by
      conv_rhs => rw [← zipIdx_map_fst 0 c2.range, map_map]
      rfl
    simp only [CorpusList.pairs, hb]
    exact union_count p c1 c2 c1.range c2.range h

/-- The exactness of one operation: the set of ranges `S`, each of them once. -/
def Yields (c : CorpusList) (S : Set (ℤ × ℤ)) : Prop :=
  c.pairs.Nodup ∧ ∀ p, p ∈ c.pairs ↔ p ∈ S

theorem yields_iff_count (c : CorpusList) (S : Set (ℤ × ℤ)) [DecidablePred (· ∈ S)] :
    Yields c S ↔ ∀ p, c.pairs.count p = if p ∈ S then 1 else 0 := by
  constructor
  · rintro ⟨hn, hm⟩ p
    rw [hn.count]
    simp [hm p]
  · intro h
    refine ⟨nodup_iff_count_le_one.mpr fun p => ?_, fun p => ?_⟩
    · rw [h p]; split_ifs <;> simp
    · rw [← count_pos_iff, h p]
      split_ifs with hp <;> simp [hp]

/-- A range in both results has no longer sibling, with the same start, in one of
them only. -/
def SharedPrefix (c1 c2 : CorpusList) : Prop :=
  ∀ p, p ∈ c1.pairs → p ∈ c2.pairs → Agree c1.pairs c2.pairs p

/-- The condition says that no common range goes unrecognised. -/
theorem sharedPrefix_iff (c1 c2 : CorpusList) :
    SharedPrefix c1 c2 ↔ ∀ p, Common c1.pairs c2.pairs p ↔ p ∈ c1.pairs ∧ p ∈ c2.pairs :=
  ⟨fun h p => ⟨fun hC => ⟨hC.1, hC.2.1⟩, fun hp => ⟨hp.1, hp.2, h p hp.1 hp.2⟩⟩,
    fun h p hp1 hp2 => ((h p).mpr ⟨hp1, hp2⟩).2.2⟩

section Sorted

variable {c1 c2 : CorpusList} (mk1 mk2 : Bool) (h1 : WellFormed c1) (h2 : WellFormed c2)

include h1 h2

/-- The ranges recognised as common after sorting, in terms of the unsorted operands. -/
theorem mem_found_sorted (p : ℤ × ℤ) :
    p ∈ found (rangeSort c1 mk1).range (rangeSort c2 mk2).range ↔ Common c1.pairs c2.pairs p := by
  rw [mem_found_iff p _ _ (rangeSort_before c1 mk1 h1.query h1.nodup)
    (rangeSort_before c2 mk2 h2.query h2.nodup) (rangeSort_valid mk1 h1)]
  have e1 := rangeSort_pairs mk1 h1
  have e2 := rangeSort_pairs mk2 h2
  unfold CorpusList.pairs at e1 e2 ⊢
  simp only [Common, Agree, e1, e2]

open Classical in
theorem found_count (p : ℤ × ℤ) :
    (found (rangeSort c1 mk1).range (rangeSort c2 mk2).range).count p
      = if Common c1.pairs c2.pairs p then 1 else 0 := by
  have hle := diff_count p (rangeSort c1 mk1).range (rangeSort c2 mk2).range (rangeSort_valid mk1 h1)
  have hc : ((rangeSort c1 mk1).range.map Match.pair).count p = if p ∈ c1.pairs then 1 else 0 :=
    rangeSort_count mk1 h1 p
  have hpos := count_pos_iff (a := p)
    (l := found (rangeSort c1 mk1).range (rangeSort c2 mk2).range)
  rw [mem_found_sorted mk1 mk2 h1 h2] at hpos
  have hle1 : (if p ∈ c1.pairs then 1 else 0) ≤ 1 := by split_ifs <;> simp
  by_cases hC : Common c1.pairs c2.pairs p
  · have := hpos.mpr hC
    rw [if_pos hC]
    omega
  · have := mt hpos.mp hC
    rw [if_neg hC]
    omega

theorem intersection_exact_iff :
    Yields (rangeSetop (rangeSort c1 mk1) .intersection (rangeSort c2 mk2) none)
      {p | p ∈ c1.pairs ∧ p ∈ c2.pairs} ↔ SharedPrefix c1 c2 := by
  classical
  rw [yields_iff_count, sharedPrefix_iff]
  refine forall_congr' fun p => ?_
  have hr : (rangeSetop (rangeSort c1 mk1) .intersection (rangeSort c2 mk2) none).pairs
      = found (rangeSort c1 mk1).range (rangeSort c2 mk2).range := pairs_rReduce _
  rw [hr, found_count mk1 mk2 h1 h2]
  simp only [Set.mem_ofPred_eq]
  by_cases hC : Common c1.pairs c2.pairs p <;>
    by_cases hp : p ∈ c1.pairs ∧ p ∈ c2.pairs <;> simp only [hC, hp] <;> decide

theorem diff_exact_iff :
    Yields (rangeSetop (rangeSort c1 mk1) .diff (rangeSort c2 mk2) none)
      {p | p ∈ c1.pairs ∧ p ∉ c2.pairs} ↔ SharedPrefix c1 c2 := by
  classical
  rw [yields_iff_count, sharedPrefix_iff]
  refine forall_congr' fun p => ?_
  have hr : (rangeSetop (rangeSort c1 mk1) .diff (rangeSort c2 mk2) none).pairs
      = keptPairs (diffLoop (rangeSort c1 mk1).range (rangeSort c2 mk2).range) := pairs_rReduce _
  have hd : (keptPairs (diffLoop (rangeSort c1 mk1).range (rangeSort c2 mk2).range)).count p
      + (if Common c1.pairs c2.pairs p then 1 else 0) = if p ∈ c1.pairs then 1 else 0 := by
    rw [← found_count mk1 mk2 h1 h2, ← rangeSort_count mk1 h1]
    exact diff_count p _ _ (rangeSort_valid mk1 h1)
  rw [hr]
  simp only [Set.mem_ofPred_eq]
  by_cases hC : Common c1.pairs c2.pairs p
  · have hp := And.intro hC.1 hC.2.1
    simp only [hC, hp, if_true] at hd ⊢
    simpa using hd
  · by_cases hp1 : p ∈ c1.pairs <;> by_cases hp2 : p ∈ c2.pairs <;>
      simp only [hC, hp1, hp2, if_true, if_false] at hd ⊢ <;> simp <;> omega

theorem union_exact_iff :
    Yields (rangeSetop (rangeSort c1 mk1) .union (rangeSort c2 mk2) none)
      {p | p ∈ c1.pairs ∨ p ∈ c2.pairs} ↔ SharedPrefix c1 c2 := by
  classical
  rw [yields_iff_count, sharedPrefix_iff]
  refine forall_congr' fun p => ?_
  have hu : (rangeSetop (rangeSort c1 mk1) .union (rangeSort c2 mk2) none).pairs.count p
      + (if Common c1.pairs c2.pairs p then 1 else 0)
        = (if p ∈ c1.pairs then 1 else 0) + if p ∈ c2.pairs then 1 else 0 := by
    rw [← found_count mk1 mk2 h1 h2, ← rangeSort_count mk1 h1, ← rangeSort_count mk2 h2]
    exact pairs_rUnion _ _ (rangeSort_valid mk1 h1) p
  simp only [Set.mem_ofPred_eq]
  by_cases hC : Common c1.pairs c2.pairs p
  · have hp := And.intro hC.1 hC.2.1
    simp only [hC, hp, if_true] at hu ⊢
    simpa using hu
  · by_cases hp1 : p ∈ c1.pairs <;> by_cases hp2 : p ∈ c2.pairs <;>
      simp only [hC, hp1, hp2, if_true, if_false] at hu ⊢ <;> simp <;> omega

end Sorted

/-- Intersection, difference and union of two results ordered by `RangeSort` are the
set operations, each range once, exactly if common ranges share all longer siblings. -/
theorem rangeSetop_exact_iff (c1 c2 : CorpusList) (mk1 mk2 : Bool)
    (h1 : WellFormed c1) (h2 : WellFormed c2) :
    (Yields (rangeSetop (rangeSort c1 mk1) .intersection (rangeSort c2 mk2) none)
        {p | p ∈ c1.pairs ∧ p ∈ c2.pairs} ∧
      Yields (rangeSetop (rangeSort c1 mk1) .diff (rangeSort c2 mk2) none)
        {p | p ∈ c1.pairs ∧ p ∉ c2.pairs} ∧
      Yields (rangeSetop (rangeSort c1 mk1) .union (rangeSort c2 mk2) none)
        {p | p ∈ c1.pairs ∨ p ∈ c2.pairs}) ↔ SharedPrefix c1 c2 := by
  rw [intersection_exact_iff mk1 mk2 h1 h2, diff_exact_iff mk1 mk2 h1 h2,
    union_exact_iff mk1 mk2 h1 h2, and_self, and_self]

/-- Two ranges with one start in the left operand, the shorter of them in the right. -/
def nested : CorpusList := { range := [⟨0, 1, -1, -1⟩, ⟨0, 2, -1, -1⟩] }

def inner : CorpusList := { range := [⟨0, 1, -1, -1⟩] }

theorem nested_wellFormed : WellFormed nested :=
  ⟨by decide, by decide, by unfold Valid; decide⟩

theorem inner_wellFormed : WellFormed inner :=
  ⟨by decide, by decide, by unfold Valid; decide⟩

theorem nested_inner_not_sharedPrefix : ¬ SharedPrefix nested inner := by
  intro h
  have := h (0, 1) (by decide) (by decide) 2 (by decide)
  exact absurd this (by decide)

theorem rangeSetop_exact_inner :
    SharedPrefix inner inner ∧
      Yields (rangeSetop (rangeSort inner true) .union (rangeSort inner true) none)
        {p | p ∈ inner.pairs ∨ p ∈ inner.pairs} := by
  have hs : SharedPrefix inner inner := fun _ _ _ _ _ => Iff.rfl
  exact ⟨hs, ((rangeSetop_exact_iff inner inner true true inner_wellFormed inner_wellFormed).mpr
    hs).2.2⟩

/-- All three operations fail on `nested` and `inner`: the intersection loses (0, 1),
the difference keeps it and the union lists it twice. -/
theorem rangeSetop_not_exact :
    WellFormed nested ∧ WellFormed inner ∧
      (rangeSetop (rangeSort nested true) .intersection (rangeSort inner true) none).pairs = [] ∧
      ¬ Yields (rangeSetop (rangeSort nested true) .intersection (rangeSort inner true) none)
        {p | p ∈ nested.pairs ∧ p ∈ inner.pairs} ∧
      ¬ Yields (rangeSetop (rangeSort nested true) .diff (rangeSort inner true) none)
        {p | p ∈ nested.pairs ∧ p ∉ inner.pairs} ∧
      ¬ Yields (rangeSetop (rangeSort nested true) .union (rangeSort inner true) none)
        {p | p ∈ nested.pairs ∨ p ∈ inner.pairs} := by
  refine ⟨nested_wellFormed, inner_wellFormed, ?_, ?_, ?_, ?_⟩
  · simp [rangeSetop, rIntersection, pairs_rReduce, rangeSort, nested, inner, CorpusList.size,
      mergeSort, zipIdx, List.MergeSort.Internal.splitInTwo, rsLe,
      rsCompareRanges, intersectionLoop, keptPairs]
  · rw [intersection_exact_iff true true nested_wellFormed inner_wellFormed]
    exact nested_inner_not_sharedPrefix
  · rw [diff_exact_iff true true nested_wellFormed inner_wellFormed]
    exact nested_inner_not_sharedPrefix
  · rw [union_exact_iff true true nested_wellFormed inner_wellFormed]
    exact nested_inner_not_sharedPrefix

end CWB
