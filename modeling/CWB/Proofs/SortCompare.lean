import CWB.Library.Comparators
import CWB.Spec.SortCompare

/-! Two passes over the tokens of the sort intervals give one order on matches. Only ties are broken by what is no
property of the matches: by the addresses where their numbers stand. Groups of matches that are equal in the first
pass are contiguous in any case. -/

namespace CWB

open List Comparators

namespace SortTables

/-- The cache holds the first two IDs of each interval. -/
def Cached (t : SortTables) : Prop :=
  ∀ i, t.sortIdCache (2 * i) = t.srtAttribute.clCpos2id (t.srtStart i) ∧
    (1 < t.len i → t.sortIdCache (2 * i + 1) = t.srtAttribute.clCpos2id (t.srtStart i + t.step i))

/-- The tables of a sort clause, with strings that are compared as some order does under all flags. -/
structure Valid (t : SortTables) : Prop where
  cached : t.Cached
  consistent : ∀ flags reverse, Consistent (t.clStringQsortCompare flags reverse)

theorem valid_sortTables {attr : PAttribute} {compare : ℕ → Bool → String → String → ℤ} {cl : QueryResult}
    {sc : SortClause} {t : SortTables} (ht : sortTables attr compare cl sc = some t)
    (hcompare : ∀ flags reverse, Consistent (compare flags reverse)) : t.Valid := by
  simp only [sortTables] at ht
  generalize (if sc.sortReverse then _ else _) = start at ht
  generalize (if sc.sortReverse then _ else _) = stop at ht
  split_ifs at ht
  cases ht
  refine ⟨fun i => ⟨?_, fun hlen => ?_⟩, hcompare⟩
  · simp [loadSortCache]
  · have hdiv : (2 * i + 1) / 2 = i := by omega
    have hmod : ¬ (2 * i + 1) % 2 = 0 := by omega
    have hstep : (if stop i ≥ start i then 1 else -1 : ℤ) = if stop i < start i then -1 else 1 := by
      split_ifs <;> omega
    have hlen' : (stop i - start i).natAbs + 1 > 1 := hlen
    simp only [loadSortCache, hdiv, if_neg hmod, if_pos hlen', hstep, step]

section Pass

variable (t : SortTables)

def tokenId (idx k : ℕ) : ℤ := t.srtAttribute.clCpos2id (t.srtStart idx + t.step idx * k)

def token (idx k : ℕ) : String := t.srtAttribute.id2str (t.tokenId idx k).toNat

/-- The tokens of the sort interval in the direction in which they are compared. -/
def sortTokens (idx : ℕ) : List String := (List.range (t.len idx)).map (t.token idx)

variable {t} (h : t.Valid)

include h

theorem idAt_eq {idx k : ℕ} (hk : k < t.len idx) :
    t.idAt idx (k + 1) (t.srtStart idx + t.step idx * k) = t.tokenId idx k := by
  unfold idAt tokenId
  obtain ⟨hfirst, hsecond⟩ := h.cached idx
  match k with
  | 0 => simpa using hfirst
  | 1 => simpa using hsecond hk
  | k + 2 => rfl

theorem compareIds_eq (flags : ℕ) (idx1 idx2 k : ℕ) :
    t.compareIds (t.clStringQsortCompare flags t.srtReverse) (t.tokenId idx1 k) (t.tokenId idx2 k) =
      t.clStringQsortCompare flags t.srtReverse (t.token idx1 k) (t.token idx2 k) := by
  unfold compareIds
  by_cases heq : t.tokenId idx1 k = t.tokenId idx2 k
  · rw [if_neg (not_not.mpr heq), token, token, heq, (h.consistent _ _).self]
  · rw [if_pos heq]
    rfl

/-- The loop from the token `k` on, and the lengths: the rest of the two intervals in the lexicographic order. -/
theorem compareLoop_eq (flags idx1 idx2 : ℕ) (m1 m2 k : ℕ) (h1 : k + m1 = t.len idx1) (h2 : k + m2 = t.len idx2) :
    lexicographic (t.clStringQsortCompare flags t.srtReverse) ((range' k m1).map (t.token idx1))
        ((range' k m2).map (t.token idx2)) =
      let comp := t.compareLoop (t.clStringQsortCompare flags t.srtReverse) idx1 idx2 (min m1 m2) (k + 1)
        (t.srtStart idx1 + t.step idx1 * k) (t.srtStart idx2 + t.step idx2 * k)
      if comp = 0 then if m1 > m2 then 1 else if m1 < m2 then -1 else 0 else comp := by
  induction m1 generalizing m2 k with
  | zero =>
    cases m2 with
    | zero => simp [compareLoop, lexicographic]
    | succ m2 => simp [compareLoop, lexicographic, range'_succ]
  | succ m1 ih =>
    cases m2 with
    | zero => simp [compareLoop, lexicographic, range'_succ]
    | succ m2 =>
      have hrest := ih m2 (k + 1) (by omega) (by omega)
      have hpos : ∀ idx, t.srtStart idx + t.step idx * (k + 1 : ℕ) = t.srtStart idx + t.step idx * k + t.step idx := by
        intro idx
        push_cast
        ring
      simp only [range'_succ, map_cons, lexicographic, Nat.add_min_add_right, compareLoop]
      rw [idAt_eq h (by omega), idAt_eq h (by omega), compareIds_eq h]
      by_cases h0 : t.clStringQsortCompare flags t.srtReverse (t.token idx1 k) (t.token idx2 k) = 0
      · rw [if_pos h0, if_pos h0, hrest, hpos, hpos]
        simp only [gt_iff_lt, Nat.add_lt_add_iff_right]
      · rw [if_neg h0, if_neg h0, if_neg h0]

theorem comparePass_eq (flags idx1 idx2 : ℕ) :
    t.comparePass flags idx1 idx2 =
      lexicographic (t.clStringQsortCompare flags t.srtReverse) (t.sortTokens idx1) (t.sortTokens idx2) := by
  have hloop := compareLoop_eq h flags idx1 idx2 (t.len idx1) (t.len idx2) 0 (Nat.zero_add _) (Nat.zero_add _)
  rw [sortTokens, sortTokens, range_eq_range', range_eq_range', hloop]
  simp [comparePass]

theorem comparePass_consistent (flags : ℕ) : Consistent (t.comparePass flags) := by
  have hpass : t.comparePass flags = fun idx1 idx2 =>
      lexicographic (t.clStringQsortCompare flags t.srtReverse) (t.sortTokens idx1) (t.sortTokens idx2) :=
    funext₂ fun idx1 idx2 => comparePass_eq h flags idx1 idx2
  rw [hpass]
  exact (h.consistent flags t.srtReverse).lexicographic.comap t.sortTokens

end Pass

section Order

variable (t : SortTables)

/-- The sort intervals have the same length and are equal token by token under the flags. -/
def SameTokens (flags idx1 idx2 : ℕ) : Prop :=
  Forall₂ (fun s1 s2 => t.clStringQsortCompare flags t.srtReverse s1 s2 = 0) (t.sortTokens idx1) (t.sortTokens idx2)

/-- Neither of the two passes tells the matches apart. -/
def Tied (idx1 idx2 : ℕ) : Prop := t.SameTokens t.srtFlags idx1 idx2 ∧ t.SameTokens 0 idx1 idx2

/-- The comparison in the direction of the sort. -/
def directed (cmp : ℕ → ℕ → ℤ) (idx1 idx2 : ℕ) : ℤ := if t.srtAscending then cmp idx1 idx2 else -cmp idx1 idx2

/-- Both passes, without the addresses. -/
def twoPasses : ℕ → ℕ → ℤ := thenBy (t.comparePass t.srtFlags) (t.comparePass 0)

theorem i2compare_grouping {p q idx1 idx2 : ℕ} (hne : idx1 ≠ idx2) :
    t.i2compare false p q idx1 idx2 = t.directed (t.comparePass t.srtFlags) idx1 idx2 := by
  simp [i2compare, hne, directed]

/-- Where the passes decide, the addresses do not matter. -/
theorem i2compare_of_ne {p q idx1 idx2 : ℕ} (hne : idx1 ≠ idx2) (h0 : t.twoPasses idx1 idx2 ≠ 0) :
    t.i2compare true p q idx1 idx2 = t.directed t.twoPasses idx1 idx2 := by
  unfold twoPasses thenBy at h0
  unfold i2compare directed twoPasses thenBy
  rw [if_neg hne]
  by_cases hfirst : t.comparePass t.srtFlags idx1 idx2 = 0
  · by_cases hflags : t.srtFlags = 0
    · rw [hflags] at hfirst h0
      simp [hfirst] at h0
    · simp only [hfirst, ne_eq, not_true_eq_false, if_false] at h0
      simp [hfirst, hflags, h0]
  · simp [hfirst]

/-- A tie is broken by the addresses. -/
theorem i2compare_of_eq {p q idx1 idx2 : ℕ} (hne : idx1 ≠ idx2) (h0 : t.twoPasses idx1 idx2 = 0) :
    t.i2compare true p q idx1 idx2 = if t.srtAscending then if p > q then 1 else -1 else -if p > q then 1 else -1 := by
  unfold twoPasses thenBy at h0
  unfold i2compare
  rw [if_neg hne]
  by_cases hfirst : t.comparePass t.srtFlags idx1 idx2 = 0
  · simp only [hfirst, ne_eq, not_true_eq_false, if_false] at h0
    by_cases hflags : t.srtFlags = 0
    · simp [hflags, h0]
    · simp [hfirst, h0]
  · simp [hfirst] at h0

theorem directed_consistent {cmp : ℕ → ℕ → ℤ} (hcmp : Consistent cmp) : Consistent (t.directed cmp) := by
  by_cases hasc : t.srtAscending = true
  · have hdir : t.directed cmp = cmp := funext₂ fun a b => if_pos hasc
    rwa [hdir]
  · have hdir : t.directed cmp = fun a b => -cmp a b := funext₂ fun a b => if_neg hasc
    rw [hdir]
    exact hcmp.neg

variable {t} (h : t.Valid)

include h

theorem sameTokens_iff (flags idx1 idx2 : ℕ) : t.comparePass flags idx1 idx2 = 0 ↔ t.SameTokens flags idx1 idx2 := by
  rw [comparePass_eq h, lexicographic_eq_zero_iff]
  rfl

theorem tied_iff (idx1 idx2 : ℕ) : t.twoPasses idx1 idx2 = 0 ↔ t.Tied idx1 idx2 := by
  rw [Tied, ← sameTokens_iff h, ← sameTokens_iff h, twoPasses, thenBy]
  by_cases h0 : t.comparePass t.srtFlags idx1 idx2 = 0 <;> simp [h0]

theorem twoPasses_consistent : Consistent t.twoPasses :=
  (comparePass_consistent h t.srtFlags).thenBy (comparePass_consistent h 0)

end Order

section Count

variable {t : SortTables} (h : t.Valid) {qsort : Callback → List ℕ → List ℕ} (hqsort : Sorts qsort)

/-- The group loop goes on comparing with the first place of the group. -/
theorem collectGroups_eq (sortidx : List ℕ) (i first : ℕ) (rest : List ℕ) (hrest : rest = sortidx.drop i) :
    t.collectGroups sortidx i first rest = Grouping.collect
      (fun i j => t.i2compare false i j (sortidx.getD i 0) (sortidx.getD j 0) ≠ 0) rest.length i first := by
  induction rest generalizing i first with
  | nil => rfl
  | cons idx rest ih =>
    have hi : i < sortidx.length := by
      by_contra hge
      rw [drop_eq_nil_of_le (not_lt.mp hge)] at hrest
      cases hrest
    have hdrop := drop_eq_getElem_cons hi
    rw [← hrest] at hdrop
    obtain ⟨hidx, hrest'⟩ := List.cons.inj hdrop
    have hget : sortidx.getD i 0 = idx := by rw [getD_eq_getElem _ _ hi, hidx]
    rw [collectGroups, length_cons, Grouping.collect, hget, ih _ _ hrest', ih _ _ hrest']

include h

theorem i2compare_first_pass (p q idx1 idx2 : ℕ) :
    t.i2compare false p q idx1 idx2 = t.directed (t.comparePass t.srtFlags) idx1 idx2 := by
  by_cases hne : idx1 = idx2
  · rw [hne, ((t.directed_consistent (comparePass_consistent h t.srtFlags)).self idx2)]
    simp [i2compare]
  · exact t.i2compare_grouping hne

theorem directed_comparePass_iff (idx1 idx2 : ℕ) :
    t.directed (t.comparePass t.srtFlags) idx1 idx2 = 0 ↔ t.SameTokens t.srtFlags idx1 idx2 := by
  rw [← sameTokens_iff h, directed]
  split_ifs
  · exact Iff.rfl
  · exact neg_eq_zero

omit h in
theorem directed_le_of_twoPasses {idx1 idx2 : ℕ} (hle : t.directed t.twoPasses idx1 idx2 ≤ 0) :
    t.directed (t.comparePass t.srtFlags) idx1 idx2 ≤ 0 := by
  unfold directed twoPasses thenBy at hle
  unfold directed
  by_cases h0 : t.comparePass t.srtFlags idx1 idx2 = 0
  · simp [h0]
  · simpa [h0] using hle

include hqsort

/-- `qsort` puts the matches in the order of the first pass, ties or not. -/
theorem sorted_by_first_pass (n : ℕ) :
    (qsort (t.i2compare true) (List.range n)).Pairwise fun a b => t.directed (t.comparePass t.srtFlags) a b ≤ 0 := by
  have hdecides : Decides (t.directed t.twoPasses) (t.i2compare true) (List.range n) := by
    intro p q a _ b _
    by_cases hne : a = b
    · rw [hne, (t.directed_consistent (twoPasses_consistent h)).self b]
      exact ⟨fun hlt => absurd hlt (lt_irrefl 0), fun hlt => absurd hlt (lt_irrefl 0)⟩
    · by_cases h0 : t.twoPasses a b = 0
      · have hdir : t.directed t.twoPasses a b = 0 := by simp [directed, h0]
        rw [hdir]
        exact ⟨fun hlt => absurd hlt (lt_irrefl 0), fun hlt => absurd hlt (lt_irrefl 0)⟩
      · rw [t.i2compare_of_ne hne h0]
        exact ⟨id, id⟩
  exact (hqsort.sorted _ _ _ (t.directed_consistent (twoPasses_consistent h)) hdecides).imp directed_le_of_twoPasses

theorem groups_sortSubcorpusCount {n : ℕ} (hn : 0 < n) :
    let out := sortSubcorpusCount qsort t n
    Grouping.Groups (fun i j => t.directed (t.comparePass t.srtFlags) (out.sortidx.getD i 0) (out.sortidx.getD j 0)) 0 n
      out.groups := by
  intro out
  have hlen : out.sortidx.length = n := (hqsort.perm _ _).length_eq.trans length_range
  have hpair : out.sortidx.Pairwise fun a b => t.directed (t.comparePass t.srtFlags) a b ≤ 0 :=
    sorted_by_first_pass h hqsort n
  have hgroups : out.groups = Grouping.collect
      (fun i j => t.i2compare false i j (out.sortidx.getD i 0) (out.sortidx.getD j 0) ≠ 0) (n - 1) 1 0 := by
    have heq := collectGroups_eq (t := t) out.sortidx 1 0 out.sortidx.tail drop_one.symm
    rw [length_tail, hlen] at heq
    exact heq
  rw [hgroups]
  refine Grouping.collect_groups ?_ _ (fun i j => ?_) (fun i j hij hj => ?_) (n - 1) 1 (by omega) Nat.one_pos fun k _ hk => ?_
  · exact (t.directed_consistent (comparePass_consistent h t.srtFlags)).comap fun i => out.sortidx.getD i 0
  · rw [i2compare_first_pass h]
  · have hj' : j < out.sortidx.length := hlen ▸ hj
    rw [getD_eq_getElem _ _ (hij.trans hj'), getD_eq_getElem _ _ hj']
    exact pairwise_iff_getElem.mp hpair i j _ _ hij
  · obtain rfl : k = 0 := by omega
    exact (t.directed_consistent (comparePass_consistent h t.srtFlags)).self _

omit h in
/-- The groups are listed from the largest one. -/
theorem sizes_sortSubcorpusCount (n : ℕ) :
    let out := sortSubcorpusCount qsort t n
    (out.groupidx.map fun k => (out.groups.getD k (0, 0)).2).Pairwise (· ≥ ·) := by
  intro out
  have hcmp : Consistent fun k l => descending (out.groups.getD k (0, 0)).2 (out.groups.getD l (0, 0)).2 :=
    descending_consistent.comap fun k => ((out.groups.getD k (0, 0)).2 : ℤ)
  have hdecides : Decides (fun k l => descending (out.groups.getD k (0, 0)).2 (out.groups.getD l (0, 0)).2)
      (t.group2compare out.sortidx out.groups) (List.range out.groups.length) := by
    intro p q k _ l _
    beta_reduce
    unfold group2compare
    by_cases hkl : k = l
    · rw [hkl, descending_consistent.self]
      exact ⟨fun hlt => absurd hlt (lt_irrefl 0), fun hlt => absurd hlt (lt_irrefl 0)⟩
    · rw [if_neg hkl, descending_neg_iff, descending_pos_iff, Nat.cast_lt, Nat.cast_lt]
      refine ⟨fun hgt => ?_, fun hlt => ?_⟩
      · simp only [gt_iff_lt, if_pos hgt]
        decide
      · simp only [gt_iff_lt, if_neg hlt.not_gt, if_pos hlt]
        decide
  have hsorted := hqsort.sorted _ _ _ hcmp hdecides
  rw [pairwise_map]
  refine hsorted.imp fun hle => ?_
  rw [← not_lt, descending_pos_iff, Nat.cast_lt, not_lt] at hle
  exact hle

end Count

end SortTables

section Results

variable {attr : PAttribute} {compare : ℕ → Bool → String → String → ℤ} {cl : QueryResult} {sc : SortClause}
  {t : SortTables}

/-- With tie-breaking on, the comparison of different matches is that of one order, whatever the addresses are, exactly
when no two of them are tied. -/
theorem i2compare_order_iff (ht : sortTables attr compare cl sc = some t)
    (hcompare : ∀ flags reverse, Consistent (compare flags reverse)) :
    (∃ cmp : ℕ → ℕ → ℤ, Consistent cmp ∧ ∀ a < cl.size, ∀ b < cl.size, a ≠ b → ∀ p q, p ≠ q →
        t.i2compare true p q a b = cmp a b) ↔
      ∀ a < cl.size, ∀ b < cl.size, a ≠ b → ¬ t.Tied a b := by
  have h := SortTables.valid_sortTables ht hcompare
  refine ⟨?_, fun htied => ?_⟩
  · rintro ⟨cmp, -, hcmp⟩ a ha b hb hne htie
    have h0 := (SortTables.tied_iff h a b).mpr htie
    have h01 := hcmp a ha b hb hne 0 1 (by decide)
    have h10 := hcmp a ha b hb hne 1 0 (by decide)
    have hsame : t.i2compare true 0 1 a b = t.i2compare true 1 0 a b := h01.trans h10.symm
    rw [t.i2compare_of_eq hne h0, t.i2compare_of_eq hne h0] at hsame
    cases hasc : t.srtAscending <;> simp [hasc] at hsame
  · refine ⟨t.directed t.twoPasses, t.directed_consistent (SortTables.twoPasses_consistent h), ?_⟩
    intro a ha b hb hne p q _
    exact t.i2compare_of_ne hne ((SortTables.tied_iff h a b).not.mpr (htied a ha b hb hne))

/-- The groups of a count are consecutive and not empty, they hold just the matches whose sort intervals have the same
tokens under the flags, and they are listed by their sizes. -/
theorem sortSubcorpusCount_partition {qsort : Callback → List ℕ → List ℕ} (hqsort : Sorts qsort)
    (ht : sortTables attr compare cl sc = some t) (hcompare : ∀ flags reverse, Consistent (compare flags reverse))
    (hsize : 0 < cl.size) :
    let out := sortSubcorpusCount qsort t cl.size
    out.sortidx.Perm (List.range cl.size) ∧
      out.groups.flatMap (fun g => range' g.1 g.2) = List.range cl.size ∧
      (∀ g ∈ out.groups, 0 < g.2) ∧
      (out.groups.map Prod.snd).sum = cl.size ∧
      (∀ i < cl.size, ∀ j < cl.size, (∃ g ∈ out.groups, Grouping.Covers g i ∧ Grouping.Covers g j) ↔
        t.SameTokens t.srtFlags (out.sortidx.getD i 0) (out.sortidx.getD j 0)) ∧
      out.groupidx.Perm (List.range out.groups.length) ∧
      (out.groupidx.map fun k => (out.groups.getD k (0, 0)).2).Pairwise (· ≥ ·) := by
  intro out
  have h := SortTables.valid_sortTables ht hcompare
  have hgroups := SortTables.groups_sortSubcorpusCount h hqsort hsize
  have hcmp : Consistent fun i j =>
      t.directed (t.comparePass t.srtFlags) (out.sortidx.getD i 0) (out.sortidx.getD j 0) :=
    (t.directed_consistent (SortTables.comparePass_consistent h t.srtFlags)).comap fun i => out.sortidx.getD i 0
  refine ⟨hqsort.perm _ _, ?_, hgroups.nonempty, hgroups.sum_sizes, fun i hi j hj => ?_, hqsort.perm _ _,
    SortTables.sizes_sortSubcorpusCount hqsort cl.size⟩
  · rw [range_eq_range']
    exact hgroups.consecutive
  · rw [← SortTables.directed_comparePass_iff h]
    exact hgroups.same_iff hcmp ⟨Nat.zero_le i, hi⟩ ⟨Nat.zero_le j, hj⟩

end Results

/-- The characters of a string; in ASCII these are its bytes. -/
def codes (s : String) : List ℤ := s.toList.map fun c => (c.toNat : ℤ)

/-- The strings compared byte by byte, as without flags and not reversed. -/
def plainCompare (_ : ℕ) (_ : Bool) (s1 s2 : String) : ℤ := strcmp (terminated (codes s1)) (terminated (codes s2))

theorem plainCompare_consistent (flags : ℕ) (reverse : Bool) : Consistent (plainCompare flags reverse) := by
  have hcodes := strcmp_consistent.comap codes
  exact hcodes

theorem nodup_threeTokens : ["a", "b"].Nodup := by decide

theorem length_threeTokens : ["a", "b"].length = 2 := rfl

/-- The text `b a b`. -/
def threeTokens : PAttribute where
  ids := [1, 0, 1]
  lexsize := 2
  lexsize_pos := Nat.two_pos
  id_lt := by decide
  occurs := by decide
  lexicon := ["a", "b"]
  lexicon_nodup := nodup_threeTokens
  lexicon_length := length_threeTokens

def byMatch : SortClause := ⟨0, .matchField, 0, .matchField, 0, true, false⟩

def oneTokenMatches (positions : List ℤ) : QueryResult := { range := positions.map fun cpos => (cpos, cpos) }

/-- The tokens at 0 and 2 are the same: the match whose number stands first comes first. -/
theorem i2compare_by_address :
    (sortTables threeTokens plainCompare (oneTokenMatches [0, 2]) byMatch).map
        (fun t => (t.i2compare true 0 1 0 1, t.i2compare true 1 0 0 1)) = some (-1, 1) := by
  decide

theorem i2compare_order_iff_distinct : ∃ t cmp, sortTables threeTokens plainCompare (oneTokenMatches [0, 1]) byMatch = some t ∧
    Consistent cmp ∧ ∀ a < 2, ∀ b < 2, a ≠ b → ∀ p q, p ≠ q → t.i2compare true p q a b = cmp a b := by
  have hdistinct : ∀ t, sortTables threeTokens plainCompare (oneTokenMatches [0, 1]) byMatch = some t →
      ∀ a < 2, ∀ b < 2, a ≠ b → ¬ t.Tied a b := by
    intro t ht a ha b hb hne
    rw [← SortTables.tied_iff (SortTables.valid_sortTables ht plainCompare_consistent)]
    cases ht
    revert a b
    decide
  obtain ⟨t, ht⟩ : ∃ t, sortTables threeTokens plainCompare (oneTokenMatches [0, 1]) byMatch = some t := ⟨_, rfl⟩
  obtain ⟨cmp, hcmp⟩ := (i2compare_order_iff ht plainCompare_consistent).mpr (hdistinct t ht)
  exact ⟨t, cmp, ht, hcmp⟩

theorem sortSubcorpusCount_partition_tokens :
    ∃ t, sortTables threeTokens plainCompare (oneTokenMatches [0, 1, 2]) byMatch = some t ∧
      ((sortSubcorpusCount (fun call l => l.mergeSort fun a b => call 0 1 a b ≤ 0) t 3).groups.map Prod.snd).sum = 3 := by
  obtain ⟨t, ht⟩ : ∃ t, sortTables threeTokens plainCompare (oneTokenMatches [0, 1, 2]) byMatch = some t := ⟨_, rfl⟩
  exact ⟨t, ht, (sortSubcorpusCount_partition mergeSort_sorts ht plainCompare_consistent (by decide)).2.2.2.1⟩

end CWB
