import CWB.Sanity.Matchlist

/-! The filters behind the matching strategies, on a result sorted by start and end. Each
loop marks lines while it scans ahead; on sorted lines what it leaves is what the name of
the filter says. -/

namespace CWB

open List

/-- Lines in the order of the query engine: by start, then by end. -/
def Lex (a b : Match) : Prop := a.start < b.start ∨ (a.start = b.start ∧ a.stop < b.stop)

/-- A line that holds a range of the corpus. -/
def Match.Range (m : Match) : Prop := 0 ≤ m.start ∧ m.start ≤ m.stop

theorem Match.Range.kept {m : Match} (h : m.Range) : m.kept = true := by
  obtain ⟨h1, h2⟩ := h
  simp [Match.kept]
  omega

theorem Match.Range.start_ne {m : Match} (h : m.Range) : m.start ≠ -1 := by
  have := h.1
  omega

theorem keptPairs_of_range {l : List Match} (h : ∀ m ∈ l, m.Range) : keptPairs l = l.map Match.pair :=
  keptPairs_of_valid l fun m hm => (h m hm).kept

/-- Mark the lines that start at `s`. -/
def markStart (s : ℤ) (m : Match) : Match := if m.start = s then m.mark else m

theorem map_markStart_of_lt {s : ℤ} {l : List Match} (h : ∀ m ∈ l, s < m.start) :
    l.map (markStart s) = l := by
  refine (map_congr_left fun m hm => if_neg ?_).trans (map_id l)
  have := h m hm
  omega

/-- A loop that skips marked lines passes over the lines marked by `markStart`. -/
theorem keptPairs_skip (loop : List Match → List Match)
    (hskip : ∀ m l, m.start = -1 → loop (m :: l) = m :: loop l) {s : ℤ} {l : List Match}
    (hs : l.Pairwise Lex) (hge : ∀ m ∈ l, s ≤ m.start) :
    keptPairs (loop (l.map (markStart s))) = keptPairs (loop (l.filter fun m => m.start ≠ s)) := by
  induction l with
  | nil => rfl
  | cons m l ih =>
    obtain ⟨hm, hs⟩ := pairwise_cons.mp hs
    by_cases he : m.start = s
    · have hf : (m :: l).filter (fun m => decide (m.start ≠ s)) = l.filter fun m => m.start ≠ s := by
        simp [he]
      rw [hf, map_cons, show markStart s m = m.mark from if_pos he, hskip _ _ rfl,
        keptPairs_cons_mark]
      exact ih hs fun m' hm' => hge m' (mem_cons_of_mem _ hm')
    · have hlt : ∀ m' ∈ m :: l, s < m'.start := by
        have h0 := hge m (by simp)
        intro m' hm'
        rcases mem_cons.mp hm' with rfl | hm'
        · omega
        · rcases hm m' hm' with h | ⟨h, -⟩ <;> omega
      rw [map_markStart_of_lt hlt, filter_eq_self.mpr]
      intro m' hm'
      have := hlt m' hm'
      simp
      omega

variable {p : ℤ × ℤ}

section Group

variable {ri : Match} {rest : List Match} (hi : ∀ rj ∈ rest, Lex ri rj)

/-- The lines behind those that start with the first one. -/
def later (ri : Match) (rest : List Match) : List Match := rest.filter fun m => m.start ≠ ri.start

theorem later_sublist (ri : Match) (rest : List Match) : (later ri rest).Sublist rest :=
  filter_sublist

include hi

theorem start_le_rest : ∀ rj ∈ rest, ri.start ≤ rj.start := by
  intro rj hj
  rcases hi rj hj with h | ⟨h, -⟩ <;> omega

theorem mem_later_iff :
    p ∈ (later ri rest).map Match.pair ↔ p ∈ (ri :: rest).map Match.pair ∧ ri.start < p.1 := by
  constructor
  · intro h
    obtain ⟨m, hm, rfl⟩ := mem_map.mp h
    refine ⟨mem_cons_of_mem _ (mem_map_of_mem ((later_sublist ri rest).subset hm)), ?_⟩
    obtain ⟨hm, hne⟩ := mem_filter.mp hm
    have := start_le_rest hi m hm
    have hne : m.start ≠ ri.start := by simpa using hne
    exact lt_of_le_of_ne this hne.symm
  · rintro ⟨h, hlt⟩
    rcases mem_cons.mp h with rfl | h
    · exact absurd hlt (lt_irrefl _)
    · obtain ⟨m, hm, rfl⟩ := mem_map.mp h
      refine mem_map_of_mem (mem_filter.mpr ⟨hm, ?_⟩)
      simp only [Match.pair] at hlt
      simp
      omega

/-- Of the lines with the first start, the first is the shortest. -/
theorem head_le_of_start (hp : p ∈ (ri :: rest).map Match.pair) (h : p.1 = ri.start) :
    ri.stop ≤ p.2 ∧ (p.2 = ri.stop → p = ri.pair) := by
  rcases mem_cons.mp hp with rfl | hp
  · exact ⟨le_rfl, fun _ => rfl⟩
  · obtain ⟨m, hm, rfl⟩ := mem_map.mp hp
    simp only [Match.pair] at h ⊢
    rcases hi m hm with h' | ⟨-, h'⟩
    · omega
    · exact ⟨h'.le, fun he => by omega⟩

theorem start_lt_of_ne (hp : p ∈ (ri :: rest).map Match.pair) (h : p.1 ≠ ri.start) :
    ri.start < p.1 := by
  rcases mem_cons.mp hp with rfl | hp
  · exact absurd rfl h
  · obtain ⟨m, hm, rfl⟩ := mem_map.mp hp
    exact lt_of_le_of_ne (start_le_rest hi m hm) (Ne.symm h)

end Group

/-! `RMinimalMatches`. -/

theorem minimalScan_eq {ri : Match} {rest : List Match} (hri : ri.Range)
    (hr : ∀ rj ∈ rest, rj.Range) (hi : ∀ rj ∈ rest, Lex ri rj) (hs : rest.Pairwise Lex) :
    minimalScan ri.start ri rest =
      (if ∃ rj ∈ rest, rj.stop ≤ ri.stop then ri.mark else ri, rest.map (markStart ri.start)) := by
  induction rest with
  | nil => simp [minimalScan]
  | cons rj rest ih =>
    obtain ⟨hj, hs⟩ := pairwise_cons.mp hs
    have hrj := hr rj (by simp)
    have hij := hi rj (by simp)
    rw [minimalScan]
    by_cases h1 : rj.start ≤ ri.stop
    · rw [if_pos h1]
      by_cases h2 : rj.stop ≤ ri.stop
      · -- the scan stops at a shorter line, which starts later, and so do all others
        rw [if_pos h2, if_pos ⟨rj, by simp, h2⟩]
        congr 1
        refine (map_markStart_of_lt fun m hm => ?_).symm
        have hlt : ri.start < rj.start := hij.resolve_right (by omega)
        rcases mem_cons.mp hm with rfl | hm
        · exact hlt
        · rcases hj m hm with h | ⟨h, -⟩ <;> omega
      · rw [if_neg h2, ih (fun m hm => hr m (mem_cons_of_mem _ hm))
          (fun m hm => hi m (mem_cons_of_mem _ hm)) hs]
        simp only [mem_cons, exists_eq_or_imp, h2, false_or, map_cons, markStart,
          eq_comm (a := ri.start)]
    · have hgt : ∀ m ∈ rj :: rest, ri.stop < m.start := by
        intro m hm
        rcases mem_cons.mp hm with rfl | hm
        · omega
        · rcases hj m hm with h | ⟨h, -⟩ <;> omega
      have hno : ¬ ∃ m ∈ rj :: rest, m.stop ≤ ri.stop := by
        rintro ⟨m, hm, hle⟩
        have := hgt m hm
        have := (hr m hm).2
        omega
      rw [if_neg h1, if_neg hno, map_markStart_of_lt]
      intro m hm
      have := hgt m hm
      have := hri.2
      omega

theorem minimalLoop_marked (m : Match) (l : List Match) (h : m.start = -1) :
    minimalLoop (m :: l) = m :: minimalLoop l := by
  rw [minimalLoop, if_neg (by simp [h])]

theorem keptPairs_minimalLoop {ri : Match} {rest : List Match} (hri : ri.Range)
    (hr : ∀ rj ∈ rest, rj.Range) (hi : ∀ rj ∈ rest, Lex ri rj) (hs : rest.Pairwise Lex) :
    keptPairs (minimalLoop (ri :: rest)) = (if ∃ rj ∈ rest, rj.stop ≤ ri.stop then [] else [ri.pair])
      ++ keptPairs (minimalLoop (later ri rest)) := by
  rw [minimalLoop, if_pos hri.start_ne, minimalScan_eq hri hr hi hs, later,
    ← keptPairs_skip minimalLoop minimalLoop_marked hs (start_le_rest hi)]
  split_ifs
  · rw [keptPairs_cons_mark, nil_append]
  · rw [keptPairs_cons _ _ hri.kept]; rfl

/-- Of the lines, those that contain no other one are left. -/
theorem minimalLoop_spec (l : List Match) (hr : ∀ m ∈ l, m.Range) (hs : l.Pairwise Lex) :
    (keptPairs (minimalLoop l)).Sublist (l.map Match.pair) ∧
      ∀ p, p ∈ keptPairs (minimalLoop l) ↔
        p ∈ l.map Match.pair ∧ ∀ p' ∈ l.map Match.pair, Inside p' p → p' = p := by
  induction hn : l.length using Nat.strong_induction_on generalizing l with
  | _ n ih =>
  cases l with
  | nil => simp [minimalLoop, keptPairs]
  | cons ri rest =>
    obtain ⟨hi, hs'⟩ := pairwise_cons.mp hs
    have hri := hr ri (by simp)
    have hrest : ∀ m ∈ rest, m.Range := fun m hm => hr m (by simp [hm])
    rw [keptPairs_minimalLoop hri hrest hi hs']
    have hsub := later_sublist ri rest
    obtain ⟨ihs, ihm⟩ := ih _ (by have := hsub.length_le; simp only [length_cons] at hn; omega)
      (later ri rest) (fun m hm => hrest m (hsub.subset hm)) (hs'.sublist hsub) rfl
    constructor
    · split_ifs
      · exact (ihs.trans (hsub.map _)).cons _
      · exact (ihs.trans (hsub.map _)).cons_cons _
    · intro p
      rw [mem_append, ihm, mem_later_iff hi]
      constructor
      · rintro (h | ⟨⟨hmem, hlt⟩, hmin⟩)
        · -- the first line is left if nothing behind it ends earlier
          split_ifs at h with hex
          · cases h
          · obtain rfl := mem_singleton.mp h
            refine ⟨by simp, fun p' hp' hin => ?_⟩
            rcases mem_cons.mp hp' with rfl | hp'
            · rfl
            · obtain ⟨m, hm, rfl⟩ := mem_map.mp hp'
              exact absurd ⟨m, hm, hin.2⟩ hex
        · exact ⟨hmem, fun p' hp' hin =>
            hmin p' ((mem_later_iff hi).mpr ⟨hp', lt_of_lt_of_le hlt hin.1⟩) hin⟩
      · rintro ⟨hmem, hmin⟩
        by_cases hp : p.1 = ri.start
        · obtain rfl := hmin ri.pair (by simp) ⟨by rw [hp]; rfl, (head_le_of_start hi hmem hp).1⟩
          refine .inl ?_
          rw [if_neg, mem_singleton]
          rintro ⟨m, hm, hle⟩
          have hmem' : m.pair ∈ (ri :: rest).map Match.pair := mem_cons_of_mem _ (mem_map_of_mem hm)
          have heq := hmin m.pair hmem' ⟨start_le_rest hi m hm, hle⟩
          rcases hi m hm with h | ⟨-, h⟩
          · exact absurd (congrArg Prod.fst heq) h.ne'
          · exact absurd (congrArg Prod.snd heq) h.ne'
        · refine .inr ⟨⟨hmem, start_lt_of_ne hi hmem hp⟩, fun p' hp' hin => ?_⟩
          exact hmin p' ((mem_later_iff hi).mp hp').1 hin

/-! The first pass of `RLeftMaximalMatches`. -/

theorem markWhile_sameStart {ri : Match} {rest : List Match} (hi : ∀ rj ∈ rest, Lex ri rj)
    (hs : rest.Pairwise Lex) :
    markWhile (fun rj => decide (rj.start = ri.start)) (fun _ => true) rest
      = rest.map (markStart ri.start) := by
  induction rest with
  | nil => rfl
  | cons rj rest ih =>
    obtain ⟨hj, hs⟩ := pairwise_cons.mp hs
    have hi' : ∀ m ∈ rest, Lex ri m := fun m hm => hi m (mem_cons_of_mem _ hm)
    by_cases he : rj.start = ri.start
    · rw [markWhile, if_pos (by simp [he]), ih hi' hs, map_cons, markStart, if_pos he]
      rfl
    · rw [markWhile, if_neg (by simp [he]), map_markStart_of_lt]
      have hlt : ri.start < rj.start :=
        lt_of_le_of_ne (start_le_rest hi rj (by simp)) (Ne.symm he)
      intro m hm
      rcases mem_cons.mp hm with rfl | hm
      · exact hlt
      · exact hlt.trans_le (start_le_rest hj m hm)

theorem markLoop_marked (run del : Match → Match → Bool) (m : Match) (l : List Match)
    (h : m.start = -1) : markLoop run del (m :: l) = m :: markLoop run del l := by
  rw [markLoop, if_neg (by simp [h])]

theorem keptPairs_sameStartLoop {ri : Match} {rest : List Match} (hri : ri.Range)
    (hi : ∀ rj ∈ rest, Lex ri rj) (hs : rest.Pairwise Lex) :
    keptPairs (sameStartLoop (ri :: rest)) = ri.pair :: keptPairs (sameStartLoop (later ri rest)) := by
  rw [later, ← keptPairs_skip sameStartLoop (markLoop_marked _ _) hs (start_le_rest hi),
    ← markWhile_sameStart hi hs, ← keptPairs_cons _ _ hri.kept]
  unfold sameStartLoop
  rw [markLoop, if_pos hri.start_ne]

/-- Of the lines with one start the shortest is left. -/
theorem sameStartLoop_spec (l : List Match) (hr : ∀ m ∈ l, m.Range) (hs : l.Pairwise Lex) :
    (keptPairs (sameStartLoop l)).Sublist (l.map Match.pair) ∧
      ∀ p, p ∈ keptPairs (sameStartLoop l) ↔
        p ∈ l.map Match.pair ∧ ∀ p' ∈ l.map Match.pair, p'.1 = p.1 → p.2 ≤ p'.2 := by
  induction hn : l.length using Nat.strong_induction_on generalizing l with
  | _ n ih =>
  cases l with
  | nil => simp [sameStartLoop, markLoop, keptPairs]
  | cons ri rest =>
    obtain ⟨hi, hs'⟩ := pairwise_cons.mp hs
    have hsub := later_sublist ri rest
    rw [keptPairs_sameStartLoop (hr ri (by simp)) hi hs']
    obtain ⟨ihs, ihm⟩ := ih _ (by have := hsub.length_le; simp only [length_cons] at hn; omega)
      (later ri rest) (fun m hm => hr m (by simp [hsub.subset hm])) (hs'.sublist hsub) rfl
    refine ⟨(ihs.trans (hsub.map _)).cons_cons _, fun p => ?_⟩
    rw [mem_cons, ihm, mem_later_iff hi]
    constructor
    · rintro (rfl | ⟨⟨hmem, hlt⟩, hmin⟩)
      · exact ⟨by simp, fun p' hp' he => (head_le_of_start hi hp' he).1⟩
      · exact ⟨hmem, fun p' hp' he => hmin p' ((mem_later_iff hi).mpr ⟨hp', by omega⟩) he⟩
    · rintro ⟨hmem, hmin⟩
      by_cases hp : p.1 = ri.start
      · obtain ⟨hle, heq⟩ := head_le_of_start hi hmem hp
        exact .inl (heq (le_antisymm (hmin ri.pair (by simp) hp.symm) hle))
      · refine .inr ⟨⟨hmem, start_lt_of_ne hi hmem hp⟩, fun p' hp' he => ?_⟩
        exact hmin p' ((mem_later_iff hi).mp hp').1 he

/-! The two loops that go on over lines already marked. -/

/-- A list in which some lines may be marked, the others being sorted ranges behind `s`. -/
structure Scanned (s : ℤ) (l : List Match) : Prop where
  nonneg : 0 ≤ s
  range : ∀ m ∈ l, m.start = -1 ∨ (s ≤ m.start ∧ m.start ≤ m.stop)
  sorted : l.Pairwise fun a b => a.start ≠ -1 → b.start ≠ -1 → a.start ≤ b.start

/-- Mark the lines whose end satisfies `c`. -/
def markStop (c : ℤ → Bool) (m : Match) : Match := if c m.stop then m.mark else m

theorem markStop_start (c : ℤ → Bool) (m : Match) :
    (markStop c m).start = -1 ∨ markStop c m = m := by
  unfold markStop
  split_ifs
  · exact .inl rfl
  · exact .inr rfl

theorem keptPairs_markStop (c : ℤ → Bool) (l : List Match) :
    keptPairs (l.map (markStop c)) = (keptPairs l).filter fun p => !c p.2 := by
  induction l with
  | nil => rfl
  | cons m l ih =>
    rw [map_cons, markStop]
    cases hk : m.kept with
    | false =>
      have hm : ∀ m' : Match, m'.kept = false → ∀ l, keptPairs (m' :: l) = keptPairs l := by
        intro m' h l
        simp [keptPairs, h]
      split_ifs
      · rw [keptPairs_cons_mark, hm m hk, ih]
      · rw [hm m hk, hm m hk, ih]
    | true =>
      rw [keptPairs_cons m l hk, filter_cons]
      split_ifs with h1 h2 h2
      · simp [Match.pair, h1] at h2
      · rw [keptPairs_cons_mark, ih]
      · rw [keptPairs_cons m _ hk, ih]
      · simp [Match.pair, h1] at h2

namespace Scanned

variable {s : ℤ} {m : Match} {l : List Match}

theorem tail (h : Scanned s (m :: l)) : Scanned s l :=
  ⟨h.nonneg, fun x hx => h.range x (by simp [hx]), (pairwise_cons.mp h.sorted).2⟩

theorem head_range (h : Scanned s (m :: l)) (hm : m.start ≠ -1) : m.Range := by
  obtain ⟨h1, h2⟩ := (h.range m (by simp)).resolve_left hm
  exact ⟨h.nonneg.trans h1, h2⟩

/-- Behind an unmarked line, the unmarked lines start no earlier. -/
theorem behind (h : Scanned s (m :: l)) (hm : m.start ≠ -1) : Scanned m.start l := by
  obtain ⟨hs, -⟩ := pairwise_cons.mp h.sorted
  refine ⟨(h.head_range hm).1, fun x hx => ?_, h.tail.sorted⟩
  by_cases hx0 : x.start = -1
  · exact .inl hx0
  · exact .inr ⟨hs x hx hm hx0, ((h.tail.range x hx).resolve_left hx0).2⟩

theorem map_markStop (h : Scanned s l) (c : ℤ → Bool) : Scanned s (l.map (markStop c)) := by
  refine ⟨h.nonneg, fun x hx => ?_, ?_⟩
  · obtain ⟨y, hy, rfl⟩ := mem_map.mp hx
    rcases markStop_start c y with h1 | h1
    · exact .inl h1
    · rw [h1]; exact h.range y hy
  · rw [pairwise_map]
    refine h.sorted.imp fun {a b} hab ha hb => ?_
    have ea := (markStop_start c a).resolve_left ha
    have eb := (markStop_start c b).resolve_left hb
    rw [ea, eb]
    exact hab (by rwa [← ea]) (by rwa [← eb])

theorem mem_keptPairs_iff (h : Scanned s l) :
    p ∈ keptPairs l ↔ ∃ m ∈ l, m.start ≠ -1 ∧ m.pair = p := by
  rw [mem_keptPairs]
  refine exists_congr fun m => and_congr_right fun hm => and_congr_left fun _ => ?_
  constructor
  · intro hk he
    simp [Match.kept, he] at hk
  · intro hne
    have := (h.range m hm).resolve_left hne
    have := h.nonneg
    simp [Match.kept]
    omega

theorem range_of_mem (h : Scanned s l) (hp : p ∈ keptPairs l) : s ≤ p.1 ∧ p.1 ≤ p.2 := by
  obtain ⟨m, hm, hne, rfl⟩ := h.mem_keptPairs_iff.mp hp
  exact (h.range m hm).resolve_left hne

end Scanned

/-- A scan over the lines that start no later than `stop` has seen every line to mark,
if these end by `stop`. -/
theorem map_markStop_beyond {s stop : ℤ} {c : ℤ → Bool} (hc : ∀ e, c e = true → e ≤ stop)
    {rj : Match} {rest : List Match} (h : Scanned s (rj :: rest)) (hgt : stop < rj.start)
    (hstop : 0 ≤ stop) : (rj :: rest).map (markStop c) = rj :: rest := by
  have hj : rj.start ≠ -1 := by omega
  refine (map_congr_left fun m hm => ?_).trans (map_id _)
  unfold markStop
  split_ifs with hcm
  · have hle := hc _ hcm
    by_cases hm0 : m.start = -1
    · exact mark_of_start hm0
    · have : rj.start ≤ m.start := by
        rcases mem_cons.mp hm with rfl | hm
        · exact le_rfl
        · exact (pairwise_cons.mp h.sorted).1 m hm hj hm0
      have := ((h.range m hm).resolve_left hm0).2
      omega
  · rfl

theorem maximalScan_eq {s : ℤ} {r : Match} {rest : List Match} (h : Scanned s rest)
    (hr : s ≤ r.stop) :
    maximalScan s r rest =
      (if ∃ rj ∈ rest, rj.start = s ∧ r.stop < rj.stop then r.mark else r,
        rest.map (markStop fun e => decide (e ≤ r.stop))) := by
  induction rest generalizing r with
  | nil => simp [maximalScan]
  | cons rj rest ih =>
    have h0 := h.nonneg
    rw [maximalScan]
    by_cases h1 : rj.start ≤ r.stop
    · rw [if_pos h1]
      by_cases h2 : rj.stop ≤ r.stop
      · rw [if_pos h2, ih h.tail hr]
        simp [markStop, h2, not_lt.mpr h2]
      · rw [if_neg h2]
        by_cases h3 : s = rj.start
        · have hex : ∃ x ∈ rj :: rest, x.start = s ∧ r.stop < x.stop :=
            ⟨rj, by simp, h3.symm, not_le.mp h2⟩
          have hmark : r.mark.mark = r.mark := rfl
          rw [if_pos h3, ih (r := r.mark) h.tail hr, if_pos hex, hmark, ite_self, map_cons,
            show markStop (fun e => decide (e ≤ r.stop)) rj = rj by simp [markStop, h2]]
          rfl
        · rw [if_neg h3, ih h.tail hr]
          simp [markStop, h2, Ne.symm h3]
    · have hno : ¬ ∃ x ∈ rj :: rest, x.start = s ∧ r.stop < x.stop := by
        rintro ⟨x, hx, hxs, -⟩
        have hj : rj.start ≠ -1 := by omega
        rcases mem_cons.mp hx with rfl | hx
        · omega
        · have := (pairwise_cons.mp h.sorted).1 x hx hj (by omega)
          omega
      rw [if_neg h1, if_neg hno, map_markStop_beyond (fun e he => of_decide_eq_true he) h
        (not_le.mp h1) (h0.trans hr)]

/-- Of the lines, those that lie inside no other one are left. -/
theorem maximalLoop_spec (s : ℤ) (l : List Match) (h : Scanned s l)
    (hs : (keptPairs l).Pairwise fun a b => a.1 < b.1 ∨ (a.1 = b.1 ∧ a.2 < b.2)) :
    (keptPairs (maximalLoop l)).Sublist (keptPairs l) ∧
      ∀ p, p ∈ keptPairs (maximalLoop l) ↔
        p ∈ keptPairs l ∧ ∀ p' ∈ keptPairs l, Inside p p' → p' = p := by
  induction hn : l.length generalizing s l with
  | zero =>
    obtain rfl := length_eq_zero_iff.mp hn
    simp [maximalLoop, keptPairs]
  | succ n ih =>
    obtain ⟨ri, rest, rfl⟩ := exists_cons_of_length_eq_add_one hn
    have hlen : rest.length = n := by simpa using hn
    rw [maximalLoop]
    by_cases hm : ri.start = -1
    · rw [if_neg (by simp [hm]), keptPairs_cons_of_start _ hm, keptPairs_cons_of_start _ hm] at *
      exact ih s rest h.tail hs hlen
    · have hri := h.head_range hm
      have hb := h.behind hm
      rw [if_pos hm, maximalScan_eq hb hri.2]
      rw [keptPairs_cons _ _ hri.kept] at hs ⊢
      obtain ⟨hi, hs'⟩ := pairwise_cons.mp hs
      have hfil := keptPairs_markStop (fun e => decide (e ≤ ri.stop)) rest
      obtain ⟨ihs, ihm⟩ := ih ri.start _ (hb.map_markStop fun e => decide (e ≤ ri.stop))
        (by rw [hfil]; exact hs'.filter _) (by simpa using hlen)
      rw [hfil] at ihs ihm
      have hmem : ∀ p, p ∈ (keptPairs rest).filter (fun p => !decide (p.2 ≤ ri.stop)) ↔
          p ∈ keptPairs rest ∧ ri.stop < p.2 := fun p => by simp
      -- the first line is contained in a later one exactly if they share the start
      have hex : (∃ rj ∈ rest, rj.start = ri.start ∧ ri.stop < rj.stop) ↔
          ∃ p' ∈ keptPairs rest, Inside ri.pair p' := by
        constructor
        · rintro ⟨rj, hj, he, hlt⟩
          exact ⟨rj.pair, hb.mem_keptPairs_iff.mpr ⟨rj, hj, by rw [he]; exact hm, rfl⟩, he.le, hlt.le⟩
        · rintro ⟨p', hp', hin⟩
          obtain ⟨rj, hj, hne, rfl⟩ := hb.mem_keptPairs_iff.mp hp'
          rcases hi rj.pair hp' with hlt | ⟨he, hlt⟩
          · exact absurd hin.1 (not_le.mpr hlt)
          · exact ⟨rj, hj, he.symm, hlt⟩
      constructor
      · split_ifs
        · rw [keptPairs_cons_mark]
          exact (ihs.trans filter_sublist).cons _
        · rw [keptPairs_cons _ _ hri.kept]
          exact (ihs.trans filter_sublist).cons_cons _
      · intro p
        have hkept : p ∈ keptPairs ((if ∃ rj ∈ rest, rj.start = ri.start ∧ ri.stop < rj.stop then
              ri.mark else ri) :: maximalLoop (rest.map (markStop fun e => decide (e ≤ ri.stop)))) ↔
            (p = ri.pair ∧ ¬ ∃ p' ∈ keptPairs rest, Inside ri.pair p') ∨
              p ∈ keptPairs (maximalLoop (rest.map (markStop fun e => decide (e ≤ ri.stop)))) := by
          rw [← hex]
          split_ifs with he
          · rw [keptPairs_cons_mark]
            exact ⟨Or.inr, fun h => h.resolve_left fun h' => h'.2 he⟩
          · rw [keptPairs_cons _ _ hri.kept, mem_cons]
            exact or_congr_left (and_iff_left he).symm
        rw [hkept, ihm, hmem]
        constructor
        · rintro (⟨rfl, hno⟩ | ⟨⟨hp, hlt⟩, hmax⟩)
          · refine ⟨by simp, fun p' hp' hin => ?_⟩
            rcases mem_cons.mp hp' with rfl | hp'
            · rfl
            · exact absurd ⟨p', hp', hin⟩ hno
          · refine ⟨mem_cons_of_mem _ hp, fun p' hp' hin => ?_⟩
            rcases mem_cons.mp hp' with rfl | hp'
            · exact absurd hin.2 (not_le.mpr hlt)
            · exact hmax p' ((hmem p').mpr ⟨hp', hlt.trans_le hin.2⟩) hin
        · rintro ⟨hp, hmax⟩
          rcases mem_cons.mp hp with rfl | hp
          · refine .inl ⟨rfl, ?_⟩
            rintro ⟨p', hp', hin⟩
            have := hmax p' (mem_cons_of_mem _ hp') hin
            rw [this] at hp'
            rcases hi _ hp' with h | ⟨-, h⟩ <;> exact absurd h (lt_irrefl _)
          · have hlt : ri.stop < p.2 := by
              by_contra hle
              have hin : Inside p ri.pair := ⟨(hb.range_of_mem hp).1, not_lt.mp hle⟩
              have := hmax ri.pair (by simp) hin
              rw [← this] at hp
              rcases hi _ hp with h | ⟨-, h⟩ <;> exact absurd h (lt_irrefl _)
            refine .inr ⟨⟨hp, hlt⟩, fun p' hp' hin => ?_⟩
            exact hmax p' (mem_cons_of_mem _ ((hmem p').mp hp').1) hin

theorem markWhile_sameEnd {s : ℤ} {ri : Match} {rest : List Match} (h : Scanned s rest)
    (hr : s ≤ ri.stop) :
    markWhile (fun rj => decide (rj.start ≤ ri.stop)) (fun rj => decide (rj.stop = ri.stop)) rest
      = rest.map (markStop fun e => decide (e = ri.stop)) := by
  induction rest with
  | nil => rfl
  | cons rj rest ih =>
    by_cases h1 : rj.start ≤ ri.stop
    · rw [markWhile, if_pos (by simpa using h1), ih h.tail, map_cons]
      rfl
    · rw [markWhile, if_neg (by simpa using h1), map_markStop_beyond
        (fun e he => (of_decide_eq_true he).le) h (not_le.mp h1) (h.nonneg.trans hr)]

/-- Of the lines with one end the leftmost is left. -/
theorem sameEndLoop_spec (s : ℤ) (l : List Match) (h : Scanned s l)
    (hs : (keptPairs l).Pairwise fun a b => a.1 < b.1) :
    (keptPairs (sameEndLoop l)).Sublist (keptPairs l) ∧
      ∀ p, p ∈ keptPairs (sameEndLoop l) ↔
        p ∈ keptPairs l ∧ ∀ p' ∈ keptPairs l, p'.2 = p.2 → p.1 ≤ p'.1 := by
  induction hn : l.length generalizing s l with
  | zero =>
    obtain rfl := length_eq_zero_iff.mp hn
    simp [sameEndLoop, markLoop, keptPairs]
  | succ n ih =>
    obtain ⟨ri, rest, rfl⟩ := exists_cons_of_length_eq_add_one hn
    have hlen : rest.length = n := by simpa using hn
    by_cases hm : ri.start = -1
    · have he : sameEndLoop (ri :: rest) = ri :: sameEndLoop rest := markLoop_marked _ _ _ _ hm
      rw [he, keptPairs_cons_of_start _ hm, keptPairs_cons_of_start _ hm]
      rw [keptPairs_cons_of_start _ hm] at hs
      exact ih s rest h.tail hs hlen
    · have hri := h.head_range hm
      have hb := h.behind hm
      have he : sameEndLoop (ri :: rest)
          = ri :: sameEndLoop (rest.map (markStop fun e => decide (e = ri.stop))) := by
        rw [← markWhile_sameEnd hb hri.2]
        unfold sameEndLoop
        rw [markLoop, if_pos hm]
      rw [he, keptPairs_cons _ _ hri.kept, keptPairs_cons _ _ hri.kept]
      rw [keptPairs_cons _ _ hri.kept] at hs
      obtain ⟨hi, hs'⟩ := pairwise_cons.mp hs
      have hfil := keptPairs_markStop (fun e => decide (e = ri.stop)) rest
      obtain ⟨ihs, ihm⟩ := ih ri.start _ (hb.map_markStop fun e => decide (e = ri.stop))
        (by rw [hfil]; exact hs'.filter _) (by simpa using hlen)
      rw [hfil] at ihs ihm
      have hmem : ∀ p, p ∈ (keptPairs rest).filter (fun p => !decide (p.2 = ri.stop)) ↔
          p ∈ keptPairs rest ∧ p.2 ≠ ri.stop := fun p => by simp
      refine ⟨(ihs.trans filter_sublist).cons_cons _, fun p => ?_⟩
      rw [mem_cons, ihm, hmem, mem_cons]
      constructor
      · rintro (rfl | ⟨⟨hp, hne⟩, hmin⟩)
        · refine ⟨.inl rfl, fun p' hp' _ => ?_⟩
          rcases mem_cons.mp hp' with rfl | hp'
          · exact le_rfl
          · exact (hi p' hp').le
        · refine ⟨.inr hp, fun p' hp' he' => ?_⟩
          rcases mem_cons.mp hp' with rfl | hp'
          · exact absurd he'.symm hne
          · exact hmin p' ((hmem p').mpr ⟨hp', by rw [he']; exact hne⟩) he'
      · rintro ⟨hp, hmin⟩
        rcases hp with rfl | hp
        · exact .inl rfl
        · have hne : p.2 ≠ ri.stop := fun heq => by
            have h1 := hmin ri.pair (by simp) heq.symm
            exact absurd (hi p hp) (not_lt.mpr h1)
          refine .inr ⟨⟨hp, hne⟩, fun p' hp' he' => ?_⟩
          exact hmin p' (mem_cons_of_mem _ ((hmem p').mp hp').1) he'

/-! The filters on query results. -/

/-- A result whose lines are ranges, strictly sorted by start and end. -/
structure Ordered (c : CorpusList) : Prop where
  range : ∀ m ∈ c.range, m.Range
  sorted : c.pairs.Pairwise PairLt

variable {c : CorpusList}

theorem Ordered.lex (h : Ordered c) : c.range.Pairwise Lex := by
  have := h.sorted
  rw [CorpusList.pairs, pairwise_map] at this
  exact this

theorem Ordered.scanned (h : Ordered c) : Scanned 0 c.range where
  nonneg := le_rfl
  range m hm := .inr (h.range m hm)
  sorted := h.lex.imp fun hab _ _ => by rcases hab with h | ⟨h, -⟩ <;> omega

theorem Ordered.keptPairs (h : Ordered c) : keptPairs c.range = c.pairs :=
  keptPairs_of_range h.range

theorem minimalMatches_spec (h : Ordered c) :
    (rMinimalMatches c).pairs.Sublist c.pairs ∧
      ∀ p, p ∈ (rMinimalMatches c).pairs ↔ p ∈ c.pairs ∧ ∀ p' ∈ c.pairs, Inside p' p → p' = p := by
  unfold rMinimalMatches
  rw [pairs_rReduce]
  exact minimalLoop_spec c.range h.range h.lex

theorem maximalMatches_spec (h : Ordered c) :
    (rMaximalMatches c).pairs.Sublist c.pairs ∧
      ∀ p, p ∈ (rMaximalMatches c).pairs ↔ p ∈ c.pairs ∧ ∀ p' ∈ c.pairs, Inside p p' → p' = p := by
  unfold rMaximalMatches
  rw [pairs_rReduce, ← h.keptPairs]
  exact maximalLoop_spec 0 c.range h.scanned (by rw [h.keptPairs]; exact h.sorted)

/-- The shortest range of the result with its start. -/
def Shortest (c : CorpusList) (p : ℤ × ℤ) : Prop :=
  p ∈ c.pairs ∧ ∀ p' ∈ c.pairs, p'.1 = p.1 → p.2 ≤ p'.2

/-- The result behind the first pass of `RLeftMaximalMatches`. -/
def shortestLines (c : CorpusList) : CorpusList := rReduce { c with range := sameStartLoop c.range }

theorem shortestLines_spec (h : Ordered c) :
    (shortestLines c).pairs.Sublist c.pairs ∧ ∀ p, p ∈ (shortestLines c).pairs ↔ Shortest c p := by
  unfold shortestLines
  rw [pairs_rReduce]
  exact sameStartLoop_spec c.range h.range h.lex

theorem shortestLines_ordered (h : Ordered c) : Ordered (shortestLines c) := by
  obtain ⟨hsub, -⟩ := shortestLines_spec h
  refine ⟨fun m hm => ?_, h.sorted.sublist hsub⟩
  obtain ⟨m', hm', he⟩ := mem_map.mp (hsub.subset (mem_map_of_mem hm))
  have := h.range m' hm'
  simp only [Match.pair, Prod.mk.injEq] at he
  simp only [Match.Range] at this ⊢
  omega

/-- No two lines share a start any more. -/
theorem shortestLines_start_lt (h : Ordered c) : (shortestLines c).pairs.Pairwise fun a b => a.1 < b.1 := by
  obtain ⟨-, hmem⟩ := shortestLines_spec h
  refine (shortestLines_ordered h).sorted.imp_of_mem fun {a b} ha hb hab => ?_
  rcases hab with hab | ⟨he, hlt⟩
  · exact hab
  · have := ((hmem b).mp hb).2 a ((hmem a).mp ha).1 he
    omega

theorem leftMaximalMatches_spec (h : Ordered c) :
    (rLeftMaximalMatches c).pairs.Sublist c.pairs ∧
      ∀ p, p ∈ (rLeftMaximalMatches c).pairs ↔
        Shortest c p ∧ ∀ p', Shortest c p' → p'.2 = p.2 → p.1 ≤ p'.1 := by
  obtain ⟨hsub1, hmem1⟩ := shortestLines_spec h
  have hord1 := shortestLines_ordered h
  obtain ⟨hsub2, hmem2⟩ := sameEndLoop_spec 0 (shortestLines c).range hord1.scanned
    (by rw [hord1.keptPairs]; exact shortestLines_start_lt h)
  have hp2 : (rLeftMaximalMatches c).pairs = keptPairs (sameEndLoop (shortestLines c).range) := pairs_rReduce _
  rw [hord1.keptPairs] at hsub2 hmem2
  rw [hp2]
  refine ⟨hsub2.trans hsub1, fun p => ?_⟩
  rw [hmem2, hmem1]
  exact and_congr_right fun _ => forall_congr' fun p' => by rw [hmem1]

end CWB
