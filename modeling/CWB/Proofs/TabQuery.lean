import CWB.Proofs.SubcorpusQuery

/-! TAB queries on the whole corpus return the greedy matches, those nested in an earlier one left out,
and the result always has room for them. -/

namespace CWB

open List

variable {C A R : Type}

/-! The room in the result. -/

theorem le_maxRes {starts : List ℤ} {lists : List (TabColumn × List ℤ)} {n : ℕ} (hstarts : n ≤ starts.length)
    (hlists : ∀ c ∈ lists, n ≤ c.2.length) : n ≤ maxRes starts lists := by
  unfold maxRes
  generalize starts.length = k at hstarts
  induction lists generalizing k with
  | nil => exact hstarts
  | cons c lists ih =>
    rw [foldl_cons]
    exact ih (fun c hc => hlists c (mem_cons_of_mem _ hc)) _ (le_min hstarts (hlists c mem_cons_self))

namespace EvalEnv

variable {env : EvalEnv C A R} {hardBoundary : ℤ}

/-- The loop appends what the loop without a limit finds, if there is room for it. -/
theorem tabResults_eq (env : EvalEnv C A R) (hardBoundary : ℤ) (maxRes : ℕ) (starts : List ℤ) (cols : List (TabColumn × List ℤ)) (result : List Match)
    (hroom : result.length + (env.tabLoop hardBoundary starts cols (result.getLast?.map Match.stop)).length ≤ maxRes) :
    env.tabResults hardBoundary maxRes starts cols result =
      some (result ++ env.tabLoop hardBoundary starts cols (result.getLast?.map Match.stop)) := by
  induction starts generalizing cols result with
  | nil => rw [tabResults, tabLoop, append_nil]
  | cons start starts ih =>
    have hall : ∀ stop : ℤ, (result.getLast?.map Match.stop).all (stop > ·) = result.getLast?.all (stop > ·.stop) := by
      intro stop
      cases result.getLast? <;> rfl
    rw [tabLoop] at hroom ⊢
    rw [tabResults]
    by_cases hb : env.calculateRightboundary start < 0
    · rw [if_pos hb] at hroom ⊢
      rw [if_pos hb]
      exact ih cols result hroom
    · rw [if_neg hb] at hroom ⊢
      rw [if_neg hb]
      generalize tabColumns hardBoundary (env.calculateRightboundary start) start cols = out at hroom ⊢
      obtain ⟨_ | stop, left⟩ := out
      · exact ih left result hroom
      · dsimp only at hroom ⊢
        rw [hall] at hroom ⊢
        by_cases hnew : result.getLast?.all (stop > ·.stop) = true
        · rw [if_pos hnew] at hroom ⊢
          rw [if_pos hnew]
          have hlast : (result ++ [{ start, stop : Match }]).getLast?.map Match.stop = some stop := by
            rw [getLast?_concat]
            rfl
          rw [length_cons] at hroom
          rw [if_pos (by omega), ih left _ (by rw [hlast, length_append, length_singleton]; omega), hlast,
            append_assoc]
          rfl
        · rw [if_neg hnew] at hroom ⊢
          rw [if_neg hnew]
          exact ih left result hroom

end EvalEnv

/-! The greedy choice. -/

section Greedy

variable {hardBoundary boundary p : ℤ}

/-- The window of a column: none if its lower end is behind the boundary. -/
theorem tabWindow_spec (hardBoundary boundary : ℤ) {col : TabColumn} (hmin : 0 < col.minDist) (hp : 0 ≤ p) :
    (EvalEnv.tabWindow hardBoundary boundary col p = none ∧ boundary < p + col.minDist) ∨
      ∃ hi, EvalEnv.tabWindow hardBoundary boundary col p = some (p + col.minDist, hi) ∧
        ∀ x, p + col.minDist ≤ x → (x ≤ hi ↔ ((col.reach hardBoundary).all (x ≤ p + ·) && x ≤ boundary) = true) := by
  have hlow : clCposOffset p col.minDist (boundary + 1) false =
      if boundary + 1 - p ≤ col.minDist then cdaEposorng else p + col.minDist := by
    unfold clCposOffset
    rw [if_pos (by omega)]
    rfl
  unfold EvalEnv.tabWindow
  dsimp only
  rw [hlow]
  by_cases hfar : boundary + 1 - p ≤ col.minDist
  · rw [if_pos hfar, if_pos (by decide)]
    exact .inl ⟨rfl, by omega⟩
  · rw [if_neg hfar, if_neg (by omega)]
    refine .inr ⟨_, rfl, fun x hx => ?_⟩
    unfold TabColumn.reach clCposOffset
    simp only [Option.all_some, Bool.and_eq_true, decide_eq_true_eq, if_true]
    -- the upper end is clamped to the boundary
    cases col.maxDist with
    | none =>
      simp only [Option.map_none, Option.getD_none]
      split_ifs <;> omega
    | some d =>
      simp only [Option.map_some, Option.getD_some, Int.ofNat_eq_natCast]
      split_ifs <;> omega

theorem head?_dropWhile_lt (items : List ℤ) (lo : ℤ) : (items.dropWhile (· < lo)).head? = items.find? (lo ≤ ·) := by
  have hnot : (fun x : ℤ => decide (lo ≤ x)) = fun x => !decide (x < lo) := by
    funext x
    rw [← decide_not]
    exact decide_eq_decide.mpr not_lt.symm
  rw [hnot, find?_not_eq_head?_dropWhile]

/-- The walk through the columns is the greedy choice. -/
theorem walk_eq_greedyEnd {cols : List (TabColumn × List ℤ)} (hmin : ∀ c ∈ cols, 0 < c.1.minDist)
    (hcpos : ∀ c ∈ cols, ∀ x ∈ c.2, 0 ≤ x) (hp : 0 ≤ p) :
    (GreedyWalk.walk (EvalEnv.tabWindow hardBoundary) boundary p cols).1 =
      greedyEnd (TabColumn.reach hardBoundary) boundary p cols := by
  induction cols generalizing p with
  | nil => rfl
  | cons c cols ih =>
    obtain ⟨col, items⟩ := c
    have hrest : ∀ {x : ℤ}, 0 ≤ x → (GreedyWalk.walk (EvalEnv.tabWindow hardBoundary) boundary x cols).1 =
        greedyEnd (TabColumn.reach hardBoundary) boundary x cols :=
      ih (fun c hc => hmin c (mem_cons_of_mem _ hc)) fun c hc => hcpos c (mem_cons_of_mem _ hc)
    have hlow : 0 < col.minDist := hmin (col, items) mem_cons_self
    have hfirst := head?_dropWhile_lt items (p + col.minDist)
    rw [greedyEnd, GreedyWalk.walk]
    rcases tabWindow_spec hardBoundary boundary hlow hp with ⟨hnone, hfar⟩ | ⟨hi, hwindow, hle⟩
    · rw [hnone]
      dsimp only
      cases hfind : items.find? (p + col.minDist ≤ ·) with
      | none => rfl
      | some x =>
        have hx : p + col.minDist ≤ x := by simpa using find?_some hfind
        dsimp only
        rw [if_neg (by simp only [Bool.and_eq_true, decide_eq_true_eq]; omega)]
    · rw [hwindow]
      dsimp only
      cases hdrop : items.dropWhile (· < p + col.minDist) with
      | nil =>
        rw [hdrop, head?_nil] at hfirst
        rw [← hfirst]
      | cons x rest =>
        rw [hdrop, head?_cons] at hfirst
        have hx : p + col.minDist ≤ x := by simpa using find?_some hfirst.symm
        rw [← hfirst]
        dsimp only
        by_cases hhi : x ≤ hi
        · rw [if_pos hhi, if_pos ((hle x hx).mp hhi)]
          exact hrest (by omega)
        · rw [if_neg hhi, if_neg fun h => hhi ((hle x hx).mpr h)]

end Greedy

namespace EvalEnv

variable {env : EvalEnv C A R} {hardBoundary : ℤ} {starts : List ℤ} {lists : List (TabColumn × List ℤ)}

theorem tabWindow_mono : ∀ col : TabColumn, Monotone fun p : ℤ => p + col.minDist := fun col a b hab => by
  dsimp only
  omega

/-- The columns of a TAB query: corpus positions in strictly ascending order, at distances of one token or more. -/
structure AscendingColumns (starts : List ℤ) (lists : List (TabColumn × List ℤ)) : Prop where
  first : starts.Pairwise (· < ·)
  next : ∀ c ∈ lists, c.2.Pairwise (· < ·)
  nonneg : (∀ p ∈ starts, 0 ≤ p) ∧ ∀ c ∈ lists, ∀ x ∈ c.2, 0 ≤ x
  distances : ∀ c ∈ lists, 0 < c.1.minDist ∧ ∀ d ∈ c.1.maxDist, c.1.minDist ≤ d

theorem AscendingColumns.chain_iff (h : AscendingColumns starts lists) {p q : ℤ} (hp : p ∈ starts) :
    (∃ b, env.rightBound p = some b ∧ GreedyWalk.Chain (tabWindow hardBoundary) b p lists q) ↔
      env.greedyMatch (TabColumn.reach hardBoundary) lists p = some q := by
  have hsorted : ∀ c ∈ lists, c.2.Pairwise (· ≤ ·) := fun c hc => (h.next c hc).imp le_of_lt
  have hwalk : ∀ b, GreedyWalk.Chain (tabWindow hardBoundary) b p lists q ↔
      greedyEnd (TabColumn.reach hardBoundary) b p lists = some q := by
    intro b
    rw [← GreedyWalk.walk_eq_some hsorted,
      walk_eq_greedyEnd (fun c hc => (h.distances c hc).1) h.nonneg.2 (h.nonneg.1 p hp)]
  unfold rightBound greedyMatch
  split_ifs with hb
  · simp
  · simp [hwalk]

/-- Of two pairs of an ascending list the one that starts further down ends further down. -/
theorem lt_of_ascending {l : List (ℤ × ℤ)} (h : l.Pairwise fun a b => a.1 < b.1 ∧ a.2 < b.2) {a b : ℤ × ℤ} (ha : a ∈ l)
    (hb : b ∈ l) (hlt : a.1 < b.1) : a.2 < b.2 := by
  induction l with
  | nil => exact absurd ha not_mem_nil
  | cons c l ih =>
    obtain ⟨hc, hl⟩ := pairwise_cons.mp h
    rcases mem_cons.mp ha with rfl | ha' <;> rcases mem_cons.mp hb with rfl | hb'
    · exact absurd hlt (lt_irrefl _)
    · exact (hc b hb').2
    · exact absurd ((hc a ha').1.trans hlt) (lt_irrefl _)
    · exact ih hl ha' hb'

/-- The loop finds the greedy matches, and those whose end does not go beyond the earlier ends are left out. -/
theorem AscendingColumns.tabLoop_spec (env : EvalEnv C A R) (hardBoundary : ℤ) (h : AscendingColumns starts lists) :
    ((env.tabLoop hardBoundary starts lists none).map Match.pair).Pairwise (fun a b => a.1 < b.1 ∧ a.2 < b.2) ∧
    (∀ p q, (p, q) ∈ (env.tabLoop hardBoundary starts lists none).map Match.pair ↔
      p ∈ starts ∧ env.greedyMatch (TabColumn.reach hardBoundary) lists p = some q ∧
        ∀ p' q', (p', q') ∈ (env.tabLoop hardBoundary starts lists none).map Match.pair → p' < p → q' < q) ∧
    (env.tabLoop hardBoundary starts lists none).length ≤ maxRes starts lists := by
  have hsorted : ∀ c ∈ lists, c.2.Pairwise (· ≤ ·) := fun c hc => (h.next c hc).imp le_of_lt
  have hlower : ∀ b i p lo hi, tabWindow hardBoundary b i p = some (lo, hi) → lo = p + (i : TabColumn).minDist :=
    fun _ _ _ _ _ h => tabWindow_lower h
  have hstarts : (0 :: starts).Pairwise (· ≤ ·) := pairwise_cons.mpr ⟨h.nonneg.1, h.first.imp le_of_lt⟩
  have hpassed := GreedyWalk.passed_refl (fun (i : TabColumn) (p : ℤ) => p + i.minDist) 0 lists
  have hpairs : (env.tabLoop hardBoundary starts lists none).map Match.pair =
      GreedyWalk.sweep (tabWindow hardBoundary) env.rightBound starts lists none := by
    rw [tabLoop_eq, map_map]
    exact map_id _
  have hsub : ((GreedyWalk.sweep (tabWindow hardBoundary) env.rightBound starts lists none).map Prod.fst).Sublist starts :=
    GreedyWalk.sweep_sublist _ _ _ _
  have hchains : ∀ m ∈ GreedyWalk.sweep (tabWindow hardBoundary) env.rightBound starts lists none,
      ∃ b, env.rightBound m.1 = some b ∧ GreedyWalk.Chain (tabWindow hardBoundary) b m.1 lists m.2 :=
    GreedyWalk.sweep_chain tabWindow_mono hlower hsorted hpassed hstarts
  have hasc : (GreedyWalk.sweep (tabWindow hardBoundary) env.rightBound starts lists none).Pairwise
      fun a b => a.1 < b.1 ∧ a.2 < b.2 := (GreedyWalk.sweep_ascending _ h.first _ _).1
  refine ⟨by rwa [hpairs], fun p q => ?_, ?_⟩
  · rw [hpairs]
    refine ⟨fun hmem => ?_, ?_⟩
    · have hp : p ∈ starts := hsub.subset (mem_map_of_mem hmem)
      have hchain : ∃ b, env.rightBound p = some b ∧ GreedyWalk.Chain (tabWindow hardBoundary) b p lists q :=
        hchains (p, q) hmem
      exact ⟨hp, (h.chain_iff hp).mp hchain, fun p' q' hmem' hlt => lt_of_ascending hasc hmem' hmem hlt⟩
    · rintro ⟨hp, hgreedy, hearlier⟩
      obtain ⟨b, hb, hchain⟩ := (h.chain_iff hp).mpr hgreedy
      have hlast : ∀ e, (none : Option ℤ) = some e → ∃ p₀ b₀, p₀ ≤ 0 ∧
          GreedyWalk.Chain (tabWindow hardBoundary) b₀ p₀ lists e := by simp
      obtain hnone | ⟨s, hle, hmem⟩ :=
        GreedyWalk.exists_sweep tabWindow_mono hlower hsorted hpassed hstarts hlast hp hb hchain
      · exact absurd hnone (by simp)
      · -- the walk kept with this end starts here, or the end would go beyond itself
        rcases hle.lt_or_eq with hlt | rfl
        · exact absurd (hearlier s q hmem hlt) (lt_irrefl q)
        · exact hmem
  · have hlen : (env.tabLoop hardBoundary starts lists none).length =
        (GreedyWalk.sweep (tabWindow hardBoundary) env.rightBound starts lists none).length := by
      rw [← hpairs, length_map]
    rw [hlen]
    refine le_maxRes ?_ fun c hc => ?_
    · have hle := hsub.length_le
      rwa [length_map] at hle
    · exact GreedyWalk.length_sweep_le tabWindow_mono hlower hsorted hpassed h.nonneg.1 h.first hc

/-- The assertion holds. -/
theorem AscendingColumns.tabResults_eq (env : EvalEnv C A R) (hardBoundary : ℤ) (h : AscendingColumns starts lists) :
    env.tabResults hardBoundary (maxRes starts lists) starts lists [] = some (env.tabLoop hardBoundary starts lists none) := by
  have hroom := (h.tabLoop_spec env hardBoundary).2.2
  have hres := EvalEnv.tabResults_eq env hardBoundary (maxRes starts lists) starts lists []
    (by rwa [length_nil, Nat.zero_add])
  rwa [nil_append] at hres

theorem markOffrangeMatches_whole {size : ℕ} {range cells : List Match} (h : range.map Match.pair = [(0, (size : ℤ) - 1)]) :
    markOffrangeMatches size range cells = (cells, 0) := by
  obtain ⟨r, rfl, hr⟩ := map_eq_singleton_iff.mp h
  obtain ⟨hstart, hstop⟩ := Prod.mk.inj hr
  exact if_pos ⟨hstart, hstop⟩

/-- On the whole corpus the result of a TAB query is what its loop finds. -/
theorem cqpRunTabQueryAssert_eq (env : EvalEnv C A R) (hardBoundary : ℤ) {first : ℕ} {cols : List TabColumn}
    (hwhole : env.queryCorpus.range.map Match.pair = [(0, (env.corpus.size : ℤ) - 1)])
    (hlists : env.tabLists first cols = some (starts, lists)) (h : AscendingColumns starts lists) :
    ∃ res, env.cqpRunTabQueryAssert hardBoundary first cols = some res ∧
      res.range = env.tabLoop hardBoundary starts lists none := by
  have hroom := (h.tabLoop_spec env hardBoundary).2.2
  unfold cqpRunTabQueryAssert
  rw [hlists]
  dsimp only
  by_cases hzero : maxRes starts lists = 0
  · rw [if_pos hzero]
    rw [hzero] at hroom
    exact ⟨_, rfl, (length_eq_zero_iff.mp (Nat.le_zero.mp hroom)).symm⟩
  · rw [if_neg hzero, h.tabResults_eq env hardBoundary]
    cases env.tabLoop hardBoundary starts lists none with
    | nil => exact ⟨_, rfl, rfl⟩
    | cons m tab =>
      dsimp only
      rw [markOffrangeMatches_whole hwhole]
      exact ⟨_, rfl, rfl⟩

end EvalEnv

/-- The query `TAB "a" * "b" within s` on one region of five words, with "a" (1) at 1 and "b" (2) at 4. -/
def unlimitedQuery : EvalEnv ℕ Unit Unit where
  corpus := sampleCorpus [0, 1, 0, 0, 2] [(0, 4)]
  queryCorpus := { type := .system, range := [⟨0, 4, -1, -1⟩] }
  patternlist p := .pattern none (p + 1) .isNotTarget false
  dfa := pairDFA
  searchContext := .structure () 1
  matchingStrategy := .standardMatch

theorem unlimitedQuery_columns : EvalEnv.AscendingColumns [1] [(⟨1, 1, none⟩, [4])] :=
  ⟨by decide, by decide, by decide, by decide⟩

end CWB
