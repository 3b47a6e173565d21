import CWB.Proofs.Strategies
import CWB.Spec.Cut

/-! A query with `cut n`. The loop of `simulate` with a limit finds the beginning of what it
finds without one; the match lists of all initial patterns are united and filtered in either
case, so that the two results begin alike exactly if the query is `CutSafe`. -/

namespace CWB
open List Ranked

variable {C A R : Type}

instance : IsStrictTotalOrder (ℤ × ℤ) PairLt where
  trichotomous a b hab hba := by
    unfold PairLt at hab hba
    exact Prod.ext (by omega) (by omega)
  irrefl a h := by
    unfold PairLt at h
    omega
  trans _ _ _ h h' := h.trans h'

/-- What a limit leaves of a list; a negative one is none. -/
def cutAt {α : Type} (cut : ℤ) (l : List α) : List α := if cut < 0 then l else l.take cut.toNat

theorem cutAt_zero {α : Type} (l : List α) : cutAt 0 l = [] := by simp [cutAt]

theorem cutAt_neg {α : Type} (l : List α) : cutAt (-1) l = l := by simp [cutAt]

theorem cutAt_cons {α : Type} {cut : ℤ} (hc : cut ≠ 0) (a : α) (l : List α) :
    cutAt cut (a :: l) = a :: cutAt (if cut > 0 then cut - 1 else cut) l := by
  unfold cutAt
  by_cases hneg : cut < 0
  · have hpos : ¬cut > 0 := by omega
    rw [if_neg hpos, if_pos hneg, if_pos hneg]
  · obtain ⟨k, rfl⟩ : ∃ k : ℕ, cut = k + 1 := ⟨(cut - 1).toNat, by omega⟩
    have hpos : (k : ℤ) + 1 > 0 := by omega
    have hk : ¬(k : ℤ) + 1 - 1 < 0 := by omega
    have htake : ((k : ℤ) + 1).toNat = k + 1 := by omega
    have htake' : ((k : ℤ) + 1 - 1).toNat = k := by omega
    rw [if_pos hpos, if_neg hneg, if_neg hk, htake, htake', take_succ_cons]

variable {starts : List ℤ} {rp p : ℕ}

namespace EvalEnv

variable {env : EvalEnv C A R} {fuel : ℕ}

theorem LooksAt.unique {s : ℤ} {rp' : ℕ} {r r' : Match} (h : env.LooksAt s rp r)
    (h' : env.LooksAt s rp' r') : rp = rp' ∧ r = r' := by
  rcases Nat.lt_trichotomy rp rp' with hlt | rfl | hgt
  · exact absurd (h'.passed rp hlt r h.get) (not_lt.mpr h.stop)
  · exact ⟨rfl, Option.some.inj (h.get.symm.trans h'.get)⟩
  · exact absurd (h.passed rp' hgt r' h'.get) (not_lt.mpr h'.stop)

theorem InitialStarts.unique {starts' : List ℤ} (h : env.InitialStarts p starts)
    (h' : env.InitialStarts p starts') : starts = starts' :=
  Option.some.inj (h.2.2.symm.trans h'.2.2)

/-- More fuel does not change the result of a simulation. -/
theorem simulateFrom_unique {b : ℤ} {first : Option ℕ} {s : ℤ} {fuel fuel' : ℕ}
    {sim sim' : Sim} (h : env.simulateFrom rp b first s fuel = some sim)
    (h' : env.simulateFrom rp b first s fuel' = some sim') : sim = sim' := by
  have hm := runCycles_mono (q := ⟨rp, b, first, s⟩) (le_max_left fuel fuel') _ _ h
  have hm' := runCycles_mono (q := ⟨rp, b, first, s⟩) (le_max_right fuel fuel') _ _ h'
  exact Option.some.inj (hm.symm.trans hm')

/-- At a start position inside a range the automaton finds what the simulation reports. -/
theorem finds_iff (hfinal : env.dfa.final 0 = false)
    (hp : env.InitialStarts p starts) {s : ℤ} (hs : s ∈ starts) {r : Match}
    (hl : env.LooksAt s rp r) (hb : env.boundary s r ≠ -1) {sim : Sim}
    (hsim : env.simulateFrom rp (env.boundary s r) (some p) s fuel = some sim) (e : ℤ) :
    env.Finds p (s, e) ↔ reports s sim = true ∧ sim.winner = e := by
  constructor
  · rintro ⟨-, starts', rp', r', sim', fuel', -, -, hl', -, hsim', hrep, hwin⟩
    obtain ⟨rfl, rfl⟩ := hl.unique hl'
    obtain rfl := simulateFrom_unique hsim hsim'
    exact ⟨hrep, hwin⟩
  · rintro ⟨hrep, hwin⟩
    exact ⟨hfinal, starts, rp, r, sim, fuel, hp, hs, hl, hb, hsim, hrep, hwin⟩

theorem Finds.range {x : ℤ × ℤ} (hc : env.Completes fuel) (h : env.Finds p x) :
    0 ≤ x.1 ∧ x.1 ≤ x.2 := by
  obtain ⟨-, starts, rp, r, sim, fuel', hp, hs, -, -, -, hrep, hwin⟩ := h
  obtain ⟨starts', hst, -, hnonneg⟩ := hc.initial p hp.1 hp.2.1
  obtain rfl := hp.unique ⟨hp.1, hp.2.1, hst⟩
  simp only [reports, Bool.and_eq_true, decide_eq_true_eq] at hrep
  exact ⟨hnonneg _ hs, hwin ▸ hrep.2⟩

/-- The elements of a match list for the initial transition with the starts `starts`, and a
range pointer behind which all of them lie. -/
structure Queued (env : EvalEnv C A R) (starts : List ℤ) (rp : ℕ) (ms : List Match) : Prop where
  ascending : ms.Pairwise fun a b => a.start < b.start
  mem : ∀ m ∈ ms, m.start ∈ starts
  passed : ∀ m ∈ ms, ∀ j < rp, ∀ r, env.queryCorpus.range[j]? = some r → r.stop < m.start

theorem Queued.tail {m : Match} {ms : List Match} (h : Queued env starts rp (m :: ms)) : Queued env starts rp ms :=
  ⟨(pairwise_cons.mp h.ascending).2, fun x hx => h.mem x (mem_cons_of_mem m hx),
    fun x hx => h.passed x (mem_cons_of_mem m hx)⟩

/-- One element of a loop that is not stopped. -/
theorem simulate_element (first : Option ℕ) (m : Match) {r : Match} (rest : List Match)
    (hget : env.queryCorpus.range[rp]? = some r) {cut : ℤ} (hcut : cut ≠ 0) (fuel : ℕ) :
    env.simulate first fuel (m :: rest) rp cut true =
      if m.start < r.start then
        (env.simulate first fuel rest rp cut true).map fun out => (m.mark :: out.1, out.2)
      else if m.start > r.stop then env.simulate first fuel (m :: rest) (rp + 1) cut true
      else if env.boundary m.start r = -1 then
        (env.simulate first fuel rest rp cut true).map fun out =>
          ({ m.mark with target := -1, keyword := -1 } :: out.1, out.2)
      else match env.simulateFrom rp (env.boundary m.start r) first m.start fuel with
        | none => none
        | some sim => (env.simulate first fuel rest rp
            (if reports m.start sim ∧ cut > 0 then cut - 1 else cut) sim.evaluationIsRunning).map
            fun out => (env.finishElement m sim :: out.1, out.2) := by
  obtain ⟨hlt, rfl⟩ := List.getElem?_eq_some_iff.mp hget
  rw [simulate, if_neg (by simp [hcut]), dif_pos hlt]
  rfl

/-- The matches `raws` of the elements `ms`, and what the loop makes of them with a limit. -/
structure Lists (env : EvalEnv C A R) (fuel p rp : ℕ) (ms : List Match) (raws : List (ℤ × ℤ)) :
    Prop where
  starts : (raws.map Prod.fst).Sublist (ms.map Match.start)
  mem : ∀ x, x ∈ raws ↔ (∃ m ∈ ms, m.start = x.1) ∧ env.Finds p x
  run : ∀ cut : ℤ, ∃ out, env.simulate (some p) fuel ms rp cut true = some (out, true) ∧
    (∀ m ∈ out, m.start = -1 ∨ m.Range) ∧ keptPairs out = cutAt cut raws

theorem lists_nil (fuel p rp : ℕ) : Lists env fuel p rp [] [] :=
  ⟨List.Sublist.refl _, by simp, fun cut => ⟨[], by rw [simulate], by simp,
    by simp [keptPairs, cutAt]⟩⟩

/-- A loop that has no matches to find any more marks everything. -/
theorem simulate_stopped (p rp : ℕ) (m : Match) (rest : List Match) (fuel : ℕ) :
    ∃ out, env.simulate (some p) fuel (m :: rest) rp 0 true = some (out, true) ∧
      (∀ m ∈ out, m.start = -1 ∨ m.Range) ∧ keptPairs out = [] := by
  refine ⟨(m :: rest).map Match.mark, by rw [simulate, if_pos (.inl rfl)], ?_, ?_⟩
  · intro x hx
    obtain ⟨y, -, rfl⟩ := mem_map.mp hx
    exact .inl rfl
  · have hall : ∀ x ∈ (m :: rest).map Match.mark, ¬x.kept = true := by
      intro x hx
      obtain ⟨y, -, rfl⟩ := mem_map.mp hx
      simp [Match.kept, Match.mark]
    rw [keptPairs, filter_eq_nil_iff.mpr hall, map_nil]

/-- An element without a match is marked, whatever the limit. -/
theorem Lists.cons_none {m m' : Match} {rest : List Match} {raws : List (ℤ × ℤ)}
    (h : Lists env fuel p rp rest raws) (hm : m'.start = -1) (hno : ∀ e, ¬env.Finds p (m.start, e))
    (hrun : ∀ cut ≠ 0, env.simulate (some p) fuel (m :: rest) rp cut true =
      (env.simulate (some p) fuel rest rp cut true).map fun out => (m' :: out.1, out.2)) :
    Lists env fuel p rp (m :: rest) raws := by
  refine ⟨h.starts.cons _, fun x => ?_, fun cut => ?_⟩
  · rw [h.mem]
    constructor
    · rintro ⟨⟨y, hy, hyx⟩, hx⟩
      exact ⟨⟨y, mem_cons_of_mem m hy, hyx⟩, hx⟩
    · rintro ⟨⟨y, hy, hyx⟩, hx⟩
      rcases mem_cons.mp hy with rfl | hy
      · exact absurd (show env.Finds p (y.start, x.2) by rw [hyx]; exact hx) (hno x.2)
      · exact ⟨⟨y, hy, hyx⟩, hx⟩
  · by_cases hcut : cut = 0
    · subst hcut
      rw [cutAt_zero]
      exact simulate_stopped p rp m rest fuel
    · obtain ⟨out, hout, hrange, hkept⟩ := h.run cut
      refine ⟨m' :: out, by rw [hrun cut hcut, hout]; rfl, fun x hx => ?_, ?_⟩
      · rcases mem_cons.mp hx with rfl | hx
        · exact .inl hm
        · exact hrange x hx
      · rw [keptPairs_cons_of_start _ hm, hkept]

theorem Lists.cons_some {m m' : Match} {rest : List Match} {raws : List (ℤ × ℤ)}
    (h : Lists env fuel p rp rest raws) (hs : m'.start = m.start) (hr : m'.Range)
    (hfinds : ∀ e, env.Finds p (m.start, e) ↔ e = m'.stop)
    (hrun : ∀ cut ≠ 0, env.simulate (some p) fuel (m :: rest) rp cut true =
      (env.simulate (some p) fuel rest rp (if cut > 0 then cut - 1 else cut) true).map
        fun out => (m' :: out.1, out.2)) :
    Lists env fuel p rp (m :: rest) (m'.pair :: raws) := by
  refine ⟨?_, fun x => ?_, fun cut => ?_⟩
  · rw [map_cons, map_cons, show m'.pair.1 = m.start from hs]
    exact h.starts.cons_cons _
  · rw [mem_cons, h.mem]
    constructor
    · rintro (rfl | ⟨⟨y, hy, hyx⟩, hx⟩)
      · refine ⟨⟨m, mem_cons_self, hs.symm⟩, ?_⟩
        rw [Match.pair, hs]
        exact (hfinds _).mpr rfl
      · exact ⟨⟨y, mem_cons_of_mem m hy, hyx⟩, hx⟩
    · rintro ⟨⟨y, hy, hyx⟩, hx⟩
      rcases mem_cons.mp hy with rfl | hy
      · refine .inl (Prod.ext (hyx.symm.trans hs.symm) ?_)
        exact (hfinds x.2).mp (by rw [hyx]; exact hx)
      · exact .inr ⟨⟨y, hy, hyx⟩, hx⟩
  · by_cases hcut : cut = 0
    · subst hcut
      rw [cutAt_zero]
      exact simulate_stopped p rp m rest fuel
    · obtain ⟨out, hout, hrange, hkept⟩ := h.run (if cut > 0 then cut - 1 else cut)
      refine ⟨m' :: out, by rw [hrun cut hcut, hout]; rfl, fun x hx => ?_, ?_⟩
      · rcases mem_cons.mp hx with rfl | hx
        · exact .inr hr
        · exact hrange x hx
      · rw [keptPairs_cons _ _ hr.kept, hkept, cutAt_cons hcut]

/-- No range holds the start of the first element. -/
theorem Queued.not_finds {m : Match} {ms : List Match} (h : Queued env starts rp (m :: ms))
    (hnext : ∀ r, env.queryCorpus.range[rp]? = some r → m.start < r.start ∧ m.start ≤ r.stop)
    (e : ℤ) : ¬env.Finds p (m.start, e) := by
  rintro ⟨-, -, rp', r, -, -, -, -, hl, -⟩
  rcases Nat.lt_trichotomy rp' rp with hlt | rfl | hgt
  · exact absurd (h.passed m mem_cons_self rp' hlt r hl.get) (not_lt.mpr hl.stop)
  · exact absurd (hnext r hl.get).1 (not_lt.mpr hl.start)
  · have hlen := (List.getElem?_eq_some_iff.mp hl.get).1
    have hrp : rp < env.queryCorpus.range.length := by omega
    have hpassed := hl.passed rp hgt _ (getElem?_eq_getElem hrp)
    exact absurd (hnext _ (getElem?_eq_getElem hrp)).2 (not_le.mpr hpassed)

/-- The loop of `simulate` with and without a limit. -/
theorem simulate_lists (hc : env.Completes fuel) (hfinal : env.dfa.final 0 = false)
    (hp : env.InitialStarts p starts) (ms : List Match) (rp : ℕ)
    (hq : Queued env starts rp ms) : ∃ raws, Lists env fuel p rp ms raws := by
  induction hn : ms.length + (env.queryCorpus.range.length - rp) generalizing ms rp with
  | zero =>
    obtain rfl : ms = [] := length_eq_zero_iff.mp (by omega)
    exact ⟨[], lists_nil fuel p rp⟩
  | succ n ih =>
  cases ms with
  | nil => exact ⟨[], lists_nil fuel p rp⟩
  | cons m rest =>
    simp only [length_cons] at hn
    have hskip : ∀ m' : Match, m'.start = -1 → (∀ e, ¬env.Finds p (m.start, e)) →
        (∀ cut ≠ 0, env.simulate (some p) fuel (m :: rest) rp cut true =
          (env.simulate (some p) fuel rest rp cut true).map fun out => (m' :: out.1, out.2)) →
        ∃ raws, Lists env fuel p rp (m :: rest) raws := by
      intro m' hm' hno hrun
      obtain ⟨raws, hraws⟩ := ih rest rp hq.tail (by omega)
      exact ⟨raws, hraws.cons_none hm' hno hrun⟩
    by_cases hlt : rp < env.queryCorpus.range.length
    · have hget : env.queryCorpus.range[rp]? = some (env.queryCorpus.range.get ⟨rp, hlt⟩) :=
        getElem?_eq_getElem hlt
      generalize env.queryCorpus.range.get ⟨rp, hlt⟩ = r at hget
      have heq := fun cut (hcut : cut ≠ 0) => simulate_element (some p) m rest hget hcut fuel
      by_cases h2 : m.start > r.stop
      · -- behind it: look at the next range
        have h1 : ¬m.start < r.start := by
          have hle := hc.ranges r (mem_of_getElem? hget)
          omega
        have hq' : Queued env starts (rp + 1) (m :: rest) := by
          refine ⟨hq.ascending, hq.mem, fun x hx j hj r' hr' => ?_⟩
          rcases Nat.lt_succ_iff_lt_or_eq.mp hj with hj | rfl
          · exact hq.passed x hx j hj r' hr'
          · rw [hget] at hr'
            obtain rfl := Option.some.inj hr'
            rcases mem_cons.mp hx with rfl | hx
            · exact h2
            · exact lt_trans h2 ((pairwise_cons.mp hq.ascending).1 x hx)
        obtain ⟨raws, hraws⟩ := ih (m :: rest) (rp + 1) hq' (by simp only [length_cons]; omega)
        refine ⟨raws, hraws.starts, hraws.mem, fun cut => ?_⟩
        by_cases hcut : cut = 0
        · subst hcut
          rw [cutAt_zero]
          exact simulate_stopped p rp m rest fuel
        · rw [heq cut hcut, if_neg h1, if_pos h2]
          exact hraws.run cut
      · have hstop : m.start ≤ r.stop := not_lt.mp h2
        by_cases h1 : m.start < r.start
        · -- before the current range
          refine hskip m.mark rfl (hq.not_finds fun r' hr' => ?_) fun cut hcut => ?_
          · rw [hget] at hr'
            obtain rfl := Option.some.inj hr'
            exact ⟨h1, hstop⟩
          · rw [heq cut hcut, if_pos h1]
        · have hlooks : env.LooksAt m.start rp r :=
            ⟨hget, hq.passed m mem_cons_self, not_lt.mp h1, hstop⟩
          have hstart := hq.mem m mem_cons_self
          by_cases hb : env.boundary m.start r = -1
          · -- no context
            refine hskip { m.mark with target := -1, keyword := -1 } rfl (fun e he => ?_)
              fun cut hcut => ?_
            · obtain ⟨-, -, rp', r', -, -, -, -, hl, hb', -⟩ := he
              obtain ⟨-, rfl⟩ := hlooks.unique hl
              exact hb' hb
            · rw [heq cut hcut, if_neg h1, if_neg h2, if_pos hb]
          · obtain ⟨sim, hsim, hrunning⟩ := hc.simulations p starts m.start rp r hp hstart hlooks hb
            have hfinds := finds_iff hfinal hp hstart hlooks hb hsim
            have hrun := fun cut hcut => heq cut hcut
            simp only [if_neg h1, if_neg h2, if_neg hb, hsim, hrunning] at hrun
            by_cases hrep : reports m.start sim = true
            · have hfe : (env.finishElement m sim).start = m.start ∧
                  (env.finishElement m sim).stop = sim.winner := by
                simp [finishElement, hrep]
              obtain ⟨raws, hraws⟩ := ih rest rp hq.tail (by omega)
              refine ⟨_, hraws.cons_some hfe.1 ?_ (fun e => ?_) fun cut hcut => ?_⟩
              · rw [Match.Range, hfe.1, hfe.2]
                exact Finds.range hc ((hfinds _).mpr ⟨hrep, rfl⟩)
              · rw [hfinds, hfe.2]
                exact ⟨fun h => h.2.symm, fun h => ⟨hrep, h.symm⟩⟩
              · rw [hrun cut hcut]
                simp only [hrep, true_and]
            · refine hskip (env.finishElement m sim) (by simp [finishElement, hrep, Match.mark])
                (fun e he => hrep ((hfinds e).mp he).1) fun cut hcut => ?_
              rw [hrun cut hcut, if_neg fun h => hrep h.1]
    · refine hskip m.mark rfl (hq.not_finds fun r' hr' => ?_) fun cut hcut => ?_
      · exact absurd (List.getElem?_eq_some_iff.mp hr').1 hlt
      · rw [simulate, if_neg (by simp [hcut]), dif_neg hlt]

/-! ### All initial transitions -/

/-- A match that the loop of `simulate_dfa` collects for the initial transition `p`. -/
def Taken (env : EvalEnv C A R) (cut : ℤ) (p : ℕ) (x : ℤ × ℤ) : Prop :=
  env.Finds p x ∧ (0 < cut → (rank PairLt (env.Finds p) x : ℤ) < cut)

/-- One initial transition: its reduced match list holds the matches taken. -/
theorem initial_lists (hc : env.Completes fuel) (hfinal : env.dfa.final 0 = false)
    (hp : env.InitialStarts p starts) (cut : ℤ) (targets keywords : Bool) :
    ∃ out, env.simulate (some p) fuel (starts.map fun s => ({ start := s, stop := s } : Match)) 0
        (if cut ≤ 0 then -1 else cut) true = some (out, true) ∧
      Collected (setopReduce { tab := out, ends := true, targets, keywords }) ∧
      ∀ x, x ∈ (setopReduce { tab := out, ends := true, targets, keywords }).pairs ↔
        Taken env cut p x := by
  obtain ⟨starts', hst, hasc, -⟩ := hc.initial p hp.1 hp.2.1
  obtain rfl := hp.unique ⟨hp.1, hp.2.1, hst⟩
  have hmap : (starts.map fun s => ({ start := s, stop := s } : Match)).map Match.start = starts := by
    rw [map_map]
    exact map_id starts
  have hq : Queued env starts 0 (starts.map fun s => ({ start := s, stop := s } : Match)) := by
    refine ⟨pairwise_map.mpr hasc, fun m hm => ?_, fun _ _ j hj => absurd hj (Nat.not_lt_zero j)⟩
    obtain ⟨s, hs, rfl⟩ := mem_map.mp hm
    exact hs
  obtain ⟨raws, hraws⟩ := simulate_lists hc hfinal hp _ 0 hq
  have hsorted : raws.Pairwise PairLt := by
    have hsub : (raws.map Prod.fst).Sublist starts := hmap ▸ hraws.starts
    exact (pairwise_map.mp (hasc.sublist hsub)).imp fun hlt => .inl hlt
  have hmem : ∀ x, x ∈ raws ↔ env.Finds p x := by
    intro x
    rw [hraws.mem]
    refine and_iff_right_of_imp fun hx => ?_
    obtain ⟨-, starts', -, -, -, -, hp', hs, -⟩ := hx
    obtain rfl := hp.unique hp'
    exact ⟨_, mem_map_of_mem hs, rfl⟩
  obtain ⟨out, hout, hrange, hkept⟩ := hraws.run (if cut ≤ 0 then -1 else cut)
  have htaken : (cutAt (if cut ≤ 0 then -1 else cut) raws).Sublist raws ∧
      ∀ x, x ∈ cutAt (if cut ≤ 0 then -1 else cut) raws ↔ Taken env cut p x := by
    by_cases hcut : cut ≤ 0
    · rw [if_pos hcut, cutAt_neg]
      refine ⟨List.Sublist.refl _, fun x => (hmem x).trans ?_⟩
      exact ⟨fun h => ⟨h, fun h' => absurd h' (not_lt.mpr hcut)⟩, fun h => h.1⟩
    · rw [if_neg hcut, cutAt, if_neg (by omega)]
      refine ⟨take_sublist _ _, fun x => (mem_take_iff hsorted hmem).trans ?_⟩
      refine and_congr_right fun _ => ⟨fun h _ => by omega, fun h => ?_⟩
      have := h (not_le.mp hcut)
      omega
  obtain ⟨hcol, hpairs⟩ := setopReduce_spec { tab := out, ends := true, targets, keywords } hrange
    (by rw [hkept]; exact hsorted.sublist htaken.1) rfl
  refine ⟨out, hout, hcol, fun x => ?_⟩
  rw [hpairs, hkept]
  exact htaken.2 x

theorem initialLoop_lists (hc : env.Completes fuel) (hfinal : env.dfa.final 0 = false) (cut : ℤ)
    (ps : List ℕ) (hps : ∀ p ∈ ps, p < env.dfa.maxInput) (total : Matchlist)
    (htotal : Collected total) :
    ∃ total', env.initialLoop cut fuel false ps total = some total' ∧ Collected total' ∧
      ∀ x, x ∈ total'.pairs ↔ x ∈ total.pairs ∨ ∃ p ∈ ps, Taken env cut p x := by
  induction ps generalizing total with
  | nil => exact ⟨total, rfl, htotal, by simp⟩
  | cons p ps ih =>
    have hps' : ∀ q ∈ ps, q < env.dfa.maxInput := fun q hq => hps q (mem_cons_of_mem p hq)
    -- the transition adds nothing
    have hskip : (∀ x, ¬Taken env cut p x) →
        env.initialLoop cut fuel false (p :: ps) total = env.initialLoop cut fuel false ps total →
        ∃ total', env.initialLoop cut fuel false (p :: ps) total = some total' ∧ Collected total' ∧
          ∀ x, x ∈ total'.pairs ↔ x ∈ total.pairs ∨ ∃ p' ∈ p :: ps, Taken env cut p' x := by
      intro hno heq
      obtain ⟨total', hrun, hcol, hmem⟩ := ih hps' total htotal
      refine ⟨total', by rw [heq, hrun], hcol, fun x => ?_⟩
      rw [hmem]
      simp [hno x]
    by_cases hE : env.dfa.transTable 0 p = env.dfa.eState
    · refine hskip (fun x hx => ?_) (by rw [initialLoop, if_pos hE])
      obtain ⟨⟨-, starts, -, -, -, -, hp, -⟩, -⟩ := hx
      exact hp.2.1 hE
    · obtain ⟨starts, hst, -⟩ := hc.initial p (hps p mem_cons_self) hE
      have hp : env.InitialStarts p starts := ⟨hps p mem_cons_self, hE, hst⟩
      cases starts with
      | nil =>
        refine hskip (fun x hx => ?_) (by rw [initialLoop, if_neg hE, hst])
        obtain ⟨⟨-, starts', -, -, -, -, hp', hs, -⟩, -⟩ := hx
        obtain rfl := hp.unique hp'
        cases hs
      | cons s starts =>
        obtain ⟨out, hout, hred, hmem⟩ := initial_lists hc hfinal hp cut env.hasTargetIndicator
          env.hasKeywordIndicator
        obtain ⟨hunion, hunionMem⟩ := setopUnion_spec htotal hred
        obtain ⟨total', hrun, hcol, hmem'⟩ := ih hps' _ hunion
        refine ⟨total', ?_, hcol, fun x => ?_⟩
        · rw [initialLoop, if_neg hE, hst]
          dsimp only
          rw [hout]
          exact hrun
        · rw [hmem', hunionMem, hmem]
          simp [or_assoc]

/-- Whether the only initial transition is treated on its own makes no difference. -/
theorem initialLoop_any {cut : ℤ} {total : Matchlist}
    (h : env.initialLoop cut fuel false (List.range env.dfa.maxInput) {} = some total) :
    env.initialLoop cut fuel (((List.range env.dfa.maxInput).filter fun p =>
      decide (env.dfa.transTable 0 p ≠ env.dfa.eState)).length = 1) (List.range env.dfa.maxInput) {} =
        some total := by
  by_cases hd : ((List.range env.dfa.maxInput).filter fun p =>
      decide (env.dfa.transTable 0 p ≠ env.dfa.eState)).length = 1
  · rw [decide_eq_true hd, initialLoop_deterministic _ _ _ _ hd.le (.inl rfl), h]
  · rw [decide_eq_false hd, h]

theorem simulateDfa_lists (hc : env.Completes fuel) (cut : ℤ) :
    ∃ res, env.simulateDfa cut false fuel = some res ∧ Ordered res ∧
      ∀ x, x ∈ res.pairs ↔ ∃ p, Taken env cut p x := by
  by_cases hf : env.dfa.final 0 = true
  · refine ⟨setCorpusMatchlists env.queryCorpus {} false, by rw [simulateDfa, if_pos hf],
      ⟨fun m hm => (nomatch hm), List.Pairwise.nil⟩, fun x => ?_⟩
    refine iff_of_false not_mem_nil ?_
    rintro ⟨p, ⟨hfinal, -⟩, -⟩
    rw [hf] at hfinal
    cases hfinal
  have hfinal : env.dfa.final 0 = false := by simpa using hf
  by_cases hsize : env.queryCorpus.size = 0
  · have hnil : env.queryCorpus.range = [] := length_eq_zero_iff.mp hsize
    refine ⟨env.queryCorpus, by rw [simulateDfa, if_neg hf, if_pos hsize],
      ⟨by simp [hnil], by simp [CorpusList.pairs, hnil]⟩, fun x => ?_⟩
    refine iff_of_false (by simp [CorpusList.pairs, hnil]) ?_
    rintro ⟨p, ⟨-, -, rp, r, -, -, -, -, hl, -⟩, -⟩
    have hget := hl.get
    rw [hnil] at hget
    cases hget
  · obtain ⟨total, hrun, hcol, hmem⟩ := initialLoop_lists hc hfinal cut
      (List.range env.dfa.maxInput) (fun p hp => mem_range.mp hp) {} collected_empty
    obtain ⟨hcol', hpairs⟩ := setopReduce_collected hcol
    refine ⟨setCorpusMatchlists env.queryCorpus (setopReduce total) false, ?_,
      ⟨hcol'.range, hcol'.sorted⟩, fun x => ?_⟩
    · rw [simulateDfa, if_neg hf, if_neg hsize, initialLoop_any hrun]
      rfl
    · have hres : (setCorpusMatchlists env.queryCorpus (setopReduce total) false).pairs = total.pairs :=
        hpairs
      rw [hres, hmem]
      constructor
      · rintro (h0 | ⟨p, -, hp⟩)
        · cases h0
        · exact ⟨p, hp⟩
      · rintro ⟨p, hp⟩
        obtain ⟨starts, -, -, -, -, hinit, -⟩ := hp.1.2
        exact .inr ⟨p, mem_range.mpr hinit.1, hp⟩

/-- The filter of the strategy keeps what it is meant to keep. -/
theorem applyStrategy_keeps (env : EvalEnv C A R) {res : CorpusList} (hord : Ordered res) :
    (env.applyStrategy res).pairs.Sublist res.pairs ∧
      ∀ x, x ∈ (env.applyStrategy res).pairs ↔ Keeps env.matchingStrategy {y | y ∈ res.pairs} x := by
  unfold applyStrategy Keeps
  cases env.matchingStrategy with
  | shortestMatch => exact minimalMatches_spec hord
  | longestMatch => exact maximalMatches_spec hord
  | standardMatch => exact leftMaximalMatches_spec hord
  | traditional => exact ⟨List.Sublist.refl _, fun x => Iff.rfl⟩

/-- The matches a query without a hard limit selects before the final cut. -/
theorem doStandardQuery_lists (hc : env.Completes fuel) (cut : ℤ) :
    ∃ res, env.doStandardQuery 0 cut false fuel = some (cutLines cut res) ∧
      res.pairs.Pairwise PairLt ∧
      ∀ x, x ∈ res.pairs ↔ Keeps env.matchingStrategy {y | ∃ p, Taken env cut p y} x := by
  obtain ⟨res, hrun, hord, hmem⟩ := simulateDfa_lists hc cut
  obtain ⟨hsub, hkeeps⟩ := applyStrategy_keeps env hord
  refine ⟨env.applyStrategy res, ?_, hord.sorted.sublist hsub, fun x => ?_⟩
  · have hhard : ¬((0 : ℤ) > 0 ∧ (0 : ℤ) < cut) := fun h => lt_irrefl 0 h.1
    rw [doStandardQuery, cqpRunQuery, if_neg hhard, hrun]
    rfl
  · rw [hkeeps]
    simp only [hmem]

theorem pairs_cutLines {n : ℕ} (hn : 0 < n) (res : CorpusList) :
    (cutLines n res).pairs = res.pairs.take n := by
  unfold cutLines CorpusList.pairs
  split_ifs with h
  · simp
  · rw [take_of_length_le]
    rw [length_map]
    have hlen : ¬((res.size : ℤ) > n) := fun hgt => h ⟨by omega, hgt⟩
    simpa [CorpusList.size] using hlen

end EvalEnv

/-- The query `"a"+ "b"` on the corpus "a a b", with shortest matches. -/
def plusQuery : EvalEnv ℕ Unit Unit where
  corpus := sampleCorpus [7, 7, 5] []
  queryCorpus := { type := .system, range := [⟨0, 2, -1, -1⟩] }
  patternlist p := .pattern none (if p = 0 then 7 else 5) .isNotTarget false
  dfa := {
    maxStates := 3, maxInput := 2, eState := 3, final := fun s => s == 2
    transTable := fun s p => if s = 0 ∧ p = 0 then 1 else if s = 1 then p + 1 else 3
    hasStart := pairDFA.hasStart, closed := by decide }
  searchContext := .word 100
  matchingStrategy := .shortestMatch

theorem plusQuery_completes : plusQuery.Completes 10 where
  ranges := by decide
  initial p hp _ := by
    have hp' : p = 0 ∨ p = 1 := by
      have : p < 2 := hp
      omega
    rcases hp' with rfl | rfl
    · exact ⟨[0, 1], by decide, by decide, by decide⟩
    · exact ⟨[2], by decide, by decide, by decide⟩
  simulations := by
    rintro p starts s rp r ⟨hp, hE, hst⟩ hs hl -
    have hp' : p = 0 := by
      have : p < 2 := hp
      obtain rfl | rfl : p = 0 ∨ p = 1 := by omega
      · rfl
      · exact absurd rfl hE
    subst hp'
    obtain rfl : [0, 1] = starts := Option.some.inj ((show _ = _ by decide).symm.trans hst)
    have hrp : rp < 1 := (List.getElem?_eq_some_iff.mp hl.get).1
    obtain rfl : rp = 0 := by omega
    obtain rfl : ⟨0, 2, -1, -1⟩ = r := Option.some.inj hl.get
    rcases mem_cons.mp hs with rfl | hs
    · exact ⟨_, rfl, by decide⟩
    · obtain rfl := mem_singleton.mp hs
      exact ⟨_, rfl, by decide⟩

end CWB
