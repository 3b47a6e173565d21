import Mathlib
import CWB.Proofs.Cut

/-! Which positions a subquery that begins with an anchor reports. The range pointer only moves forward, so that an anchor is
looked for in the ranges that no earlier anchor lies behind, and there in any range. -/

namespace CWB

open List

variable {C A R : Type}

namespace EvalEnv

variable {env : EvalEnv C A R} {first : ℕ} {field : AnchorField} {isClosing : Bool} {fuel : ℕ}

theorem comesInTime_cons {a : ℤ} {l : List ℤ} {p stop : ℤ} :
    ComesInTime (a :: l) p stop ↔ a = p ∨ (a ≤ stop ∧ ComesInTime l p stop) := by
  refine ⟨?_, ?_⟩
  · rintro ⟨before, after, heq, hle⟩
    cases before with
    | nil => exact .inl (List.cons.inj heq).1
    | cons b before =>
      obtain ⟨rfl, rfl⟩ := List.cons.inj heq
      exact .inr ⟨hle a mem_cons_self, before, after, rfl, fun x hx => hle x (mem_cons_of_mem a hx)⟩
  · rintro (rfl | ⟨hle, before, after, rfl, hbefore⟩)
    · exact ⟨[], l, rfl, fun _ h => absurd h not_mem_nil⟩
    · exact ⟨a :: before, after, rfl, forall_mem_cons.mpr ⟨hle, hbefore⟩⟩

theorem not_comesInTime_nil (p stop : ℤ) : ¬ComesInTime [] p stop := by
  rintro ⟨before, after, heq, -⟩
  exact cons_ne_nil _ _ (append_eq_nil_iff.mp heq.symm).2

/-- Undefined anchors make no difference. -/
theorem comesInTime_filter (l : List ℤ) {p stop : ℤ} (hp : 0 ≤ p) (hle : p ≤ stop) :
    ComesInTime (l.filter fun c => c ≠ -1) p stop ↔ ComesInTime l p stop := by
  induction l with
  | nil => rfl
  | cons a l ih =>
    by_cases ha : a = -1
    · rw [filter_cons_of_neg (by simp [ha]), comesInTime_cons, ih]
      refine ⟨fun h => .inr ⟨by omega, h⟩, ?_⟩
      rintro (heq | h)
      · omega
      · exact h.2
    · rw [filter_cons_of_pos (by simp [ha]), comesInTime_cons, comesInTime_cons, ih]

namespace AnchorQuery

variable (h : env.AnchorQuery first field isClosing fuel)

include h

theorem stop_lt {i j : ℕ} {a b : Match} (hi : env.queryCorpus.range[i]? = some a) (hj : env.queryCorpus.range[j]? = some b)
    (hlt : i < j) : a.stop < b.start := by
  obtain ⟨hil, rfl⟩ := List.getElem?_eq_some_iff.mp hi
  obtain ⟨hjl, rfl⟩ := List.getElem?_eq_some_iff.mp hj
  exact pairwise_iff_getElem.mp h.disjoint i j hil hjl hlt

theorem range_of {i : ℕ} {r : Match} (hi : env.queryCorpus.range[i]? = some r) : 0 ≤ r.start ∧ r.start ≤ r.stop :=
  h.range r (mem_of_getElem? hi)

theorem unique {i j : ℕ} {a b : Match} {p : ℤ} (hi : env.queryCorpus.range[i]? = some a)
    (hj : env.queryCorpus.range[j]? = some b) (ha : a.start ≤ p ∧ p ≤ a.stop) (hb : b.start ≤ p ∧ p ≤ b.stop) :
    i = j ∧ a = b := by
  rcases Nat.lt_trichotomy i j with hlt | rfl | hgt
  · have := h.stop_lt hi hj hlt
    omega
  · exact ⟨rfl, Option.some.inj (hi.symm.trans hj)⟩
  · have := h.stop_lt hj hi hgt
    omega

/-- What the loop finds from the range `rp` on: the positions that come before all those behind their range, where the
automaton accepts. -/
theorem simulate_positions (ms : List Match) (rp : ℕ) :
    ∃ out, env.simulate (some first) fuel ms rp (-1) true = some (out, true) ∧
      ∀ p, p ≠ -1 → ((∃ m ∈ out, m.start = p) ↔ ∃ i r, rp ≤ i ∧ env.queryCorpus.range[i]? = some r ∧ (r.start ≤ p ∧ p ≤ r.stop) ∧
        ComesInTime (ms.map Match.start) p r.stop ∧ env.AcceptsAt first i r p) := by
  induction hn : ms.length + (env.queryCorpus.range.length - rp) generalizing ms rp with
  | zero =>
    obtain rfl : ms = [] := length_eq_zero_iff.mp (by omega)
    refine ⟨[], by rw [simulate], fun p _ => iff_of_false (by simp) ?_⟩
    rintro ⟨i, r, -, -, -, htime, -⟩
    exact not_comesInTime_nil _ _ htime
  | succ n ih =>
  cases ms with
  | nil =>
    refine ⟨[], by rw [simulate], fun p _ => iff_of_false (by simp) ?_⟩
    rintro ⟨i, r, -, -, -, htime, -⟩
    exact not_comesInTime_nil _ _ htime
  | cons m rest =>
    simp only [length_cons] at hn
    obtain ⟨out, hout, hmem⟩ := ih rest rp (by omega)
    by_cases hlt : rp < env.queryCorpus.range.length
    · have hget : env.queryCorpus.range[rp]? = some (env.queryCorpus.range.get ⟨rp, hlt⟩) := getElem?_eq_getElem hlt
      generalize env.queryCorpus.range.get ⟨rp, hlt⟩ = r at hget
      have heq := simulate_element (some first) m rest hget (show (-1 : ℤ) ≠ 0 by decide) fuel
      by_cases hbehind : m.start > r.stop
      · -- the pointer moves on, and does not come back for what lies in this range
        have hrange := h.range_of hget
        obtain ⟨out, hout, hmem⟩ := ih (m :: rest) (rp + 1) (by simp only [length_cons]; omega)
        refine ⟨out, by rw [heq, if_neg (by omega), if_pos hbehind, hout], fun p hp => (hmem p hp).trans ?_⟩
        refine exists_congr fun i => exists_congr fun r' => ?_
        refine ⟨fun hi => ⟨by omega, hi.2⟩, fun hfound => ?_⟩
        obtain ⟨hle, hi, hin, htime, hacc⟩ := hfound
        refine ⟨?_, hi, hin, htime, hacc⟩
        rcases hle.eq_or_lt with rfl | hlt
        · obtain rfl := Option.some.inj (hget.symm.trans hi)
          rcases comesInTime_cons.mp htime with heq | ⟨hle, -⟩ <;> omega
        · exact hlt
      -- the element does not lie behind any of the ranges that are left
      have hle : ∀ (i : ℕ) (r' : Match), rp ≤ i → env.queryCorpus.range[i]? = some r' → m.start ≤ r'.stop := by
        intro i r' hi hr'
        rcases hi.eq_or_lt with rfl | hlt
        · obtain rfl := Option.some.inj (hget.symm.trans hr')
          exact not_lt.mp hbehind
        · have := h.stop_lt hget hr' hlt
          have := h.range_of hr'
          omega
      have hsplit : ∀ p, (∃ i r', rp ≤ i ∧ env.queryCorpus.range[i]? = some r' ∧ (r'.start ≤ p ∧ p ≤ r'.stop) ∧
          ComesInTime ((m :: rest).map Match.start) p r'.stop ∧ env.AcceptsAt first i r' p) ↔
            (m.start = p ∧ ∃ i r', rp ≤ i ∧ env.queryCorpus.range[i]? = some r' ∧ (r'.start ≤ p ∧ p ≤ r'.stop) ∧
              env.AcceptsAt first i r' p) ∨
            ∃ i r', rp ≤ i ∧ env.queryCorpus.range[i]? = some r' ∧ (r'.start ≤ p ∧ p ≤ r'.stop) ∧
              ComesInTime (rest.map Match.start) p r'.stop ∧ env.AcceptsAt first i r' p := by
        intro p
        simp only [map_cons, comesInTime_cons]
        refine ⟨?_, ?_⟩
        · rintro ⟨i, r', hi, hr', hin, hfirst | ⟨-, htime⟩, hacc⟩
          · exact .inl ⟨hfirst, i, r', hi, hr', hin, hacc⟩
          · exact .inr ⟨i, r', hi, hr', hin, htime, hacc⟩
        · rintro (⟨hfirst, i, r', hi, hr', hin, hacc⟩ | ⟨i, r', hi, hr', hin, htime, hacc⟩)
          · exact ⟨i, r', hi, hr', hin, .inl hfirst, hacc⟩
          · exact ⟨i, r', hi, hr', hin, .inr ⟨hle i r' hi hr', htime⟩, hacc⟩
      -- an element without a match adds nothing
      have hskip : ∀ m' : Match, m'.start = -1 → (∀ i r', rp ≤ i → env.queryCorpus.range[i]? = some r' →
          r'.start ≤ m.start → m.start ≤ r'.stop → ¬env.AcceptsAt first i r' m.start) →
          ∀ p, p ≠ -1 → ((∃ x ∈ m' :: out, x.start = p) ↔ ∃ i r', rp ≤ i ∧ env.queryCorpus.range[i]? = some r' ∧
            (r'.start ≤ p ∧ p ≤ r'.stop) ∧ ComesInTime ((m :: rest).map Match.start) p r'.stop ∧ env.AcceptsAt first i r' p) := by
        intro m' hm' hno p hp
        rw [hsplit, ← hmem p hp]
        refine ⟨?_, ?_⟩
        · rintro ⟨x, hx, hxp⟩
          rcases mem_cons.mp hx with rfl | hx
          · exact absurd (hm'.symm.trans hxp).symm hp
          · exact .inr ⟨x, hx, hxp⟩
        · rintro (⟨rfl, i, r', hi, hr', hin, hacc⟩ | ⟨x, hx, hxp⟩)
          · exact absurd hacc (hno i r' hi hr' hin.1 hin.2)
          · exact ⟨x, mem_cons_of_mem m' hx, hxp⟩
      by_cases hbefore : m.start < r.start
      · refine ⟨m.mark :: out, by rw [heq, if_pos hbefore, hout]; rfl, hskip m.mark rfl fun i r' hi hr' hlo hhi => ?_⟩
        rcases hi.eq_or_lt with rfl | hlt
        · obtain rfl := Option.some.inj (hget.symm.trans hr')
          omega
        · have := h.stop_lt hget hr' hlt
          have := h.range_of hget
          omega
      have hin : r.start ≤ m.start ∧ m.start ≤ r.stop := ⟨not_lt.mp hbefore, not_lt.mp hbehind⟩
      by_cases hb : env.boundary m.start r = -1
      · refine ⟨{ m.mark with target := -1, keyword := -1 } :: out,
          by rw [heq, if_neg hbefore, if_neg hbehind, if_pos hb, hout]; rfl, hskip _ rfl fun i r' hi hr' hlo hhi hacc => ?_⟩
        obtain ⟨rfl, rfl⟩ := h.unique hr' hget ⟨hlo, hhi⟩ hin
        exact hacc.1 hb
      obtain ⟨sim, hsim, hrunning⟩ := h.completes rp r m.start hget hin.1 hin.2 hb
      have hrun : env.simulate (some first) fuel (m :: rest) rp (-1) true = some (env.finishElement m sim :: out, true) := by
        rw [heq, if_neg hbefore, if_neg hbehind, if_neg hb, hsim]
        dsimp only
        rw [if_neg fun h => absurd h.2 (by decide), hrunning, hout]
        rfl
      by_cases hrep : reports m.start sim = true
      · refine ⟨_, hrun, fun p hp => ?_⟩
        have hstart : (env.finishElement m sim).start = m.start := by simp [finishElement, hrep]
        rw [hsplit, ← hmem p hp]
        refine ⟨?_, ?_⟩
        · rintro ⟨x, hx, rfl⟩
          rcases mem_cons.mp hx with rfl | hx
          · rw [hstart]
            exact .inl ⟨rfl, rp, r, le_rfl, hget, hin, hb, fuel, sim, hsim, hrep⟩
          · exact .inr ⟨x, hx, rfl⟩
        · rintro (⟨rfl, -⟩ | ⟨x, hx, hxp⟩)
          · exact ⟨_, mem_cons_self, hstart⟩
          · exact ⟨x, mem_cons_of_mem _ hx, hxp⟩
      · refine ⟨_, hrun, hskip _ (by simp [finishElement, hrep, Match.mark]) fun i r' hi hr' hlo hhi hacc => ?_⟩
        obtain ⟨rfl, rfl⟩ := h.unique hr' hget ⟨hlo, hhi⟩ hin
        obtain ⟨-, fuel', sim', hsim', hrep'⟩ := hacc
        rw [simulateFrom_unique hsim hsim'] at hrep
        exact hrep hrep'
    · refine ⟨m.mark :: out, by rw [simulate, if_neg (by simp), dif_neg hlt, hout]; rfl, fun p hp => ?_⟩
      refine iff_of_false ?_ ?_
      · rintro ⟨x, hx, hxp⟩
        rcases mem_cons.mp hx with rfl | hx
        · exact hp hxp.symm
        · obtain ⟨i, r, hi, hr, -⟩ := (hmem p hp).mp ⟨x, hx, hxp⟩
          exact hlt (hi.trans_lt (List.getElem?_eq_some_iff.mp hr).1)
      · rintro ⟨i, r, hi, hr, -⟩
        exact hlt (hi.trans_lt (List.getElem?_eq_some_iff.mp hr).1)

omit h in
/-- Transitions that lead to the error state are passed over. -/
theorem initialLoop_filter (cut : ℤ) (deterministic : Bool) (ps : List ℕ) (total : Matchlist) :
    env.initialLoop cut fuel deterministic ps total =
      env.initialLoop cut fuel deterministic (ps.filter fun p => decide (env.dfa.transTable 0 p ≠ env.dfa.eState)) total := by
  induction ps generalizing total with
  | nil => rfl
  | cons p ps ih =>
    by_cases hE : env.dfa.transTable 0 p = env.dfa.eState
    · rw [filter_cons_of_neg (by simp [hE]), initialLoop, if_pos hE, ih]
    · rw [filter_cons_of_pos (by simp [hE]), initialLoop, initialLoop, if_neg hE, if_neg hE]
      simp only [ih]

theorem initial_eq :
    (List.range env.dfa.maxInput).filter (fun p => decide (env.dfa.transTable 0 p ≠ env.dfa.eState)) = [first] := by
  have hcongr : (List.range env.dfa.maxInput).filter (fun p => decide (env.dfa.transTable 0 p ≠ env.dfa.eState)) =
      (List.range env.dfa.maxInput).filter fun p => p == first := by
    refine filter_congr fun p hp => ?_
    rw [Bool.beq_eq_decide_eq, decide_eq_decide]
    exact h.initial p (mem_range.mp hp)
  rw [hcongr, filter_beq, count_eq_one_of_mem nodup_range (mem_range.mpr h.lt)]
  rfl

/-- The start positions of the anchors. -/
theorem matchfirstpattern_eq (hsize : env.queryCorpus.size ≠ 0) : env.matchfirstpattern (env.patternlist first) =
    some (((List.range env.queryCorpus.size).map (env.startAnchor field isClosing)).filter fun c => c ≠ -1) := by
  have htargets : ¬(field = .targetField ∧ !env.queryCorpus.targets) := fun ⟨hf, ht⟩ => by simp [h.targets hf] at ht
  have hkeywords : ¬(field = .keywordField ∧ !env.queryCorpus.keywords) := fun ⟨hf, hk⟩ => by simp [h.keywords hf] at hk
  rw [h.element, matchfirstpattern, if_neg hsize, if_neg htargets, if_neg hkeywords]
  rfl

/-- The match list of the query: what the loop over the anchors finds. -/
theorem initialLoop_eq (hsize : env.queryCorpus.size ≠ 0) : ∃ total,
    env.initialLoop 0 fuel true (List.range env.dfa.maxInput) {} = some total ∧
      ∀ p, p ≠ -1 → ((∃ m ∈ total.tab, m.start = p) ↔ ∃ i r, env.queryCorpus.range[i]? = some r ∧
        (r.start ≤ p ∧ p ≤ r.stop) ∧
          ComesInTime ((List.range env.queryCorpus.size).map (env.startAnchor field isClosing)) p r.stop ∧
            env.AcceptsAt first i r p) := by
  have hE : env.dfa.transTable 0 first ≠ env.dfa.eState := (h.initial first h.lt).mpr rfl
  generalize hanchors : (List.range env.queryCorpus.size).map (env.startAnchor field isClosing) = anchors
  have hmatch := h.matchfirstpattern_eq hsize
  rw [hanchors] at hmatch
  obtain ⟨out, hout, hmem⟩ := h.simulate_positions
    ((anchors.filter fun c => c ≠ -1).map fun s => ({ start := s, stop := s } : Match)) 0
  have hstarts : ((anchors.filter fun c => c ≠ -1).map fun s => ({ start := s, stop := s } : Match)).map Match.start =
      anchors.filter fun c => c ≠ -1 := by
    rw [map_map]
    exact map_id _
  rw [hstarts] at hmem
  have hmem' : ∀ p, p ≠ -1 → ((∃ m ∈ out, m.start = p) ↔ ∃ i r, env.queryCorpus.range[i]? = some r ∧
      (r.start ≤ p ∧ p ≤ r.stop) ∧ ComesInTime anchors p r.stop ∧ env.AcceptsAt first i r p) := by
    intro p hp
    rw [hmem p hp]
    refine exists_congr fun i => exists_congr fun r => ⟨?_, ?_⟩
    · rintro ⟨-, hr, hin, htime, hacc⟩
      exact ⟨hr, hin, (comesInTime_filter anchors ((h.range_of hr).1.trans hin.1) hin.2).mp htime, hacc⟩
    · rintro ⟨hr, hin, htime, hacc⟩
      exact ⟨Nat.zero_le i, hr, hin, (comesInTime_filter anchors ((h.range_of hr).1.trans hin.1) hin.2).mpr htime, hacc⟩
  rw [initialLoop_filter, h.initial_eq, initialLoop, if_neg hE, hmatch]
  cases hcases : anchors.filter fun c => c ≠ -1 with
  | nil =>
    refine ⟨{}, rfl, fun p hp => ?_⟩
    rw [← hmem' p hp]
    have hnil : out = [] := by
      rw [hcases] at hout
      rw [map_nil, simulate] at hout
      exact (Prod.mk.inj (Option.some.inj hout)).1.symm
    rw [hnil]
  | cons s starts =>
    rw [hcases] at hout
    dsimp only
    rw [show (if (0 : ℤ) ≤ 0 then (-1 : ℤ) else 0) = -1 from rfl, hout]
    refine ⟨_, rfl, fun p hp => ?_⟩
    rw [if_pos rfl, tab_setopReduce, ← hmem' p hp]
    refine ⟨fun hex => ?_, fun hex => ?_⟩
    · obtain ⟨m, hm, hmp⟩ := hex
      exact ⟨m, (mem_filter.mp hm).1, hmp⟩
    · obtain ⟨m, hm, hmp⟩ := hex
      refine ⟨m, mem_filter.mpr ⟨hm, ?_⟩, hmp⟩
      simp [hmp, hp]

end AnchorQuery

/-- The result of the query: the positions that come in time and from which the automaton accepts. -/
theorem AnchorQuery.result (h : env.AnchorQuery first field isClosing fuel) : ∃ res, env.cqpRunQuery 0 0 false fuel = some res ∧
    ∀ p, (∃ e, (p, e) ∈ res.pairs) ↔ ∃ i r, env.queryCorpus.range[i]? = some r ∧ (r.start ≤ p ∧ p ≤ r.stop) ∧
      ComesInTime ((List.range env.queryCorpus.size).map (env.startAnchor field isClosing)) p r.stop ∧
        env.AcceptsAt first i r p := by
  have hfinal : ¬env.dfa.final 0 = true := by simp [h.nonempty]
  have hone : decide (((List.range env.dfa.maxInput).filter fun p =>
      decide (env.dfa.transTable 0 p ≠ env.dfa.eState)).length = 1) = true := by
    rw [h.initial_eq]
    rfl
  rw [cqpRunQuery, if_neg fun h => absurd h.1 (lt_irrefl 0)]
  by_cases hsize : env.queryCorpus.size = 0
  · have hnil : env.queryCorpus.range = [] := length_eq_zero_iff.mp hsize
    refine ⟨env.queryCorpus, by rw [simulateDfa, if_neg hfinal, if_pos hsize], fun p => iff_of_false ?_ ?_⟩
    · rintro ⟨e, he⟩
      simp [CorpusList.pairs, hnil] at he
    · rintro ⟨i, r, hr, -⟩
      simp [hnil] at hr
  · obtain ⟨total, htotal, hmem⟩ := h.initialLoop_eq hsize
    refine ⟨setCorpusMatchlists env.queryCorpus (setopReduce total) false, ?_, fun p => ?_⟩
    · simp only [simulateDfa, if_neg hfinal, if_neg hsize, hone, htotal, Option.map_some]
    have hpairs : (setCorpusMatchlists env.queryCorpus (setopReduce total) false).pairs =
        (total.tab.filter fun m => m.start ≠ -1).map Match.pair := by
      rw [← tab_setopReduce]
      rfl
    rw [hpairs]
    refine ⟨?_, fun hright => ?_⟩
    · rintro ⟨e, he⟩
      obtain ⟨m, hm, hpair⟩ := mem_map.mp he
      obtain ⟨hm, hne⟩ := mem_filter.mp hm
      obtain ⟨rfl, -⟩ := Prod.mk.inj hpair
      exact (hmem m.start (by simpa using hne)).mp ⟨m, hm, rfl⟩
    · have hp : p ≠ -1 := by
        obtain ⟨i, r, hr, hin, -⟩ := hright
        have := h.range_of hr
        omega
      obtain ⟨m, hm, rfl⟩ := (hmem p hp).mpr hright
      exact ⟨m.stop, mem_map.mpr ⟨m, mem_filter.mpr ⟨hm, by simpa using hp⟩, rfl⟩⟩

/-- A subquery that begins with an anchor is exact if and only if the anchors are in order where the automaton accepts. -/
theorem cqpRunQuery_exactAnchors_iff (env : EvalEnv C A R) (first : ℕ) (field : AnchorField) (isClosing : Bool) (fuel : ℕ)
    (h : env.AnchorQuery first field isClosing fuel) : ∃ res, env.cqpRunQuery 0 0 false fuel = some res ∧
      (env.ExactAnchors first field isClosing res ↔ env.AnchorsInOrder first field isClosing) := by
  obtain ⟨res, hres, hmem⟩ := h.result
  refine ⟨res, hres, fun hexact i r p hr hlo hhi hacc => ?_, fun horder p => (hmem p).trans ?_⟩
  · refine ⟨fun htime => ?_, fun hown => ?_⟩
    · obtain ⟨j, r', hr', hin, hown, -⟩ := (hexact p).mp ((hmem p).mpr ⟨i, r, hr, ⟨hlo, hhi⟩, htime, hacc⟩)
      obtain ⟨rfl, -⟩ := h.unique hr hr' ⟨hlo, hhi⟩ hin
      exact hown
    · obtain ⟨j, r', hr', hin, htime, -⟩ := (hmem p).mp ((hexact p).mpr ⟨i, r, hr, ⟨hlo, hhi⟩, hown, hacc⟩)
      obtain ⟨-, rfl⟩ := h.unique hr hr' ⟨hlo, hhi⟩ hin
      exact htime
  · refine exists_congr fun i => exists_congr fun r => ?_
    refine and_congr_right fun hr => and_congr_right fun hin => and_congr_left fun hacc => ?_
    exact horder i r p hr hin.1 hin.2 hacc

end EvalEnv

/-- The query `<target> []` on two ranges of two tokens each; the first range has its target at the last token, the second one
at the token before. -/
def anchorQuery : EvalEnv ℕ Unit Unit where
  corpus := sampleCorpus [0, 0, 0, 0] []
  queryCorpus := { range := [⟨0, 1, 3, -1⟩, ⟨2, 3, 2, -1⟩], targets := true }
  patternlist p := if p = 0 then .anchor .targetField false else .matchAll none .isNotTarget false
  dfa := pairDFA
  searchContext := .word 100
  matchingStrategy := .standardMatch

theorem anchorQuery_spec : anchorQuery.AnchorQuery 0 .targetField false 4 where
  lt := by decide
  initial := by decide
  element := rfl
  nonempty := rfl
  range := by decide
  disjoint := by decide
  targets _ := rfl
  keywords h := nomatch h
  completes i r p hr hlo hhi _ := by
    have hi : i < 2 := (List.getElem?_eq_some_iff.mp hr).1
    interval_cases i
    · obtain rfl := Option.some.inj hr
      dsimp only at hlo hhi
      interval_cases p
      · exact ⟨_, rfl, rfl⟩
      · exact ⟨_, rfl, rfl⟩
    · obtain rfl := Option.some.inj hr
      dsimp only at hlo hhi
      interval_cases p
      · exact ⟨_, rfl, rfl⟩
      · exact ⟨_, rfl, rfl⟩

theorem cqpRunQuery_exactAnchors_anchorQuery : ∃ res, anchorQuery.cqpRunQuery 0 0 false 4 = some res ∧
    (anchorQuery.ExactAnchors 0 .targetField false res ↔ anchorQuery.AnchorsInOrder 0 .targetField false) :=
  EvalEnv.cqpRunQuery_exactAnchors_iff anchorQuery 0 .targetField false 4 anchorQuery_spec

/-- The target of the first range lies in the second one, and is reported there. -/
theorem cqpRunQuery_foreignAnchor : ¬∀ (env : EvalEnv ℕ Unit Unit) (first : ℕ) (field : AnchorField) (isClosing : Bool)
    (fuel : ℕ) (res : CorpusList), env.AnchorQuery first field isClosing fuel →
      env.cqpRunQuery 0 0 false fuel = some res → env.ExactAnchors first field isClosing res := by
  intro hall
  have hrun : (anchorQuery.cqpRunQuery 0 0 false 4).map CorpusList.pairs = some [(3, 3), (2, 2)] := by
    decide +kernel
  obtain ⟨res, hres, hpairs⟩ := Option.map_eq_some_iff.mp hrun
  have hexact := hall anchorQuery 0 .targetField false 4 res anchorQuery_spec hres
  obtain ⟨i, r, hr, hin, hown, -⟩ := (hexact 3).mp ⟨3, by rw [hpairs]; exact mem_cons_self⟩
  have hi : i < 2 := (List.getElem?_eq_some_iff.mp hr).1
  interval_cases i
  · obtain rfl := Option.some.inj hr
    exact absurd hin.2 (by decide)
  · exact absurd hown (by decide)

end CWB
