import CWB.Proofs.Simulation

/-! Queries over tokens only: every transition reads one token, so that all runs of one
length stand at one position and the simulation loses none of them. -/

namespace CWB

open Nat List

variable {C A R : Type}

namespace EvalEnv

variable {env : EvalEnv C A R} {q : Search}

/-- A transition is taken if its target is no error, the token lies within the boundary
and the element holds there. -/
theorem TokenQuery.next_eq (h : env.TokenQuery) (cfg : Config) {p : ℕ} (hp : p < env.dfa.maxInput) :
    ∃ labels, env.next q cfg p =
      if env.dfa.transTable cfg.state p ≠ env.dfa.eState ∧ cfg.cpos ≤ q.boundary ∧
          env.holds p cfg.cpos = true then
        some (⟨env.dfa.transTable cfg.state p, cfg.cpos + 1, labels⟩,
          env.dfa.final (env.dfa.transTable cfg.state p))
      else none := by
  have harrive : ∀ avs : AVS C A R, avs.zeroWidth = false → ∀ cpos target rt,
      env.arrive avs cpos target rt = (⟨target, cpos + 1, env.setTarget avs cpos rt⟩,
        env.dfa.final target) := by
    intro avs hz cpos target rt
    unfold arrive checkWinner
    rw [h.noGconstraint, hz]
    cases env.dfa.final target <;> rfl
  have hregions : ∀ rt eff, env.strictRegionsOk rt eff = true := by
    intro rt eff
    simp [strictRegionsOk, h.noRdat]
  refine ⟨env.setTarget (env.patternlist p) cfg.cpos cfg.labels, ?_⟩
  by_cases hE : env.dfa.transTable cfg.state p = env.dfa.eState
  · simp [next, hE]
  by_cases hb : cfg.cpos ≤ q.boundary
  · rcases h.elements p hp with ⟨t, he⟩ | ⟨c, t, he⟩
    · simp [next, he, inRange, hregions, AVS.effectiveCpos, AVS.isClosing, evalConstraint,
        RefTab.setLabel, harrive _ (show (AVS.matchAll none t false : AVS C A R).zeroWidth = false from rfl),
        holds, hE, hb]
    · cases hv : (env.corpus.evalBool c RefTab.reset cfg.cpos).1 <;>
        simp [next, he, inRange, hregions, AVS.effectiveCpos, AVS.isClosing, evalConstraint,
          RefTab.setLabel, h.unlabelled c cfg.labels, hv,
          harrive _ (show (AVS.pattern none c t false : AVS C A R).zeroWidth = false from rfl),
          holds, hE, hb]
  · rcases h.elements p hp with ⟨t, he⟩ | ⟨c, t, he⟩ <;>
      simp [next, he, inRange, AVS.effectiveCpos, AVS.isClosing, AVS.lookahead, hb]

theorem TokenQuery.next_some (h : env.TokenQuery) {cfg cfg' : Config} {p : ℕ} {wins : Bool}
    (hp : p < env.dfa.maxInput) (hn : env.next q cfg p = some (cfg', wins)) :
    cfg'.state = env.dfa.transTable cfg.state p ∧ cfg'.state ≠ env.dfa.eState ∧
      cfg'.cpos = cfg.cpos + 1 ∧ cfg.cpos ≤ q.boundary ∧ env.holds p cfg.cpos = true ∧
      wins = env.dfa.final cfg'.state := by
  obtain ⟨labels, he⟩ := h.next_eq (q := q) cfg hp
  rw [he] at hn
  split_ifs at hn with hif
  obtain ⟨rfl, rfl⟩ := Prod.mk.inj (Option.some.inj hn)
  exact ⟨rfl, hif.1, rfl, hif.2.1, hif.2.2, rfl⟩

theorem TokenQuery.labelDiscipline (h : env.TokenQuery) : env.LabelDiscipline ∅ where
  keeps c rt cpos := by rw [h.unlabelled]
  reads c rt rt' cpos _ := by rw [h.unlabelled, h.unlabelled c rt']
  rdat l hl := by rw [h.noRdat] at hl; cases hl
  regions _ p hp l hl := by
    rcases h.elements p hp with ⟨t, he⟩ | ⟨c, t, he⟩ <;> rw [he] at hl <;> cases hl

theorem TokenQuery.cpos (h : env.TokenQuery) {n : ℕ} {cfg : Config} (hr : env.Reach q n cfg) :
    cfg.cpos = q.start + n := by
  induction hr with
  | init => simp [initConfig]
  | step _ ha hn ih =>
    have := (h.next_some ha.1 hn).2.2.1
    push_cast
    omega

theorem TokenQuery.undisturbed (h : env.TokenQuery) : Undisturbed env ∅ q where
  apart n a b ha hb hs := ⟨hs, by rw [h.cpos ha, h.cpos hb], fun l hl => absurd hl (Set.notMem_empty l)⟩
  acyclic x hx := by
    have hlt : ∀ y, Relation.TransGen (env.Moves q) x y → x.2 < y.2 := by
      intro y hy
      have hstep : ∀ a b, env.Moves q a b → a.2 < b.2 := by
        rintro _ _ ⟨n, cfg, p, cfg', wins, -, ha, hn, rfl, rfl⟩
        have := (h.next_some ha.1 hn).2.2.1
        simp only [Config.place]
        omega
      induction hy with
      | single hm => exact hstep _ _ hm
      | tail _ hm ih => exact ih.trans (hstep _ _ hm)
    exact absurd (hlt x hx) (lt_irrefl _)
  nonempty n cfg := by
    rintro ⟨prev, p, hr, ha, hn⟩
    have := h.cpos (.step hr ha hn)
    push_cast at this
    omega

/-! Runs are the sequences of transitions that can be read off the corpus. -/

theorem walk_append (s : ℕ) (ps : List ℕ) (p : ℕ) :
    env.walk s (ps ++ [p]) = (env.walk s ps).bind fun s' =>
      if p < env.dfa.maxInput ∧ env.dfa.transTable s' p ≠ env.dfa.eState then
        some (env.dfa.transTable s' p) else none := by
  induction ps generalizing s with
  | nil => simp [walk]
  | cons a ps ih =>
    simp only [cons_append, walk]
    split_ifs with h
    · exact ih _
    · rfl

/-- `ps` can be read from the start position on. -/
def Readable (env : EvalEnv C A R) (start : ℤ) (ps : List ℕ) : Prop :=
  ∀ (i : ℕ) (p : ℕ), ps[i]? = some p → env.holds p (start + i) = true

theorem readable_append (start : ℤ) (ps : List ℕ) (p : ℕ) :
    Readable env start (ps ++ [p]) ↔
      Readable env start ps ∧ env.holds p (start + ps.length) = true := by
  constructor
  · intro h
    refine ⟨fun i a hi => h i a ?_, h ps.length p (by simp)⟩
    rw [getElem?_append_left (List.getElem?_eq_some_iff.mp hi).1]
    exact hi
  · rintro ⟨h1, h2⟩ i a hi
    rcases Nat.lt_trichotomy i ps.length with hlt | rfl | hgt
    · rw [getElem?_append_left hlt] at hi
      exact h1 i a hi
    · rw [getElem?_concat_length] at hi
      obtain rfl := Option.some.inj hi
      exact h2
    · rw [getElem?_eq_none (by simp; omega)] at hi
      cases hi

theorem head_append (ps : List ℕ) (p f : ℕ) :
    (ps ++ [p]).head? = some f ↔ if ps = [] then p = f else ps.head? = some f := by
  cases ps <;> simp

theorem TokenQuery.reach_iff (h : env.TokenQuery) (n s : ℕ) :
    (∃ cfg, env.Reach q n cfg ∧ cfg.state = s) ↔
      ∃ ps : List ℕ, ps.length = n ∧ env.walk 0 ps = some s ∧ Readable env q.start ps ∧
        (n = 0 ∨ q.start + n - 1 ≤ q.boundary) ∧
        (n = 0 ∨ ∀ f, q.first = some f → ps.head? = some f) := by
  induction n generalizing s with
  | zero =>
    constructor
    · rintro ⟨cfg, hc, rfl⟩
      rw [reach_zero hc]
      exact ⟨[], rfl, rfl, by intro i p hi; simp at hi, .inl rfl, .inl rfl⟩
    · rintro ⟨ps, hlen, hw, -⟩
      obtain rfl := length_eq_zero_iff.mp hlen
      exact ⟨_, .init, Option.some.inj hw⟩
  | succ n ih =>
    constructor
    · rintro ⟨cfg, hc, rfl⟩
      obtain ⟨prev, p, wins, hp, ha, hn⟩ := reach_succ hc
      obtain ⟨hst, hE, -, hb, hhold, -⟩ := h.next_some ha.1 hn
      obtain ⟨ps, hlen, hw, hread, hbd, hfst⟩ := (ih prev.state).mp ⟨prev, hp, rfl⟩
      rw [h.cpos hp] at hb hhold
      refine ⟨ps ++ [p], by simp [hlen], ?_, (readable_append _ _ _).mpr ⟨hread, by rw [hlen]; exact hhold⟩,
        .inr (by push_cast; omega), .inr fun f hf => ?_⟩
      · rw [walk_append, hw, Option.bind_some, if_pos ⟨ha.1, by rw [← hst]; exact hE⟩, hst]
      · rw [head_append]
        split_ifs with hnil
        · subst hnil
          exact ha.2 hlen.symm f hf
        · rcases hfst with rfl | hfst
          · exact absurd (length_eq_zero_iff.mp hlen) hnil
          · exact hfst f hf
    · rintro ⟨ps', hlen, hw, hread, hbd, hfst⟩
      obtain ⟨ps, p, rfl⟩ : ∃ ps p, ps' = ps ++ [p] := by
        rcases eq_nil_or_concat ps' with rfl | ⟨ps, p, rfl⟩
        · simp at hlen
        · exact ⟨ps, p, by simp⟩
      have hlen : ps.length = n := by simpa using hlen
      rw [readable_append, hlen] at hread
      rw [walk_append] at hw
      obtain ⟨s', hw', hs'⟩ := Option.bind_eq_some_iff.mp hw
      split_ifs at hs' with hif
      have hb : q.start + n ≤ q.boundary := by
        have := hbd.resolve_left (succ_ne_zero n)
        push_cast at this
        omega
      have hfst := hfst.resolve_left (succ_ne_zero n)
      obtain ⟨prev, hp, hps⟩ := (ih s').mpr ⟨ps, hlen, hw', hread.1, by omega, by
        by_cases hn0 : n = 0
        · exact .inl hn0
        · refine .inr fun f hf => ?_
          have := (head_append ps p f).mp (hfst f hf)
          rwa [if_neg (fun hnil => hn0 (by rw [← hlen, hnil]; rfl))] at this⟩
      have hall : env.allowed q n p := by
        refine ⟨hif.1, fun hn0 f hf => ?_⟩
        have := (head_append ps p f).mp (hfst f hf)
        rwa [if_pos (length_eq_zero_iff.mp (hlen.trans hn0))] at this
      obtain ⟨labels, he⟩ := h.next_eq (q := q) prev hif.1
      rw [h.cpos hp, hps, if_pos ⟨hif.2, hb, hread.2⟩] at he
      exact ⟨_, .step hp hall he, Option.some.inj hs'⟩

/-- Complete runs of `n + 1` transitions end at the ends of accepting paths. -/
theorem TokenQuery.accepts_iff (h : env.TokenQuery) (hfinal : env.dfa.final 0 = false) (e : ℤ) :
    env.MatchEnd q e ↔ ∃ n cfg, env.Accepts q n cfg ∧ e = cfg.cpos - 1 := by
  constructor
  · rintro ⟨ps, ⟨⟨f, hw, hf⟩, hread⟩, hfst, he, hb⟩
    have hne : ps.length ≠ 0 := by
      intro hlen
      obtain rfl := length_eq_zero_iff.mp hlen
      obtain rfl := Option.some.inj hw
      rw [hfinal] at hf
      cases hf
    obtain ⟨n, hn⟩ := exists_eq_succ_of_ne_zero hne
    obtain ⟨cfg, hc, hs⟩ := (h.reach_iff (n + 1) f).mpr
      ⟨ps, hn, hw, hread, .inr (by rw [hn] at he; push_cast at *; omega), .inr hfst⟩
    obtain ⟨prev, p, wins, hp, ha, hnx⟩ := reach_succ hc
    have hwins := (h.next_some ha.1 hnx).2.2.2.2.2
    rw [hs, hf] at hwins
    subst hwins
    refine ⟨n, cfg, ⟨prev, p, hp, ha, hnx⟩, ?_⟩
    rw [h.cpos hc, he, hn]
  · rintro ⟨n, cfg, ⟨prev, p, hp, ha, hnx⟩, he⟩
    have hc := Reach.step hp ha hnx
    obtain ⟨ps, hlen, hw, hread, hb, hfst⟩ := (h.reach_iff (n + 1) cfg.state).mp ⟨cfg, hc, rfl⟩
    have hwins := (h.next_some ha.1 hnx).2.2.2.2.2
    have hcp := h.cpos hc
    have hb := hb.resolve_left (succ_ne_zero n)
    refine ⟨ps, ⟨⟨cfg.state, hw, hwins.symm⟩, hread⟩, hfst.resolve_left (succ_ne_zero n), ?_, ?_⟩
    · rw [hlen]; omega
    · omega

/-- The initial matchlist of a transition holds positions where its element holds. -/
theorem TokenQuery.firstHolds (h : env.TokenQuery)
    (hf : ∀ f, q.first = some f → f < env.dfa.maxInput ∧ env.holds f q.start = true) :
    FirstHolds env q := by
  intro f hq
  obtain ⟨hlt, hh⟩ := hf f hq
  refine ⟨hlt, ?_⟩
  rcases h.elements f hlt with ⟨t, he⟩ | ⟨c, t, he⟩
  · rw [he]; rfl
  · unfold holds at hh
    rw [he] at hh
    simp only at hh
    rw [he]
    simp only [evalConstraint, AVS.effectiveCpos, AVS.isClosing, h.unlabelled c (initConfig env q).labels,
      Bool.false_eq_true, if_false, hh, if_true]
    rfl

/-- The simulation of a token query ends, reports a match exactly if there is one, with
the least end or, under the longest strategy, the greatest; and before cycle `n` all
active states stand `n` tokens behind the start. -/
theorem simulateFrom_exact (env : EvalEnv C A R) (q : Search) (h : env.TokenQuery)
    (hfinal : env.dfa.final 0 = false) (hstart : 0 ≤ q.start)
    (hf : ∀ f, q.first = some f → f < env.dfa.maxInput ∧ env.holds f q.start = true) :
    ∃ sim fuel0,
      (∀ fuel ≥ fuel0, env.simulateFrom q.rp q.boundary q.first q.start fuel = some sim) ∧
      sim.evaluationIsRunning = true ∧
      (reports q.start sim = true ↔ ∃ e, env.MatchEnd q e) ∧
      (reports q.start sim = true → env.MatchEnd q sim.winner ∧
        ∀ e, env.MatchEnd q e → if env.longest then e ≤ sim.winner else sim.winner ≤ e) ∧
      ∀ n : ℕ,
        (∀ k ≤ n, env.searching ((env.cycle q.rp q.boundary q.first)^[k] (env.initSim q.start)) = true ∧
          ((env.cycle q.rp q.boundary q.first)^[k] (env.initSim q.start)).runningStates > 0) →
        ∀ s, 0 ≤ ((env.cycle q.rp q.boundary q.first)^[n] (env.initSim q.start)).stateVector s →
          ((env.cycle q.rp q.boundary q.first)^[n] (env.initSim q.start)).stateVector s = q.start + n := by
  have hl := h.labelDiscipline
  have hu := h.undisturbed (q := q)
  have hfirst := h.firstHolds hf
  obtain ⟨sim, fuel0, hsim, hev, hout⟩ := simulateFrom_spec hl hfirst hu hstart
  refine ⟨sim, fuel0, hsim, hev, ?_, ?_, ?_⟩
  · rcases hout with ⟨hw, hno⟩ | ⟨m, -, cfg, hacc, hw, -⟩
    · refine iff_of_false (by simp [reports, hw]) ?_
      rintro ⟨e, he⟩
      obtain ⟨n, cfg, hacc, -⟩ := (h.accepts_iff hfinal e).mp he
      exact hno n (Nat.zero_le _) cfg hacc
    · have := hu.nonempty m cfg hacc
      exact iff_of_true (by simp [reports, hw]; omega) ⟨_, (h.accepts_iff hfinal _).mpr ⟨m, cfg, hacc, rfl⟩⟩
  · intro hrep
    rcases hout with ⟨hw, -⟩ | ⟨m, -, cfg, hacc, hw, hlong, hshort⟩
    · simp [reports, hw] at hrep
    · refine ⟨by rw [hw]; exact (h.accepts_iff hfinal _).mpr ⟨m, cfg, hacc, rfl⟩, fun e he => ?_⟩
      obtain ⟨k, cfg', hacc', rfl⟩ := (h.accepts_iff hfinal e).mp he
      have hpos : ∀ j c, env.Accepts q j c → c.cpos = q.start + j + 1 := by
        rintro j c ⟨prev, p, hr, ha, hn⟩
        have := h.cpos (.step hr ha hn)
        push_cast at this
        omega
      have e1 := hpos m cfg hacc
      have e2 := hpos k cfg' hacc'
      cases hlo : env.longest with
      | true =>
        have : k ≤ m := not_lt.mp fun hlt => hlong hlo k hlt cfg' hacc'
        simp only [if_true]
        omega
      | false =>
        have : m ≤ k := not_lt.mp fun hlt => hshort hlo k (Nat.zero_le _) hlt cfg' hacc'
        simp only [Bool.false_eq_true, if_false]
        omega
  · intro n hgo s hs
    obtain ⟨cfg, hc, hsame⟩ := (tracks_iterate hl hfirst hu hstart n hgo).sound s hs
    have := h.cpos hc
    rw [hsame.2.1] at this
    exact this

end EvalEnv

/-- A corpus given by its word ids and one kind of region; a constraint is a word id. -/
def sampleCorpus (tokens : List ℕ) (regions : List (ℤ × ℤ)) : Corpus ℕ Unit Unit where
  size := tokens.length
  evalBool c rt cpos := (decide (0 ≤ cpos ∧ tokens[cpos.toNat]? = some c), rt)
  cpos2struc _ cpos := (regions.findIdx? fun r => r.1 ≤ cpos ∧ cpos ≤ r.2)
  struc2cpos _ n := regions.getD n (-1, -1)
  struc2str _ _ := none
  maxStruc _ := regions.length
  regexMatch _ _ := false
  calculateInitialMatchlist c cp := some (((List.range tokens.length).map Int.ofNat).filter fun i =>
    decide (tokens[i.toNat]? = some c) && cp.range.any fun r => r.start ≤ i && i ≤ r.stop)

/-- The automaton of `[] "b"`, where the word "b" has id 5. -/
def pairDFA : DFA where
  maxStates := 3
  maxInput := 2
  transTable s p := if s = p ∧ s < 2 then s + 1 else 3
  eState := 3
  final s := s == 2
  hasStart := by decide
  closed := by decide

def pairQuery : EvalEnv ℕ Unit Unit where
  corpus := sampleCorpus [7, 5] []
  queryCorpus := { type := .system, range := [⟨0, 1, -1, -1⟩] }
  patternlist p := if p = 0 then .matchAll none .isNotTarget false
    else .pattern none 5 .isNotTarget false
  dfa := pairDFA
  searchContext := .word 100
  matchingStrategy := .standardMatch

theorem pairQuery_tokenQuery : pairQuery.TokenQuery where
  elements p hp := by
    unfold pairQuery
    by_cases h : p = 0
    · exact .inl ⟨_, if_pos h⟩
    · exact .inr ⟨_, _, if_neg h⟩
  unlabelled _ _ _ := rfl
  noRdat := rfl
  noGconstraint := rfl

theorem simulateFrom_pairQuery :
    pairQuery.TokenQuery ∧ ∃ sim fuel0,
      (∀ fuel ≥ fuel0, pairQuery.simulateFrom 0 1 (some 0) 0 fuel = some sim) ∧
      EvalEnv.reports 0 sim = true ∧ sim.winner ≤ 1 := by
  obtain ⟨sim, fuel0, hsim, -, hiff, hend, -⟩ := EvalEnv.simulateFrom_exact pairQuery
    ⟨0, 1, some 0, 0⟩ pairQuery_tokenQuery rfl (by decide)
    (by intro f hf; obtain rfl := Option.some.inj hf; exact ⟨by decide, rfl⟩)
  have hm : pairQuery.MatchEnd ⟨0, 1, some 0, 0⟩ 1 := by
    refine ⟨[0, 1], ⟨⟨2, by decide, by decide⟩, ?_⟩, fun f hf => by rw [← hf]; rfl, by decide, by decide⟩
    intro i p hi
    have hlt := (List.getElem?_eq_some_iff.mp hi).1
    simp only [length_cons, length_nil] at hlt
    interval_cases i <;> obtain rfl := Option.some.inj hi <;> decide
  have hrep := hiff.mpr ⟨1, hm⟩
  exact ⟨pairQuery_tokenQuery, sim, fuel0, hsim, hrep, (hend hrep).2 1 hm⟩

end CWB
