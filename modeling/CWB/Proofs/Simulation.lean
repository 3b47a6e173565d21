import CWB.Library.Acyclic
import CWB.Spec.Runs
import Mathlib.Tactic

/-! The simulation tracks the runs of the automaton. As long as runs of one length
never stand in one state at different positions, the state vector after `n` cycles is
the set of points that runs of `n` transitions lead to. -/

namespace CWB

open Function Option List

variable {C A R : Type}

/-- Two label tables agree on the labels that are read somewhere in the query. -/
def SameLabels (used : Set ℕ) (rt rt' : RefTab) : Prop := ∀ l ∈ used, rt l = rt' l

theorem SameLabels.refl (used : Set ℕ) (rt : RefTab) : SameLabels used rt rt := fun _ _ => rfl

variable {rt' rt : RefTab}

theorem SameLabels.symm {used : Set ℕ} (h : SameLabels used rt rt') :
    SameLabels used rt' rt :=
  fun l hm => (h l hm).symm

theorem SameLabels.set {used : Set ℕ} (h : SameLabels used rt rt') (ref : ℕ)
    (cpos : ℤ) : SameLabels used (rt.set ref cpos) (rt'.set ref cpos) := by
  intro l hl
  unfold RefTab.set
  by_cases he : l = ref
  · subst he; simp
  · simp [he, h l hl]

theorem SameLabels.setLabel {used : Set ℕ} (h : SameLabels used rt rt') (label : Option ℕ) (cpos : ℤ) :
    SameLabels used (rt.setLabel label cpos) (rt'.setLabel label cpos) := by
  cases label with
  | none => exact h
  | some ref => exact h.set ref cpos

def AVS.rightBoundary : AVS C A R → Option ℕ
  | .tag _ _ _ _ _ rb => rb
  | .matchAll .. | .pattern .. | .anchor .. => none

/-- Constraints read used labels only and delete none; the labels of regions are used,
and none of them is the label `match`. -/
structure EvalEnv.LabelDiscipline (env : EvalEnv C A R) (used : Set ℕ) : Prop where
  keeps : ∀ c rt cpos, (env.corpus.evalBool c rt cpos).2 = rt
  reads : ∀ c rt rt' cpos, SameLabels used rt rt' →
    (env.corpus.evalBool c rt cpos).1 = (env.corpus.evalBool c rt' cpos).1
  rdat : ∀ l ∈ env.rdatLabels, l ∈ used
  regions : env.strictRegions = true → ∀ p < env.dfa.maxInput, ∀ l,
    (env.patternlist p).rightBoundary = some l → l ∈ used ∧ l ≠ env.matchLabel

variable {cfg : Config}

namespace EvalEnv

variable {env : EvalEnv C A R} {used : Set ℕ}

theorem strictRegionsOk_congr (hl : env.LabelDiscipline used) (h : SameLabels used rt rt') (eff : ℤ) :
    env.strictRegionsOk rt eff = env.strictRegionsOk rt' eff := by
  unfold strictRegionsOk
  congr 1
  rw [Bool.eq_iff_iff, List.all_eq_true, List.all_eq_true]
  refine forall_congr' fun l => forall_congr' fun hm => ?_
  rw [h l (hl.rdat l hm)]

theorem inRange_congr (hl : env.LabelDiscipline used)
    (h : SameLabels used rt rt') (boundary : ℤ) (avs : AVS C A R) (cpos : ℤ) :
    env.inRange boundary avs rt cpos = env.inRange boundary avs rt' cpos := by
  simp only [inRange, strictRegionsOk_congr hl h]

/-- Both evaluations fail, or both succeed with tables that agree. -/
def SameResult (used : Set ℕ) : Option RefTab → Option RefTab → Prop
  | none, none => True
  | some rt, some rt' => SameLabels used rt rt'
  | _, _ => False

theorem evalConstraint_keeps (hl : env.LabelDiscipline used) (rp : ℕ) (avs : AVS C A R)
    (cpos : ℤ) (rt : RefTab) : (env.evalConstraint rp avs cpos rt).2 = rt := by
  cases avs with
  | matchAll => rfl
  | anchor => unfold evalConstraint; simp only; split_ifs <;> rfl
  | pattern l c t la =>
    have := hl.keeps c rt cpos
    simp only [evalConstraint]
    split_ifs <;> exact this
  | tag closing attr c rx neg rb =>
    cases closing <;> simp only [evalConstraint] <;> split <;> (try split_ifs) <;> rfl

theorem evalConstraint_congr (hl : env.LabelDiscipline used)
    (h : SameLabels used rt rt') (rp : ℕ) {p : ℕ} (hlt : p < env.dfa.maxInput) (cpos : ℤ) :
    SameResult used (env.evalConstraint rp (env.patternlist p) cpos rt).1
      (env.evalConstraint rp (env.patternlist p) cpos rt').1 := by
  cases hp : env.patternlist p with
  | matchAll l t la => exact h.setLabel l cpos
  | anchor f c =>
    simp only [evalConstraint]
    split_ifs
    · exact h
    · trivial
  | pattern l c t la =>
    simp only [evalConstraint, hl.keeps, hl.reads c rt rt' cpos h]
    split_ifs
    · exact h.setLabel l cpos
    · trivial
  | tag closing attr c rx neg rb =>
    cases closing with
    | false =>
      simp only [evalConstraint]
      cases env.corpus.cpos2struc attr cpos with
      | none => trivial
      | some struc =>
        dsimp only
        split_ifs
        · exact h.setLabel rb _
        · exact h
        · trivial
    | true =>
      simp only [evalConstraint]
      cases env.corpus.cpos2struc attr cpos with
      | none => trivial
      | some struc =>
        dsimp only
        cases hs : env.strictRegions with
        | false => dsimp only; split_ifs <;> first | exact h | trivial
        | true =>
          cases rb with
          | none => dsimp only; split_ifs <;> first | exact h | trivial
          | some ref =>
            have := h ref (hl.regions hs p hlt ref (by rw [hp]; rfl)).1
            simp only [this]
            split_ifs
            · exact h.set ref _
            · trivial

theorem setTarget_congr (env : EvalEnv C A R) (h : SameLabels used rt rt') (avs : AVS C A R)
    (cpos : ℤ) : SameLabels used (env.setTarget avs cpos rt) (env.setTarget avs cpos rt') := by
  unfold setTarget
  cases avs.target with
  | isNotTarget => exact h
  | isTarget => exact h.set _ _
  | isKeyword => exact h.set _ _

theorem checkWinner_congr (hl : env.LabelDiscipline used)
    (h : SameLabels used rt rt') (avs : AVS C A R) (cpos : ℤ) (target : ℕ) :
    (env.checkWinner avs cpos target rt).1 = (env.checkWinner avs cpos target rt').1 ∧
      SameLabels used (env.checkWinner avs cpos target rt).2
        (env.checkWinner avs cpos target rt').2 := by
  unfold checkWinner
  split_ifs
  · cases env.gconstraint with
    | none => exact ⟨rfl, h⟩
    | some g =>
      have h' := h.set env.matchendLabel (matchEnd avs cpos)
      refine ⟨hl.reads g _ _ (-1) h', ?_⟩
      dsimp only
      rw [hl.keeps, hl.keeps]
      exact h'.set _ _
  · exact ⟨rfl, h⟩

/-- Equal up to labels that nobody reads. -/
def Same (used : Set ℕ) (a b : Config) : Prop :=
  a.state = b.state ∧ a.cpos = b.cpos ∧ SameLabels used a.labels b.labels

theorem Same.symm {a b : Config} (h : Same used a b) : Same used b a :=
  ⟨h.1.symm, h.2.1.symm, h.2.2.symm⟩

theorem Same.trans {a b c : Config} (h : Same used a b) (h' : Same used b c) : Same used a c :=
  ⟨h.1.trans h'.1, h.2.1.trans h'.2.1, fun l hm => (h.2.2 l hm).trans (h'.2.2 l hm)⟩

theorem arrive_congr (hl : env.LabelDiscipline used)
    (h : SameLabels used rt rt') (avs : AVS C A R) (cpos : ℤ) (target : ℕ) :
    (env.arrive avs cpos target rt).2 = (env.arrive avs cpos target rt').2 ∧
      Same used (env.arrive avs cpos target rt).1 (env.arrive avs cpos target rt').1 := by
  obtain ⟨hw, hlab⟩ := checkWinner_congr hl (setTarget_congr env h avs cpos) avs cpos target
  exact ⟨hw, rfl, rfl, hlab⟩

theorem next_congr (hl : env.LabelDiscipline used) (q : Search) {a b a' : Config} {p : ℕ}
    {wins : Bool} (hlt : p < env.dfa.maxInput) (h : Same used a b) (hn : env.next q a p = some (a', wins)) :
    ∃ b', env.next q b p = some (b', wins) ∧ Same used a' b' := by
  obtain ⟨hs, hc, hlab⟩ := h
  simp only [next] at hn ⊢
  rw [← hs, ← hc, ← inRange_congr hl hlab]
  have hr := evalConstraint_congr hl hlab q.rp hlt ((env.patternlist p).effectiveCpos a.cpos)
  split_ifs at hn ⊢ with hif
  obtain ⟨rt, hrt, ha⟩ := map_eq_some_iff.mp hn
  obtain ⟨rt', hrt'⟩ : ∃ rt', (env.evalConstraint q.rp (env.patternlist p)
      ((env.patternlist p).effectiveCpos a.cpos) b.labels).1 = some rt' := by
    rw [hrt] at hr
    exact ne_none_iff_exists'.mp fun hnone => by rw [hnone] at hr; exact hr
  rw [hrt, hrt'] at hr
  obtain ⟨hw, hsame⟩ := arrive_congr hl hr (env.patternlist p) a.cpos (env.dfa.transTable a.state p)
  rw [ha] at hw hsame
  refine ⟨(env.arrive (env.patternlist p) a.cpos (env.dfa.transTable a.state p) rt').1, ?_, hsame⟩
  rw [hrt', map_some, show wins = _ from hw]

/-- What a transition that holds adds to the vectors. -/
def record (env : EvalEnv C A R) (sim : Sim) (cfg : Config) (wins : Bool) : Sim :=
  { sim with
    reftabTargetVector := update sim.reftabTargetVector cfg.state cfg.labels
    winner := if wins then cfg.cpos - 1 else sim.winner
    myTarget := if wins && env.hasTargetIndicator then cfg.labels env.targetLabel else sim.myTarget
    myKeyword :=
      if wins && env.hasKeywordIndicator then cfg.labels env.keywordLabel else sim.myKeyword
    targetVector :=
      if !wins || env.longest then update sim.targetVector cfg.state cfg.cpos
      else sim.targetVector }

theorem matchEnd_eq (avs : AVS C A R) (cpos : ℤ) :
    matchEnd avs cpos = (if avs.zeroWidth then cpos else cpos + 1) - 1 := by
  unfold matchEnd; split_ifs <;> omega

theorem takeTransition_eq (avs : AVS C A R) (cpos : ℤ) (target : ℕ) (rt : RefTab) (sim : Sim) :
    env.takeTransition avs cpos target rt sim =
      record env sim (env.arrive avs cpos target rt).1 (env.arrive avs cpos target rt).2 := by
  rcases h : env.checkWinner avs cpos target (env.setTarget avs cpos rt) with ⟨wins, labels⟩
  simp only [takeTransition, record, arrive, h, matchEnd_eq]
  cases wins <;> cases env.longest <;> cases env.hasTargetIndicator <;>
    cases env.hasKeywordIndicator <;> rfl

/-- The point of a run that the vectors hold for a state. -/
def point (sim : Sim) (state : ℕ) : Config :=
  ⟨state, sim.stateVector state, sim.reftabVector state⟩

/-- The element of the initial transition holds at the start position, as the initial
matchlist promises. -/
def FirstHolds (env : EvalEnv C A R) (q : Search) : Prop :=
  ∀ f, q.first = some f → f < env.dfa.maxInput ∧
    (env.evalConstraint q.rp (env.patternlist f) ((env.patternlist f).effectiveCpos q.start)
      (env.initConfig q).labels).1.isSome

/-- Skipping the evaluation of the first element sets the labels as evaluating it would. -/
theorem skipConstraint_eq (hl : env.LabelDiscipline used) (q : Search) {f : ℕ}
    (hlt : f < env.dfa.maxInput) (cpos : ℤ)
    (h : (env.evalConstraint q.rp (env.patternlist f) cpos (env.initConfig q).labels).1.isSome) :
    (env.evalConstraint q.rp (env.patternlist f) cpos (env.initConfig q).labels).1 =
      some (env.skipConstraint (env.patternlist f) cpos (env.initConfig q).labels) := by
  revert h
  cases hp : env.patternlist f with
  | matchAll => intro _; rfl
  | anchor field closing =>
    simp only [evalConstraint]
    split_ifs
    · intro _; rfl
    · simp
  | pattern l c t la =>
    simp only [evalConstraint, hl.keeps]
    split_ifs
    · intro _; rfl
    · simp
  | tag closing attr c rx neg rb =>
    cases closing with
    | false =>
      simp only [evalConstraint, skipConstraint]
      cases env.corpus.cpos2struc attr cpos with
      | none => simp
      | some struc =>
        dsimp only
        cases env.strictRegions <;> split_ifs <;> simp_all [RefTab.setLabel, AVS.label]
    | true =>
      simp only [evalConstraint, skipConstraint]
      cases env.corpus.cpos2struc attr cpos with
      | none => simp
      | some struc =>
        dsimp only
        cases hs : env.strictRegions with
        | false => split_ifs <;> simp_all [RefTab.setLabel, AVS.label]
        | true =>
          cases rb with
          | none => split_ifs <;> simp_all [RefTab.setLabel, AVS.label]
          | some ref =>
            -- no region is open at the start, so that a bound closing tag fails
            have hne := (hl.regions hs f hlt ref (by rw [hp]; rfl)).2
            have : (env.initConfig q).labels ref = -1 := by
              simp [initConfig, RefTab.set, RefTab.reset, hne]
            simp [this]

/-- The evaluated branch of the transition loop follows `next`. -/
theorem evaluated_eq (q : Search) (state p : ℕ) (sim : Sim) :
    (if env.dfa.transTable state p ≠ env.dfa.eState ∧
        env.inRange q.boundary (env.patternlist p) (sim.reftabVector state)
          (sim.stateVector state) = true then
      match (env.evalConstraint q.rp (env.patternlist p)
          ((env.patternlist p).effectiveCpos (sim.stateVector state)) (sim.reftabVector state)).1 with
      | none => sim
      | some rt => env.takeTransition (env.patternlist p) (sim.stateVector state)
          (env.dfa.transTable state p) rt sim
    else sim) =
      match env.next q (point sim state) p with
      | none => sim
      | some (cfg, wins) => record env sim cfg wins := by
  unfold next point
  by_cases hif : env.dfa.transTable state p ≠ env.dfa.eState ∧
      env.inRange q.boundary (env.patternlist p) (sim.reftabVector state) (sim.stateVector state) = true
  · simp only [if_pos hif]
    cases (env.evalConstraint q.rp (env.patternlist p)
      ((env.patternlist p).effectiveCpos (sim.stateVector state)) (sim.reftabVector state)).1 with
    | none => rfl
    | some rt => exact takeTransition_eq _ _ _ _ _
  · simp only [if_neg hif]

/-- One transition in the loop is one step of the run that the state stands for. -/
theorem transitionStep_eq (hl : env.LabelDiscipline used) (q : Search) (hf : FirstHolds env q)
    (sim : Sim) (state p : ℕ)
    (hinit : sim.firstTransitionTraversed = false → state = 0 ∧ point sim 0 = env.initConfig q) :
    env.transitionStep q.rp q.boundary q.first state sim p =
      if env.searching sim = true ∧
          (sim.firstTransitionTraversed = false → ∀ f, q.first = some f → p = f) then
        match env.next q (point sim state) p with
        | none => sim
        | some (cfg, wins) => record env sim cfg wins
      else sim := by
  have hupd : update sim.reftabVector state (sim.reftabVector state) = sim.reftabVector :=
    update_eq_self _ _
  rw [← evaluated_eq q state p sim]
  by_cases hs : env.searching sim = true
  · by_cases hskip : sim.firstTransitionTraversed = false ∧ q.first.isSome
    · -- the first transition: only the one the matchlist was built for is taken
      obtain ⟨ht, hq⟩ := hskip
      obtain ⟨f, hq⟩ := isSome_iff_exists.mp hq
      obtain ⟨rfl, hpt⟩ := hinit ht
      simp only [transitionStep, hs, ht, hq, true_and, forall_const, some.injEq,
        forall_eq']
      by_cases hpf : p = f
      · subst hpf
        have hsk := skipConstraint_eq hl q (hf p hq).1 _ (hf p hq).2
        have hrt : sim.reftabVector 0 = (env.initConfig q).labels := congrArg Config.labels hpt
        have hcp : sim.stateVector 0 = q.start := congrArg Config.cpos hpt
        rw [hrt, hcp, hsk]
        simp
      · simp [hpf, Ne.symm hpf]
    · have hnot : ∀ f, sim.firstTransitionTraversed = false → q.first = some f → False :=
        fun f ht hq => hskip ⟨ht, by rw [hq]; rfl⟩
      have hcond : sim.firstTransitionTraversed = false → ∀ f, q.first = some f → p = f :=
        fun ht f hq => (hnot f ht hq).elim
      rw [if_pos ⟨hs, hcond⟩]
      simp only [transitionStep, hs, true_and]
      split_ifs with hif
      · split
        · rename_i f hq ht
          exact (hnot _ ht hq).elim
        · rw [evalConstraint_keeps hl, hupd] <;> rfl
      · rfl
  · simp [transitionStep, hs]

/-! Runs. -/

theorem reach_zero {q : Search} (h : env.Reach q 0 cfg) : cfg = env.initConfig q := by
  cases h; rfl

theorem reach_succ {q : Search} {n : ℕ} (h : env.Reach q (n + 1) cfg) :
    ∃ prev p wins, env.Reach q n prev ∧ env.allowed q n p ∧ env.next q prev p = some (cfg, wins) := by
  cases h with
  | step h ha hn => exact ⟨_, _, _, h, ha, hn⟩

theorem reach_before {q : Search} {n m : ℕ} (h : env.Reach q m cfg) (hn : n ≤ m) :
    ∃ cfg', env.Reach q n cfg' := by
  induction h with
  | init => rw [Nat.le_zero.mp hn]; exact ⟨_, .init⟩
  | @step m cfg cfg' p wins h ha hs ih =>
    rcases Nat.lt_or_ge m n with hlt | hge
    · obtain rfl : n = m + 1 := by omega
      exact ⟨_, .step h ha hs⟩
    · exact ih hge

/-- A transition leads to a state of the automaton and reads at most one token, which
then lies within the boundary. -/
theorem next_some {q : Search} {cfg' : Config} {p : ℕ} {wins : Bool} (h : env.next q cfg p = some (cfg', wins)) :
    cfg'.state = env.dfa.transTable cfg.state p ∧ cfg'.state ≠ env.dfa.eState ∧
      (cfg'.cpos = if (env.patternlist p).zeroWidth then cfg.cpos else cfg.cpos + 1) ∧
      ((env.patternlist p).zeroWidth = false → cfg.cpos ≤ q.boundary) := by
  simp only [next] at h
  split_ifs at h with hif
  obtain ⟨rt, -, ha⟩ := map_eq_some_iff.mp h
  have hst : cfg' = (env.arrive (env.patternlist p) cfg.cpos
    (env.dfa.transTable cfg.state p) rt).1 := by rw [ha]
  refine ⟨by rw [hst]; rfl, by rw [hst]; exact hif.1, by rw [hst]; rfl, fun hz => ?_⟩
  have hr := hif.2
  cases hp : env.patternlist p with
  | matchAll l t la =>
    rw [hp] at hz hr
    simp only [AVS.zeroWidth, AVS.lookahead] at hz
    simp [inRange, AVS.effectiveCpos, AVS.isClosing, AVS.lookahead, hz] at hr
    exact hr.1
  | pattern l c t la =>
    rw [hp] at hz hr
    simp only [AVS.zeroWidth, AVS.lookahead] at hz
    simp [inRange, AVS.effectiveCpos, AVS.isClosing, AVS.lookahead, hz] at hr
    exact hr.1
  | tag => rw [hp] at hz; simp [AVS.zeroWidth] at hz
  | anchor => rw [hp] at hz; simp [AVS.zeroWidth] at hz

theorem reach_state {q : Search} {n : ℕ} (h : env.Reach q n cfg) : cfg.state < env.dfa.maxStates := by
  induction h with
  | init => exact env.dfa.hasStart
  | step h ha hn ih =>
    obtain ⟨hs, he, -⟩ := next_some hn
    rw [hs] at he ⊢
    exact env.dfa.closed _ ih _ ha.1 he

theorem reach_cpos {q : Search} {n : ℕ} (h : env.Reach q n cfg) :
    q.start ≤ cfg.cpos ∧ cfg.cpos ≤ max q.start (q.boundary + 1) := by
  induction h with
  | init => exact ⟨le_rfl, le_max_left _ _⟩
  | @step n cfg cfg' p wins h ha hn ih =>
    obtain ⟨-, -, hc, hb⟩ := next_some hn
    cases hz : (env.patternlist p).zeroWidth with
    | true => simp only [hz, if_true] at hc; rw [hc]; exact ih
    | false =>
      have := hb hz
      simp only [hz, Bool.false_eq_true, if_false] at hc
      constructor <;> omega

/-- No run disturbs another: runs of one length that stand in one state stand at one
position (with the same labels), none comes back to a state without reading a token, and
none is complete before it has read a token. -/
structure Undisturbed (env : EvalEnv C A R) (used : Set ℕ) (q : Search) : Prop where
  apart : ∀ n a b, env.Reach q n a → env.Reach q n b → a.state = b.state → Same used a b
  acyclic : ∀ x, ¬ Relation.TransGen (env.Moves q) x x
  nonempty : ∀ n cfg, env.Accepts q n cfg → q.start < cfg.cpos

/-- Runs have bounded length, since they never return to a state at the same position. -/
theorem reach_bounded {q : Search}
    (hno : ∀ x, ¬ Relation.TransGen (env.Moves q) x x) :
    ∃ N, ∀ n cfg, env.Reach q n cfg → n < N := by
  let box : Finset (ℕ × ℤ) :=
    Finset.range env.dfa.maxStates ×ˢ Finset.Icc q.start (max q.start (q.boundary + 1))
  have hbox : ∀ n cfg, env.Reach q n cfg → cfg.place ∈ box := fun n cfg h =>
    Finset.mem_product.mpr ⟨Finset.mem_range.mpr (reach_state h), Finset.mem_Icc.mpr (reach_cpos h)⟩
  refine ⟨box.card, fun n cfg h => Acyclic.Walk.lt_card hno (x := cfg.place) ?_⟩
  induction h with
  | init => exact .nil (hbox _ _ .init)
  | step h ha hn ih =>
    exact .cons ih ⟨_, _, _, _, _, h, ha, hn, rfl, rfl⟩ (hbox _ _ (.step h ha hn))

/-! One cycle. -/

/-- Before cycle `n` the vectors hold exactly the points of runs of `n` transitions. -/
structure Tracks (env : EvalEnv C A R) (used : Set ℕ) (q : Search) (n : ℕ) (sim : Sim) : Prop where
  sound : ∀ s, 0 ≤ sim.stateVector s → ∃ cfg, env.Reach q n cfg ∧ Same used cfg (point sim s)
  complete : ∀ cfg, env.Reach q n cfg → 0 ≤ sim.stateVector cfg.state
  traversed : sim.firstTransitionTraversed = decide (n ≠ 0)
  initial : n = 0 → point sim 0 = env.initConfig q

/-- During the cycle: `Done` are the transitions looked at so far. -/
structure Expanding (env : EvalEnv C A R) (used : Set ℕ) (q : Search) (n : ℕ)
    (Done : ℕ → ℕ → Prop) (sim0 sim : Sim) : Prop where
  states : sim.stateVector = sim0.stateVector
  tables : sim.reftabVector = sim0.reftabVector
  traversed : sim.firstTransitionTraversed = sim0.firstTransitionTraversed
  running : sim.evaluationIsRunning = sim0.evaluationIsRunning
  sound : ∀ s, 0 ≤ sim.targetVector s → ∃ cfg, env.Reach q (n + 1) cfg ∧
    Same used cfg ⟨s, sim.targetVector s, sim.reftabTargetVector s⟩
  complete : env.searching sim = true → ∀ cfg p cfg' wins, env.Reach q n cfg → env.allowed q n p →
    Done cfg.state p → env.next q cfg p = some (cfg', wins) → 0 ≤ sim.targetVector cfg'.state
  won : (sim.winner = sim0.winner ∧ ∀ cfg p cfg', env.Reach q n cfg → env.allowed q n p →
      Done cfg.state p → env.next q cfg p ≠ some (cfg', true)) ∨
    ∃ cfg', env.Accepts q n cfg' ∧ sim.winner = cfg'.cpos - 1

section Cycle

variable {q : Search} {n : ℕ} {sim0 sim : Sim} {Done Done' : ℕ → ℕ → Prop}

theorem Tracks.same (hu : Undisturbed env used q) (ht : Tracks env used q n sim)
    (h : env.Reach q n cfg) : Same used cfg (point sim cfg.state) := by
  obtain ⟨cfg', h', hs'⟩ := ht.sound _ (ht.complete cfg h)
  obtain ⟨-, hc, hl⟩ := hu.apart n cfg cfg' h h' hs'.1.symm
  exact ⟨rfl, hc.trans hs'.2.1, fun l hm => (hl l hm).trans (hs'.2.2 l hm)⟩

/-- The flag of the loop that the first transition is past is the length of the runs. -/
theorem Tracks.allowed_iff (ht : Tracks env used q n sim) (p : ℕ) :
    env.allowed q n p ↔ p < env.dfa.maxInput ∧
      (sim.firstTransitionTraversed = false → ∀ f, q.first = some f → p = f) := by
  rw [ht.traversed]
  simp [allowed]

/-- Done with nothing new: no run stands in the state, or the search is over. -/
theorem Expanding.extend (h : Expanding env used q n Done sim0 sim)
    (hs0 : env.searching sim0 = true)
    (hd : env.searching sim = true → ∀ cfg p, env.Reach q n cfg → env.allowed q n p →
      Done' cfg.state p → Done cfg.state p ∨ env.next q cfg p = none) :
    Expanding env used q n Done' sim0 sim := by
  refine { h with complete := ?_, won := ?_ }
  · intro hs cfg p cfg' wins hr ha hD hn
    rcases hd hs cfg p hr ha hD with hD | hnone
    · exact h.complete hs cfg p cfg' wins hr ha hD hn
    · rw [hnone] at hn; cases hn
  · rcases h.won with ⟨hw, hno⟩ | hw
    · have hs : env.searching sim = true := by
        unfold searching at hs0 ⊢; rwa [hw]
      refine .inl ⟨hw, fun cfg p cfg' hr ha hD hn => ?_⟩
      rcases hd hs cfg p hr ha hD with hD | hnone
      · exact hno cfg p cfg' hr ha hD hn
      · rw [hnone] at hn; cases hn
    · exact .inr hw

/-- A transition that holds is recorded. Another run in the same target state is at the
same point, so that nothing is lost when its cell is overwritten. -/
theorem Expanding.record (hu : Undisturbed env used q) (hstart : 0 ≤ q.start)
    (h : Expanding env used q n Done sim0 sim) {cfg0 cfg1 : Config} {p0 : ℕ} {wins : Bool}
    (hr : env.Reach q n cfg0) (ha : env.allowed q n p0)
    (hn : env.next q cfg0 p0 = some (cfg1, wins)) (hsame : Same used cfg1 cfg)
    (hd : ∀ c p, env.Reach q n c → Done' c.state p → Done c.state p ∨ (c.state = cfg0.state ∧ p = p0))
    (hdet : ∀ c, env.Reach q n c → c.state = cfg0.state → ∀ c' w,
      env.next q c p0 = some (c', w) → w = wins ∧ c'.state = cfg.state) :
    Expanding env used q n Done' sim0 (env.record sim cfg wins) := by
  have hr1 := Reach.step hr ha hn
  have hpos : 0 ≤ cfg.cpos := by
    have := (reach_cpos hr1).1
    rw [hsame.2.1] at this
    omega
  refine { h with sound := ?_, complete := ?_, won := ?_ }
  · intro s hs
    unfold EvalEnv.record at hs ⊢
    by_cases hst : s = cfg.state
    · subst hst
      refine ⟨cfg1, hr1, ?_⟩
      by_cases hact : (!wins || env.longest) = true
      · simpa [hact] using hsame
      · simp only [hact] at hs ⊢
        obtain ⟨c, hc, hcs⟩ := h.sound _ hs
        have := (hu.apart _ _ _ hr1 hc (by rw [hsame.1, hcs.1])).trans hcs
        exact ⟨hsame.1, this.2.1, by simpa using hsame.2.2⟩
    · have hs' : 0 ≤ sim.targetVector s := by
        by_cases hact : (!wins || env.longest) = true <;> simpa [hact, hst] using hs
      obtain ⟨c, hc, hcs⟩ := h.sound s hs'
      refine ⟨c, hc, hcs.1, ?_, ?_⟩
      · rw [hcs.2.1]
        by_cases hact : (!wins || env.longest) = true <;> simp [hact, hst]
      · simpa [hst] using hcs.2.2
  · intro hs c p c' w hc hap hD hnx
    have hact : (!wins || env.longest) = true := by
      cases hw : wins with
      | false => rfl
      | true =>
        have := hu.nonempty n cfg1 ⟨cfg0, p0, hr, ha, by rw [hn, hw]⟩
        rw [hsame.2.1] at this
        simp [searching, EvalEnv.record, hw] at hs
        have : env.longest = true := hs.resolve_left (by omega)
        simp [this]
    have hs' : env.searching sim = true := by
      cases hw : wins with
      | false => simpa [searching, EvalEnv.record, hw] using hs
      | true =>
        rw [hw] at hact
        simp [searching, show env.longest = true by simpa using hact]
    have hupd : ∀ s, 0 ≤ sim.targetVector s → 0 ≤ (env.record sim cfg wins).targetVector s := by
      intro s hs
      unfold EvalEnv.record
      simp only [hact, if_true]
      by_cases hst : s = cfg.state
      · subst hst; simpa using hpos
      · simpa [hst] using hs
    rcases hd c p hc hD with hD | ⟨hcs, rfl⟩
    · exact hupd _ (h.complete hs' c p c' w hc hap hD hnx)
    · rw [(hdet c hc hcs c' w hnx).2]
      simpa [EvalEnv.record, hact] using hpos
  · cases hw : wins with
    | true =>
      refine .inr ⟨cfg1, ⟨cfg0, p0, hr, ha, by rw [hn, hw]⟩, ?_⟩
      simp [EvalEnv.record, hsame.2.1]
    | false =>
      have hwin : (env.record sim cfg false).winner = sim.winner := by simp [EvalEnv.record]
      rw [hwin]
      rcases h.won with ⟨hw0, hno⟩ | hex
      · refine .inl ⟨hw0, fun c p c' hc hap hD hnx => ?_⟩
        rcases hd c p hc hD with hD | ⟨hcs, rfl⟩
        · exact hno c p c' hc hap hD hnx
        · have := (hdet c hc hcs c' true hnx).1
          rw [hw] at this
          cases this
      · exact .inr hex

theorem Tracks.state_zero (ht : Tracks env used q n sim) {k : ℕ} (hk : 0 ≤ sim.stateVector k)
    (hf : sim.firstTransitionTraversed = false) : k = 0 ∧ point sim 0 = env.initConfig q := by
  have hn : n = 0 := by
    rw [ht.traversed] at hf
    simpa using hf
  obtain ⟨cfg, hc, hs⟩ := ht.sound k hk
  subst hn
  rw [reach_zero hc] at hs
  exact ⟨hs.1.symm, ht.initial rfl⟩

/-- The loop over the transitions of an active state. -/
theorem Expanding.transitions (hl : env.LabelDiscipline used) (hf : FirstHolds env q)
    (hu : Undisturbed env used q) (hstart : 0 ≤ q.start) (ht : Tracks env used q n sim0)
    (hs0 : env.searching sim0 = true) {k : ℕ} (hk : 0 ≤ sim0.stateVector k)
    (h : Expanding env used q n (fun s _ => s < k) sim0 sim) (j : ℕ) (hj : j ≤ env.dfa.maxInput) :
    Expanding env used q n (fun s p => s < k ∨ (s = k ∧ p < j)) sim0
        ((range j).foldl (env.transitionStep q.rp q.boundary q.first k) sim) ∧
      ((range j).foldl (env.transitionStep q.rp q.boundary q.first k) sim).runningStates
        = sim.runningStates := by
  induction j with
  | zero => exact ⟨h.extend hs0 fun _ _ _ _ _ hD => .inl (by simpa using hD), rfl⟩
  | succ j ih =>
    obtain ⟨ih, hrun⟩ := ih (by omega)
    rw [range_succ, foldl_append, foldl_cons, foldl_nil]
    generalize (range j).foldl (env.transitionStep q.rp q.boundary q.first k) sim = sim1 at ih hrun
    have hpt : ∀ s, point sim1 s = point sim0 s := fun s => by
      unfold point; rw [ih.states, ih.tables]
    have hj : j < env.dfa.maxInput := hj
    have hsame : ∀ c, env.Reach q n c → c.state = k → Same used c (point sim1 k) := by
      intro c hc hck
      rw [hpt, ← hck]
      exact ht.same hu hc
    have hnew : ∀ (s p : ℕ), (s < k ∨ (s = k ∧ p < j + 1)) →
        (s < k ∨ (s = k ∧ p < j)) ∨ (s = k ∧ p = j) := by omega
    rw [transitionStep_eq hl q hf sim1 k j (fun hfl => by
      rw [hpt]
      exact ht.state_zero hk (by rw [← ih.traversed]; exact hfl))]
    split_ifs with hcond
    · obtain ⟨hs1, hfst⟩ := hcond
      have hall : env.allowed q n j :=
        (ht.allowed_iff j).mpr ⟨by omega, by rw [← ih.traversed]; exact hfst⟩
      cases hnx : env.next q (point sim1 k) j with
      | none =>
        refine ⟨ih.extend hs0 fun _ c p hc _ hD => ?_, hrun⟩
        rcases hnew c.state p hD with hD | ⟨hck, rfl⟩
        · exact .inl hD
        · refine .inr (eq_none_iff_forall_ne_some.mpr fun x hx => ?_)
          obtain ⟨b, hb, -⟩ := next_congr hl q hj (hsame c hc hck) (show _ = some (x.1, x.2) from hx)
          rw [hnx] at hb
          cases hb
      | some x =>
        obtain ⟨cfg, wins⟩ := x
        obtain ⟨cfg0, hc0, hs0'⟩ := ht.sound k hk
        have hck0 : cfg0.state = k := hs0'.1
        obtain ⟨cfg1, hn1, hsm⟩ := next_congr hl q hj (hsame cfg0 hc0 hck0).symm hnx
        refine ⟨ih.record hu hstart hc0 hall hn1 hsm.symm ?_ ?_, hrun⟩
        · intro c p _ hD
          rw [hck0]
          exact hnew c.state p hD
        · intro c hc hck c' w hcn
          obtain ⟨b, hb, hsb⟩ := next_congr hl q hj (hsame c hc (hck.trans hck0)) hcn
          rw [hnx] at hb
          obtain ⟨rfl, rfl⟩ := Prod.mk.inj (some.inj hb)
          exact ⟨rfl, hsb.1⟩
    · refine ⟨ih.extend hs0 fun hs c p hc ha hD => ?_, hrun⟩
      rcases hnew c.state p hD with hD | ⟨hck, rfl⟩
      · exact .inl hD
      · refine absurd ⟨hs, ?_⟩ hcond
        rw [ih.traversed]
        exact ((ht.allowed_iff p).mp ha).2

def activeBelow (v : ℕ → ℤ) (k : ℕ) : ℕ := ((range k).filter fun s => v s ≥ 0).length

theorem activeBelow_succ (v : ℕ → ℤ) (k : ℕ) :
    activeBelow v (k + 1) = activeBelow v k + if 0 ≤ v k then 1 else 0 := by
  unfold activeBelow
  rw [range_succ, filter_append, length_append]
  split_ifs with h <;> simp [h]

theorem activeBelow_mono (v : ℕ → ℤ) {k m : ℕ} (h : k ≤ m) : activeBelow v k ≤ activeBelow v m := by
  induction h with
  | refl => rfl
  | step _ ih => rw [activeBelow_succ]; omega

theorem activeBelow_pos (v : ℕ → ℤ) {s k : ℕ} (hs : s < k) (hv : 0 ≤ v s) : 0 < activeBelow v k := by
  have := activeBelow_mono v (show s + 1 ≤ k from hs)
  rw [activeBelow_succ, if_pos hv] at this
  omega

/-- The loop over the states; the counter of running states ends it early only when no
active state is left. -/
theorem Expanding.statesLoop (hl : env.LabelDiscipline used) (hf : FirstHolds env q)
    (hu : Undisturbed env used q) (hstart : 0 ≤ q.start) (ht : Tracks env used q n sim0)
    (hs0 : env.searching sim0 = true) (htgt : ∀ s, sim0.targetVector s < 0)
    (hrun : sim0.runningStates = activeBelow sim0.stateVector env.dfa.maxStates) (k : ℕ)
    (hk : k ≤ env.dfa.maxStates) :
    Expanding env used q n (fun s _ => s < k) sim0
        ((range k).foldl (env.stateStep q.rp q.boundary q.first) sim0) ∧
      (env.searching ((range k).foldl (env.stateStep q.rp q.boundary q.first) sim0) = true →
        ((range k).foldl (env.stateStep q.rp q.boundary q.first) sim0).runningStates
          + activeBelow sim0.stateVector k = activeBelow sim0.stateVector env.dfa.maxStates) := by
  induction k with
  | zero =>
    refine ⟨⟨rfl, rfl, rfl, rfl, fun s hs => ?_, fun _ _ _ _ _ _ _ hD => ?_, .inl ⟨rfl, ?_⟩⟩, ?_⟩
    · exact absurd hs (not_le.mpr (htgt s))
    · exact absurd hD (Nat.not_lt_zero _)
    · intro _ _ _ _ _ hD
      exact absurd hD (Nat.not_lt_zero _)
    · intro _
      simp [activeBelow, hrun]
  | succ k ih =>
    obtain ⟨ih, hcount⟩ := ih (by omega)
    rw [range_succ, foldl_append, foldl_cons, foldl_nil]
    generalize (range k).foldl (env.stateStep q.rp q.boundary q.first) sim0 = sim1 at ih hcount
    unfold stateStep
    split_ifs with hcond
    · obtain ⟨hs1, hr1, hact⟩ := hcond
      rw [ih.states] at hact
      have hexp : Expanding env used q n (fun s _ => s < k) sim0
          { sim1 with runningStates := sim1.runningStates - 1 } :=
        ⟨ih.states, ih.tables, ih.traversed, ih.running, ih.sound, ih.complete, ih.won⟩
      obtain ⟨h1, h2⟩ := hexp.transitions hl hf hu hstart ht hs0 hact env.dfa.maxInput le_rfl
      refine ⟨h1.extend hs0 fun _ c p _ ha hD => .inl ?_, fun _ => ?_⟩
      · rcases Nat.lt_succ_iff_lt_or_eq.mp hD with hD | hD
        · exact .inl hD
        · exact .inr ⟨hD, ha.1⟩
      · rw [h2, activeBelow_succ, if_pos hact]
        have := hcount hs1
        push_cast
        omega
    · -- the state is inactive, or nothing is searched for any more
      have hinactive : env.searching sim1 = true → sim0.stateVector k < 0 := by
        intro hs1
        by_contra hge
        have hge : 0 ≤ sim0.stateVector k := not_lt.mp hge
        have h1 := hcount hs1
        have h2 := activeBelow_mono sim0.stateVector hk
        rw [activeBelow_succ, if_pos hge] at h2
        exact hcond ⟨hs1, by omega, by rw [ih.states]; exact hge⟩
      refine ⟨ih.extend hs0 fun hs1 c p hc _ hD => .inl ?_, fun hs1 => ?_⟩
      · rcases Nat.lt_succ_iff_lt_or_eq.mp hD with hD | hD
        · exact hD
        · have := ht.complete c hc
          rw [hD] at this
          exact absurd (hinactive hs1) (not_lt.mpr this)
      · rw [activeBelow_succ, if_neg (not_le.mpr (hinactive hs1))]
        exact hcount hs1

theorem exists_active (v : ℕ → ℤ) (k : ℕ) (h : 0 < activeBelow v k) : ∃ s < k, 0 ≤ v s := by
  obtain ⟨s, hs⟩ := exists_mem_of_length_pos h
  rw [mem_filter, mem_range] at hs
  exact ⟨s, hs.1, by simpa using hs.2⟩

/-- The test for an infinite loop does not strike: with equal vectors, each active point
would have a predecessor among the active points. -/
theorem no_fixpoint (hu : Undisturbed env used q)
    (ht : Tracks env used q n sim0) (hpos : 0 < activeBelow sim0.stateVector env.dfa.maxStates)
    (h : Expanding env used q n Done sim0 sim) :
    ¬ ∀ s < env.dfa.maxStates, sim0.stateVector s = sim.targetVector s := by
  intro heq
  let S : Set (ℕ × ℤ) :=
    (fun s => (s, sim0.stateVector s)) '' {s | s < env.dfa.maxStates ∧ 0 ≤ sim0.stateVector s}
  have hfin : S.Finite := ((Set.finite_lt_nat env.dfa.maxStates).subset fun s hs => hs.1).image _
  obtain ⟨s0, hs0, hv0⟩ := exists_active _ _ hpos
  obtain ⟨x, hx⟩ := Acyclic.exists_cycle (r := env.Moves q) hfin ⟨_, s0, ⟨hs0, hv0⟩, rfl⟩ (by
    rintro _ ⟨s, ⟨hs, hv⟩, rfl⟩
    obtain ⟨cfg, hc, hsame⟩ := h.sound s (by rw [← heq s hs]; exact hv)
    obtain ⟨prev, p, wins, hp, ha, hn⟩ := reach_succ hc
    refine ⟨prev.place, ⟨prev.state, ⟨reach_state hp, ht.complete prev hp⟩, ?_⟩,
      n, prev, p, cfg, wins, hp, ha, hn, rfl, ?_⟩
    · exact Prod.ext rfl (ht.same hu hp).2.1.symm
    · exact Prod.ext hsame.1 (hsame.2.1.trans (heq s hs).symm))
  exact hu.acyclic x hx

/-- One cycle: either no run is completed by it, or the winner ends such a run; and if
the search goes on, the vectors hold the runs that are one transition longer. -/
theorem cycle_spec (hl : env.LabelDiscipline used) (hf : FirstHolds env q)
    (hu : Undisturbed env used q) (hstart : 0 ≤ q.start)
    (ht : Tracks env used q n sim) (hs : env.searching sim = true)
    (hrun : sim.runningStates = env.active sim.stateVector) (hpos : 0 < sim.runningStates) :
    (env.cycle q.rp q.boundary q.first sim).evaluationIsRunning = sim.evaluationIsRunning ∧
      (((env.cycle q.rp q.boundary q.first sim).winner = sim.winner ∧
          ∀ cfg, ¬ env.Accepts q n cfg) ∨
        ∃ cfg, env.Accepts q n cfg ∧
          (env.cycle q.rp q.boundary q.first sim).winner = cfg.cpos - 1) ∧
      (env.searching (env.cycle q.rp q.boundary q.first sim) = true →
        Tracks env used q (n + 1) (env.cycle q.rp q.boundary q.first sim) ∧
        (env.cycle q.rp q.boundary q.first sim).runningStates
          = env.active (env.cycle q.rp q.boundary q.first sim).stateVector) := by
  have ht0 : Tracks env used q n { sim with targetVector := fun _ => -1 } :=
    ⟨ht.sound, ht.complete, ht.traversed, ht.initial⟩
  obtain ⟨hexp, -⟩ := Expanding.statesLoop hl hf hu hstart ht0 hs (fun _ => neg_one_lt_zero) hrun
    env.dfa.maxStates le_rfl
  have hc : env.cycle q.rp q.boundary q.first sim =
      env.checkFixpoint (env.swapVectors { (range env.dfa.maxStates).foldl
        (env.stateStep q.rp q.boundary q.first) { sim with targetVector := fun _ => -1 } with
          firstTransitionTraversed := true }) := rfl
  generalize (range env.dfa.maxStates).foldl (env.stateStep q.rp q.boundary q.first)
    { sim with targetVector := fun _ => -1 } = sim1 at hexp hc
  have hactive : 0 < activeBelow sim.stateVector env.dfa.maxStates := by
    have : (env.active sim.stateVector : ℤ) = activeBelow sim.stateVector env.dfa.maxStates := rfl
    omega
  have hnofix := no_fixpoint hu ht0 hactive hexp
  have hfix : env.checkFixpoint (env.swapVectors { sim1 with firstTransitionTraversed := true })
      = env.swapVectors { sim1 with firstTransitionTraversed := true } := by
    unfold checkFixpoint swapVectors
    have hst := hexp.states
    split_ifs with h1 h2 h2
    · exact absurd (fun s hm => (congrFun hst s).symm.trans (h2 s hm).symm) hnofix
    · rfl
    · exact absurd (fun s hm => (congrFun hst s).symm.trans (h2 s hm)) hnofix
    · rfl
  rw [hc, hfix]
  have hwin : (env.swapVectors { sim1 with firstTransitionTraversed := true }).winner
      = sim1.winner := by unfold swapVectors; split_ifs <;> rfl
  have hev : (env.swapVectors { sim1 with firstTransitionTraversed := true }).evaluationIsRunning
      = sim1.evaluationIsRunning := by unfold swapVectors; split_ifs <;> rfl
  refine ⟨hev.trans hexp.running, ?_, fun hgo => ?_⟩
  · rw [hwin]
    rcases hexp.won with ⟨hw, hno⟩ | hw
    · refine .inl ⟨hw, ?_⟩
      rintro cfg ⟨prev, p, hr, ha, hn⟩
      exact hno prev p cfg hr ha (reach_state hr) hn
    · exact .inr hw
  · have hs1 : env.searching sim1 = true := by
      unfold searching at hgo ⊢
      rwa [hwin] at hgo
    have hsw : env.swapVectors { sim1 with firstTransitionTraversed := true } =
        { sim1 with
          firstTransitionTraversed := true
          runningStates := env.active sim1.targetVector
          stateVector := sim1.targetVector
          targetVector := sim1.stateVector
          reftabVector := sim1.reftabTargetVector
          reftabTargetVector := sim1.reftabVector } := by
      unfold swapVectors
      exact if_pos hs1
    rw [hsw]
    refine ⟨⟨hexp.sound, ?_, rfl, fun h => absurd h (Nat.succ_ne_zero n)⟩, rfl⟩
    intro cfg hc
    obtain ⟨prev, p, wins, hp, ha, hn⟩ := reach_succ hc
    exact hexp.complete hs1 prev p cfg wins hp ha (reach_state hp) hn

end Cycle

/-! The whole search. -/

section Loop

variable {q : Search}

theorem tracks_initSim (hstart : 0 ≤ q.start) : Tracks env used q 0 (env.initSim q.start) := by
  refine ⟨fun s hs => ?_, fun cfg hc => ?_, rfl, fun _ => rfl⟩
  · by_cases h0 : s = 0
    · subst h0
      exact ⟨_, .init, rfl, rfl, SameLabels.refl _ _⟩
    · simp [initSim, h0] at hs
  · rw [reach_zero hc]
    exact hstart

theorem active_initSim (hstart : 0 ≤ q.start) :
    (env.initSim q.start).runningStates = env.active (env.initSim q.start).stateVector := by
  have h : ∀ k, activeBelow (env.initSim q.start).stateVector (k + 1) = 1 := by
    intro k
    induction k with
    | zero => rw [activeBelow_succ, if_pos (show 0 ≤ (env.initSim q.start).stateVector 0 from hstart)]; rfl
    | succ k ih => rw [activeBelow_succ, ih]; simp [initSim]
  obtain ⟨k, hk⟩ := Nat.exists_eq_succ_of_ne_zero env.dfa.hasStart.ne'
  have : env.active (env.initSim q.start).stateVector = 1 := by
    unfold active; rw [hk]; exact h k
  rw [this]
  rfl

/-- The winner at the end of the main loop entered before cycle `n` with winner `w0`: the
end of a run with fewest transitions or, for the longest match, with most. -/
def Outcome (env : EvalEnv C A R) (q : Search) (n : ℕ) (w0 w : ℤ) : Prop :=
  (w = w0 ∧ ∀ m ≥ n, ∀ cfg, ¬ env.Accepts q m cfg) ∨
  ∃ m ≥ n, ∃ cfg, env.Accepts q m cfg ∧ w = cfg.cpos - 1 ∧
    (env.longest = true → ∀ k > m, ∀ cfg', ¬ env.Accepts q k cfg') ∧
    (env.longest = false → ∀ k, n ≤ k → k < m → ∀ cfg', ¬ env.Accepts q k cfg')

theorem not_accepts_of_inactive {n : ℕ} {sim : Sim}
    (ht : Tracks env used q n sim) (hrun : ¬ 0 < env.active sim.stateVector) :
    ∀ m ≥ n, ∀ cfg, ¬ env.Accepts q m cfg := by
  rintro m hm cfg ⟨prev, p, hr, -⟩
  obtain ⟨cfg', hc⟩ := reach_before hr hm
  exact hrun (activeBelow_pos _ (reach_state hc) (ht.complete cfg' hc))

theorem runCycles_succ (fuel : ℕ) (sim sim' : Sim)
    (h : env.runCycles q.rp q.boundary q.first fuel sim = some sim') :
    env.runCycles q.rp q.boundary q.first (fuel + 1) sim = some sim' := by
  induction fuel generalizing sim with
  | zero => cases h
  | succ fuel ih =>
    rw [runCycles] at h ⊢
    split_ifs at h ⊢ with hg
    · exact ih _ h
    · exact h

theorem runCycles_mono {fuel fuel' : ℕ} (hle : fuel ≤ fuel') (sim sim' : Sim)
    (h : env.runCycles q.rp q.boundary q.first fuel sim = some sim') :
    env.runCycles q.rp q.boundary q.first fuel' sim = some sim' := by
  induction hle with
  | refl => exact h
  | step _ ih => exact runCycles_succ _ _ _ ih

/-- The main loop ends, since runs are bounded, and with the outcome of its runs. -/
theorem runCycles_spec (hl : env.LabelDiscipline used) (hf : FirstHolds env q)
    (hu : Undisturbed env used q) (hstart : 0 ≤ q.start)
    {N : ℕ} (hN : ∀ n cfg, env.Reach q n cfg → n < N) (fuel n : ℕ) (sim : Sim)
    (hfuel : N - n < fuel) (ht : Tracks env used q n sim) (hs : env.searching sim = true)
    (hrun : sim.runningStates = env.active sim.stateVector) :
    ∃ sim', env.runCycles q.rp q.boundary q.first fuel sim = some sim' ∧
      sim'.evaluationIsRunning = sim.evaluationIsRunning ∧
      Outcome env q n sim.winner sim'.winner := by
  induction fuel generalizing n sim with
  | zero => omega
  | succ fuel ih =>
    rw [runCycles]
    by_cases hpos : 0 < sim.runningStates
    · rw [if_pos ⟨hs, hpos⟩]
      obtain ⟨hev, hwin, hgo⟩ := cycle_spec hl hf hu hstart ht hs hrun hpos
      generalize env.cycle q.rp q.boundary q.first sim = sim1 at hev hwin hgo
      have hn : n < N := by
        obtain ⟨s, -, hv⟩ := exists_active sim.stateVector env.dfa.maxStates
          (by unfold active at hrun; unfold activeBelow; omega)
        obtain ⟨cfg, hc, -⟩ := ht.sound s hv
        exact hN n cfg hc
      by_cases hs1 : env.searching sim1 = true
      · obtain ⟨ht1, hrun1⟩ := hgo hs1
        obtain ⟨sim', hsim', hev', hout⟩ := ih (n + 1) sim1 (by omega) ht1 hs1 hrun1
        refine ⟨sim', hsim', hev'.trans hev, ?_⟩
        rcases hwin with ⟨hw, hno⟩ | ⟨cfg, hacc, hw⟩
        · rw [hw] at hout
          have hno' : ∀ m ≥ n, (∀ k ≥ n + 1, ∀ cfg, ¬ env.Accepts q k cfg) →
              ∀ cfg, ¬ env.Accepts q m cfg := by
            intro m hm hk
            rcases Nat.eq_or_lt_of_le hm with rfl | hlt
            · exact hno
            · exact hk m hlt
          rcases hout with ⟨hw', hnone⟩ | ⟨m, hm, cfg, hacc, hw', hlong, hshort⟩
          · exact .inl ⟨hw', fun m hm => hno' m hm hnone⟩
          · refine .inr ⟨m, by omega, cfg, hacc, hw', hlong, fun h0 k hk hkm => ?_⟩
            rcases Nat.eq_or_lt_of_le hk with rfl | hlt
            · exact hno
            · exact hshort h0 k hlt hkm
        · -- a winner was found and the search goes on: the longest match is wanted
          have hlong : env.longest = true := by
            have := hu.nonempty n cfg hacc
            unfold searching at hs1
            rw [hw] at hs1
            simp only [Bool.or_eq_true, decide_eq_true_eq] at hs1
            exact hs1.resolve_left (by omega)
          rcases hout with ⟨hw', hnone⟩ | ⟨m, hm, cfg', hacc', hw', hlong', -⟩
          · exact .inr ⟨n, le_rfl, cfg, hacc, hw'.trans hw, fun _ k hk => hnone k hk,
              fun h0 => absurd h0 (by simp [hlong])⟩
          · exact .inr ⟨m, by omega, cfg', hacc', hw', hlong',
              fun h0 => absurd h0 (by simp [hlong])⟩
      · obtain ⟨fuel, rfl⟩ : ∃ f, fuel = f + 1 := ⟨fuel - 1, by omega⟩
        refine ⟨sim1, by rw [runCycles, if_neg fun h => hs1 h.1], hev, ?_⟩
        have hlong : env.longest = false :=
          Bool.eq_false_iff.mpr fun h => hs1 (by simp [searching, h])
        rcases hwin with ⟨hw, -⟩ | ⟨cfg, hacc, hw⟩
        · unfold searching at hs hs1
          rw [hw] at hs1
          exact absurd hs hs1
        · exact .inr ⟨n, le_rfl, cfg, hacc, hw, fun h => absurd h (by simp [hlong]),
            fun _ k hk hkn => absurd hkn (not_lt.mpr hk)⟩
    · rw [if_neg fun h => hpos h.2]
      exact ⟨sim, rfl, rfl, .inl ⟨rfl, not_accepts_of_inactive ht (by omega)⟩⟩

/-- The simulation from a start position ends with the outcome of the runs from there. -/
theorem simulateFrom_spec (hl : env.LabelDiscipline used) (hf : FirstHolds env q)
    (hu : Undisturbed env used q) (hstart : 0 ≤ q.start) :
    ∃ sim fuel0, (∀ fuel ≥ fuel0,
        env.simulateFrom q.rp q.boundary q.first q.start fuel = some sim) ∧
      sim.evaluationIsRunning = true ∧ Outcome env q 0 (-1) sim.winner := by
  obtain ⟨N, hN⟩ := reach_bounded hu.acyclic
  obtain ⟨sim, hsim, hev, hout⟩ := runCycles_spec hl hf hu hstart hN (N + 1) 0
    (env.initSim q.start) (by omega) (tracks_initSim hstart) rfl (active_initSim hstart)
  exact ⟨sim, N + 1, fun fuel hle => runCycles_mono hle _ _ hsim, hev, hout⟩

/-- What the simulation reports are the complete runs. -/
theorem simulateFrom_reports (hl : env.LabelDiscipline used) (hf : FirstHolds env q)
    (hu : Undisturbed env used q) (hstart : 0 ≤ q.start) :
    ∃ sim fuel0, (∀ fuel ≥ fuel0,
        env.simulateFrom q.rp q.boundary q.first q.start fuel = some sim) ∧
      (reports q.start sim = true ↔ ∃ n cfg, env.Accepts q n cfg) := by
  obtain ⟨sim, fuel0, hsim, -, hout⟩ := simulateFrom_spec hl hf hu hstart
  refine ⟨sim, fuel0, hsim, ?_⟩
  rcases hout with ⟨hw, hno⟩ | ⟨m, -, cfg, hacc, hw, -⟩
  · exact iff_of_false (by simp [reports, hw]) fun ⟨n, cfg, hacc⟩ => hno n (Nat.zero_le _) cfg hacc
  · have := hu.nonempty m cfg hacc
    exact iff_of_true (by simp [reports, hw]; omega) ⟨m, cfg, hacc⟩

/-- The vectors at the head of the main loop after `n` cycles. -/
theorem tracks_iterate (hl : env.LabelDiscipline used) (hf : FirstHolds env q)
    (hu : Undisturbed env used q) (hstart : 0 ≤ q.start) (n : ℕ)
    (hgo : ∀ k ≤ n, env.searching ((env.cycle q.rp q.boundary q.first)^[k] (env.initSim q.start)) = true ∧
      ((env.cycle q.rp q.boundary q.first)^[k] (env.initSim q.start)).runningStates > 0) :
    Tracks env used q n ((env.cycle q.rp q.boundary q.first)^[n] (env.initSim q.start)) := by
  suffices h : Tracks env used q n ((env.cycle q.rp q.boundary q.first)^[n] (env.initSim q.start)) ∧
      ((env.cycle q.rp q.boundary q.first)^[n] (env.initSim q.start)).runningStates =
        env.active ((env.cycle q.rp q.boundary q.first)^[n] (env.initSim q.start)).stateVector from h.1
  induction n with
  | zero => exact ⟨tracks_initSim hstart, active_initSim hstart⟩
  | succ n ih =>
    obtain ⟨ht, hrun⟩ := ih fun k hk => hgo k (by omega)
    have hcur := hgo n (by omega)
    have hnext := hgo (n + 1) le_rfl
    rw [iterate_succ_apply'] at hnext ⊢
    exact (cycle_spec hl hf hu hstart ht hcur.1 hrun hcur.2).2.2 hnext.1

end Loop

end EvalEnv

end CWB
