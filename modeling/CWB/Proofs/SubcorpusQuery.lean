import CWB.Library.GreedyWalk
import CWB.Proofs.InitialMatchlist
import CWB.Proofs.TokenQueries
import CWB.Sanity.Regions
import CWB.Spec.SubcorpusQuery

/-! Queries on a subcorpus. The simulation of a standard query stops at the end of the range it
starts in, and an MU query has matches of one token only. A TAB query looks for the start of a
match in the subcorpus, and for the items behind it up to the right boundary: its matches stay
inside just if no walk through the columns leaves the range in which it starts. -/

namespace CWB

open Option List

variable {C A R : Type}

/-- The line lies inside one of the ranges. -/
def Within (range : List Match) (m : Match) : Prop := ∃ r ∈ range, Inside m.pair r.pair

/-- The lines that are not marked lie inside one of the ranges each. -/
def AllWithin (range : List Match) (tab : List Match) : Prop := ∀ m ∈ tab, m.start ≠ -1 → Within range m

variable {m : Match}

section Lists

variable {range tab tab' as bs : List Match}

theorem AllWithin.of_mem (h : AllWithin range tab) (hsub : ∀ m ∈ tab', m.start ≠ -1 → m ∈ tab) : AllWithin range tab' :=
  fun m hm hstart => h m (hsub m hm hstart) hstart

theorem AllWithin.cons (hm : m.start ≠ -1 → Within range m) (h : AllWithin range tab) :
    AllWithin range (m :: tab) := by
  intro x hx hstart
  rcases mem_cons.mp hx with rfl | hx
  · exact hm hstart
  · exact h x hx hstart

theorem mem_of_setopUnionLoop {ends : Bool} (h : m ∈ setopUnionLoop ends as bs) : m ∈ as ∨ m ∈ bs := by
  induction as, bs using setopUnionLoop.induct ends <;> rw [setopUnionLoop] at h <;> grind

theorem mem_of_setopUnion {l1 l2 : Matchlist} (h : m ∈ (setopUnion l1 l2).tab) :
    m ∈ l1.tab ∨ m ∈ l2.tab := by
  unfold setopUnion at h
  split_ifs at h
  · exact .inl h
  · exact .inr h
  · exact mem_of_setopUnionLoop h

/-- A line that the filters keep is a line they were given. -/
theorem Marks.mem_of_start (h : Marks tab tab') (hm : m ∈ tab') (hstart : m.start ≠ -1) : m ∈ tab := by
  induction h with
  | nil => simp at hm
  | cons hhead _ ih =>
    rcases mem_cons.mp hm with rfl | hm
    · rcases hhead with rfl | rfl
      · simp
      · exact absurd rfl hstart
    · exact mem_cons_of_mem _ (ih hm)

theorem mem_rReduce {c : CorpusList} (h : m ∈ (rReduce c).range) : m ∈ c.range ∧ m.kept = true := by
  simp only [rReduce] at h
  split_ifs at h with hlen
  · exact mem_filter.mp h
  · exact ⟨h, length_filter_eq_length_iff.mp (not_not.mp hlen) m h⟩

/-- Marking lines and dropping the marked ones. -/
theorem mem_rReduce_marks {c : CorpusList} {loop : List Match → List Match} (hloop : ∀ l, Marks l (loop l))
    (h : m ∈ (rReduce { c with range := loop c.range }).range) : m ∈ c.range := by
  obtain ⟨hm, hkept⟩ := mem_rReduce h
  exact (hloop c.range).mem_of_start hm (Match.start_ne_of_kept hkept)

end Lists

variable {cells : List Match} {lists : List (TabColumn × List ℤ)} {fuel : ℕ}

namespace EvalEnv

variable {env : EvalEnv C A R}

theorem mem_applyStrategy {res : CorpusList} (h : m ∈ (env.applyStrategy res).range) : m ∈ res.range := by
  unfold applyStrategy at h
  cases hs : env.matchingStrategy <;> rw [hs] at h
  · exact h
  · exact mem_rReduce_marks marks_minimalLoop h
  · have h' := mem_rReduce_marks (marks_markLoop _ _) h
    exact mem_rReduce_marks (marks_markLoop _ _) h'
  · exact mem_rReduce_marks marks_maximalLoop h

theorem mem_cutLines {cut : ℤ} {res : CorpusList} (h : m ∈ (cutLines cut res).range) : m ∈ res.range := by
  unfold cutLines at h
  split_ifs at h
  · exact mem_of_mem_take h
  · exact h

/-- With the old ranges kept, the result is a part of the subcorpus. -/
theorem within_setCorpusMatchlists {cp : CorpusList} {ml : Matchlist} (keepOldRanges : Bool)
    (h : ∀ m ∈ ml.tab, Within cp.range m) :
    ∀ m ∈ (setCorpusMatchlists cp ml keepOldRanges).range, Within cp.range m := by
  intro m hm
  unfold setCorpusMatchlists at hm
  split_ifs at hm
  · exact ⟨m, mem_rReduce_marks (fun l => marks_keepRanges l ml.tab) (c := { cp with sortidx := none }) hm, le_rfl, le_rfl⟩
  · exact h m hm

/-! Standard queries. -/

theorem matchEnd_le {boundary : ℤ} {avs : AVS C A R} {labelrefs : RefTab} {cpos : ℤ}
    (h : env.inRange boundary avs labelrefs cpos = true) : matchEnd avs cpos ≤ boundary := by
  simp only [inRange, Bool.and_eq_true, Bool.or_eq_true, decide_eq_true_eq] at h
  obtain ⟨hle | ⟨hlook, heq⟩, -⟩ := h
  · unfold matchEnd AVS.effectiveCpos at *
    cases avs <;> simp only [AVS.zeroWidth, AVS.isClosing, AVS.lookahead, if_true, Bool.false_eq_true, if_false] at * <;>
      split_ifs at * <;> omega
  · unfold matchEnd AVS.effectiveCpos at *
    cases avs <;> simp_all [AVS.zeroWidth, AVS.isClosing, AVS.lookahead]

theorem takeTransition_winner (env : EvalEnv C A R) (avs : AVS C A R) (cpos : ℤ) (target : ℕ) (labelrefs : RefTab) (sim : Sim) :
    (env.takeTransition avs cpos target labelrefs sim).winner = sim.winner ∨
      (env.takeTransition avs cpos target labelrefs sim).winner = matchEnd avs cpos := by
  rw [takeTransition_eq, matchEnd_eq]
  unfold record
  cases (env.arrive avs cpos target labelrefs).2
  · exact .inl rfl
  · exact .inr rfl

/-- No winner, or one up to the boundary. -/
def WinnerWithin (boundary : ℤ) (sim : Sim) : Prop := sim.winner < 0 ∨ sim.winner ≤ boundary

variable {rp : ℕ} {boundary : ℤ} {first : Option ℕ} {sim : Sim}

theorem WinnerWithin.takeTransition {avs : AVS C A R} {cpos : ℤ} {rt : RefTab} (h : WinnerWithin boundary sim)
    (hrange : env.inRange boundary avs rt cpos = true) (target : ℕ) (labelrefs : RefTab) :
    WinnerWithin boundary (env.takeTransition avs cpos target labelrefs sim) := by
  unfold WinnerWithin at *
  rcases takeTransition_winner env avs cpos target labelrefs sim with heq | heq <;> rw [heq]
  · exact h
  · exact .inr (matchEnd_le hrange)

theorem WinnerWithin.transitionStep (h : WinnerWithin boundary sim) (state p : ℕ) :
    WinnerWithin boundary (env.transitionStep rp boundary first state sim p) := by
  unfold EvalEnv.transitionStep
  dsimp only
  split_ifs with hif
  · split
    · split_ifs
      · exact h.takeTransition hif.2.2 _ _
      · exact h
    · split
      · exact h
      · refine WinnerWithin.takeTransition ?_ hif.2.2 _ _
        exact h
  · exact h

theorem checkFixpoint_winner (sim : Sim) : (env.checkFixpoint sim).winner = sim.winner := by
  unfold checkFixpoint
  split_ifs <;> rfl

theorem swapVectors_winner (sim : Sim) : (env.swapVectors sim).winner = sim.winner := by
  unfold swapVectors
  split_ifs <;> rfl

theorem WinnerWithin.cycle (h : WinnerWithin boundary sim) : WinnerWithin boundary (env.cycle rp boundary first sim) := by
  have htransitions : ∀ (ps : List ℕ) (state : ℕ) (sim : Sim), WinnerWithin boundary sim →
      WinnerWithin boundary (ps.foldl (env.transitionStep rp boundary first state) sim) := by
    intro ps state
    induction ps with
    | nil => exact fun _ h => h
    | cons p ps ih => exact fun sim h => ih _ (h.transitionStep state p)
  have hstates : ∀ (states : List ℕ) (sim : Sim), WinnerWithin boundary sim →
      WinnerWithin boundary (states.foldl (env.stateStep rp boundary first) sim) := by
    intro states
    induction states with
    | nil => exact fun _ h => h
    | cons state states ih =>
      refine fun sim h => ih _ ?_
      unfold stateStep
      split_ifs
      · exact htransitions _ _ _ h
      · exact h
  have hloop := hstates (List.range env.dfa.maxStates) { sim with targetVector := fun _ => -1 } h
  unfold EvalEnv.cycle WinnerWithin
  simp only [checkFixpoint_winner, swapVectors_winner]
  exact hloop

theorem WinnerWithin.runCycles (h : WinnerWithin boundary sim) {sim' : Sim}
    (hrun : env.runCycles rp boundary first fuel sim = some sim') : WinnerWithin boundary sim' := by
  induction fuel generalizing sim with
  | zero => simp [EvalEnv.runCycles] at hrun
  | succ fuel ih =>
    unfold EvalEnv.runCycles at hrun
    split_ifs at hrun
    · exact ih h.cycle hrun
    · exact some.inj hrun ▸ h

/-- What `simulate` leaves of an element of the list lies inside the range of its start. -/
theorem within_finishElement {r : Match} {sim : Sim} (hr : r ∈ env.queryCorpus.range) (hlo : r.start ≤ m.start)
    (hsim : env.simulateFrom rp (min (env.calculateRightboundary m.start) r.stop) first m.start fuel = some sim)
    (hstart : (env.finishElement m sim).start ≠ -1) : Within env.queryCorpus.range (env.finishElement m sim) := by
  have hwinner := WinnerWithin.runCycles (.inl (by simp [initSim])) hsim
  unfold finishElement at hstart ⊢
  by_cases hrep : reports m.start sim = true
  · rw [if_pos hrep]
    simp only [reports, Bool.and_eq_true, decide_eq_true_eq] at hrep
    refine ⟨r, hr, hlo, ?_⟩
    rcases hwinner with hneg | hle
    · exact absurd hrep.1 (not_le.mpr hneg)
    · exact hle.trans (min_le_right _ _)
  · rw [if_neg hrep] at hstart
    exact absurd rfl hstart

theorem simulate_within {ms : List Match} {cut : ℤ} {running : Bool} {out : List Match × Bool}
    (h : env.simulate first fuel ms rp cut running = some out) : AllWithin env.queryCorpus.range out.1 := by
  have hmap : ∀ {m : Match} {o : Option (List Match × Bool)} {out : List Match × Bool},
      (o.map fun out => (m :: out.1, out.2)) = some out →
      ∃ rest, o = some rest ∧ out.1 = m :: rest.1 := by
    intro m o out h
    obtain ⟨rest, hrest, rfl⟩ := map_eq_some_iff.mp h
    exact ⟨rest, hrest, rfl⟩
  fun_induction simulate env first fuel ms rp cut running generalizing out with
  | case1 =>
    obtain rfl := some.inj h
    simp [AllWithin]
  | case2 rp cut running m rest hstop =>
    obtain rfl := some.inj h
    intro x hx hstart
    obtain ⟨y, -, rfl⟩ := mem_map.mp hx
    exact absurd rfl hstart
  | case3 rp cut running m rest hgo hlt r hbefore =>
    rename_i ih
    obtain ⟨rest', hrest, heq⟩ := hmap h
    rw [heq]
    exact (ih hrest).cons fun hstart => absurd rfl hstart
  | case4 rp cut running m rest hgo hlt r hbefore hbehind =>
    rename_i ih
    exact ih h
  | case5 rp cut running m rest hgo hlt r hbefore hbehind boundary hnone =>
    rename_i ih
    obtain ⟨rest', hrest, heq⟩ := hmap h
    rw [heq]
    exact (ih hrest).cons fun hstart => absurd rfl hstart
  | case6 => simp at h
  | case7 rp cut running m rest hgo hlt r hbefore hbehind boundary hsome sim hsim cut' =>
    rename_i ih
    obtain ⟨rest', hrest, heq⟩ := hmap h
    rw [heq]
    exact (ih hrest).cons (within_finishElement (get_mem _ _) (not_lt.mp hbefore) hsim)
  | case8 rp cut running m rest hgo hnlt ih =>
    obtain ⟨rest', hrest, heq⟩ := hmap h
    rw [heq]
    exact (ih hrest).cons fun hstart => absurd rfl hstart

theorem initialLoop_within {cut : ℤ} {deterministic : Bool} {ps : List ℕ} {total total' : Matchlist}
    (htotal : AllWithin env.queryCorpus.range total.tab)
    (h : env.initialLoop cut fuel deterministic ps total = some total') : AllWithin env.queryCorpus.range total'.tab := by
  induction ps generalizing total with
  | nil => exact some.inj h ▸ htotal
  | cons p ps ih =>
    rw [initialLoop] at h
    by_cases hE : env.dfa.transTable 0 p = env.dfa.eState
    · rw [if_pos hE] at h
      exact ih htotal h
    · rw [if_neg hE] at h
      cases hfirst : env.matchfirstpattern (env.patternlist p) with
      | none =>
        simp only [hfirst] at h
        exact some.inj h ▸ htotal
      | some starts =>
        cases starts with
        | nil =>
          simp only [hfirst] at h
          exact ih htotal h
        | cons s starts =>
          simp only [hfirst] at h
          cases hsim : env.simulate (some p) fuel ((s :: starts).map fun s => { start := s, stop := s }) 0
              (if cut ≤ 0 then -1 else cut) true with
          | none =>
            rw [hsim] at h
            simp at h
          | some out =>
            obtain ⟨tab, running⟩ := out
            rw [hsim] at h
            dsimp only at h
            have hred : ∀ targets keywords : Bool, AllWithin env.queryCorpus.range
                (setopReduce { tab, ends := true, targets := targets, keywords := keywords }).tab := fun _ _ =>
              (simulate_within hsim).of_mem fun m hm _ => (mem_setopReduce.mp hm).1
            have hnext : AllWithin env.queryCorpus.range
                (if deterministic then
                    setopReduce
                      { tab, ends := true, targets := env.hasTargetIndicator, keywords := env.hasKeywordIndicator }
                  else setopUnion total (setopReduce
                    { tab, ends := true, targets := env.hasTargetIndicator, keywords := env.hasKeywordIndicator })).tab := by
              cases deterministic
              · intro m hm hstart
                rcases mem_of_setopUnion hm with hm | hm
                · exact htotal m hm hstart
                · exact hred _ _ m hm hstart
              · exact hred _ _
            by_cases hrun : running = true
            · rw [if_pos hrun] at h
              exact ih hnext h
            · rw [if_neg hrun] at h
              exact some.inj h ▸ hnext

/-- Every line of a standard query lies inside a range of the query corpus. -/
theorem doStandardQuery_within {hardCut cut : ℤ} {keepFlag : Bool} {res : CorpusList}
    (h : env.doStandardQuery hardCut cut keepFlag fuel = some res) : ∀ m ∈ res.range, Within env.queryCorpus.range m := by
  obtain ⟨res', hres', rfl⟩ := map_eq_some_iff.mp h
  intro m hm
  have hm := mem_applyStrategy (mem_cutLines hm)
  unfold cqpRunQuery simulateDfa at hres'
  generalize (if hardCut > 0 ∧ hardCut < cut then hardCut else cut) = cut' at hres'
  simp only at hres'
  split_ifs at hres' with hfinal hempty
  · obtain rfl := some.inj hres'
    simp [setCorpusMatchlists] at hm
  · obtain rfl := some.inj hres'
    exact ⟨m, hm, le_rfl, le_rfl⟩
  · obtain ⟨total, htotal, rfl⟩ := map_eq_some_iff.mp hres'
    refine within_setCorpusMatchlists keepFlag (fun x hx => ?_) m hm
    obtain ⟨hmem, hstart⟩ := mem_setopReduce.mp hx
    exact initialLoop_within (by simp [AllWithin]) htotal x hmem hstart

/-! MU queries. -/

/-- What the lookups of the patterns return: positions of the query corpus in ascending order. -/
def IndexLists (env : EvalEnv C A R) : Prop :=
  ∀ p label constraint target lookahead l, env.patternlist p = .pattern label constraint target lookahead →
    env.corpus.calculateInitialMatchlist constraint env.queryCorpus = some l →
    l.Pairwise (· ≤ ·) ∧ ∀ x ∈ l, 0 ≤ x ∧ ∃ r ∈ env.queryCorpus.range, r.start ≤ x ∧ x ≤ r.stop

theorem IndexLists.patternMatchlist (h : env.IndexLists) (patindex : ℕ) :
    ((env.patternMatchlist patindex).getD []).Pairwise (· ≤ ·) ∧
      ∀ x ∈ (env.patternMatchlist patindex).getD [], 0 ≤ x ∧ ∃ r ∈ env.queryCorpus.range, r.start ≤ x ∧ x ≤ r.stop := by
  unfold EvalEnv.patternMatchlist
  cases hp : env.patternlist patindex with
  | pattern label constraint target lookahead =>
    dsimp only
    cases hl : env.corpus.calculateInitialMatchlist constraint env.queryCorpus with
    | none => simp
    | some l => exact h patindex label constraint target lookahead l hp hl
  | matchAll => simp
  | tag => simp
  | anchor => simp

theorem mem_meetLoop {window : ℤ → Option (ℤ × ℤ)} {as bs : List ℤ} {x : ℤ} (h : x ∈ meetLoop window as bs) : x ∈ as := by
  induction as generalizing bs with
  | nil => simp [meetLoop_nil] at h
  | cons a as ih =>
    cases bs with
    | nil => simp [meetLoop_nil_right] at h
    | cons b bs =>
      rw [meetLoop_cons] at h
      cases hw : window a with
      | none =>
        simp only [hw] at h
        exact mem_cons_of_mem _ (ih h)
      | some w =>
        simp only [hw] at h
        split_ifs at h
        · exact mem_cons_of_mem _ (ih h)
        · rcases mem_cons.mp h with rfl | h
          · simp
          · exact mem_cons_of_mem _ (ih h)
        · exact mem_cons_of_mem _ (ih h)

theorem IndexLists.evalMuTree (h : env.IndexLists) (tree : MuTree A) {l : List ℤ} (hl : env.evalMuTree tree = some l) :
    ∀ x ∈ l, ∃ r ∈ env.queryCorpus.range, r.start ≤ x ∧ x ≤ r.stop := by
  induction tree generalizing l with
  | leaf patindex =>
    have hin := (h.patternMatchlist patindex).2
    rw [show env.patternMatchlist patindex = some l from hl] at hin
    exact fun x hx => (hin x hx).2
  | meet left right context ihl ihr =>
    simp only [EvalEnv.evalMuTree, bind_eq_bind, bind_eq_some_iff] at hl
    obtain ⟨ml, hml, arg2, -, heq⟩ := hl
    obtain rfl := some.inj heq
    exact fun x hx => ihl hml x (mem_meetLoop hx)
  | union left right ihl ihr =>
    simp only [EvalEnv.evalMuTree, bind_eq_bind, bind_eq_some_iff] at hl
    obtain ⟨ml, hml, arg2, harg2, heq⟩ := hl
    obtain rfl := some.inj heq
    intro x hx
    obtain ⟨m, hm, rfl⟩ := mem_map.mp hx
    rcases mem_of_setopUnion hm with hm | hm
    · obtain ⟨y, hy, rfl⟩ := mem_map.mp hm
      exact ihl hml y hy
    · obtain ⟨y, hy, rfl⟩ := mem_map.mp hm
      exact ihr harg2 y hy

variable {range : List Match}

/-- Some range contains the start of the line. -/
theorem offrangeMatchesLoop_mem (h : m ∈ (offrangeMatchesLoop cells range).1)
    (hstart : m.start ≠ -1) : m ∈ cells := by
  fun_induction offrangeMatchesLoop cells range with
  | case1 => simp at h
  | case2 m' cells out del heq ih =>
    rw [heq] at ih
    rcases mem_cons.mp h with rfl | h
    · exact absurd rfl hstart
    · exact mem_cons_of_mem _ (ih h)
  | case3 m' cells r range hlt out del heq ih =>
    rw [heq] at ih
    rcases mem_cons.mp h with rfl | h
    · exact absurd rfl hstart
    · exact mem_cons_of_mem _ (ih h)
  | case4 m' cells r range hge hgt ih => exact ih h
  | case5 m' cells r range hge hle out del heq ih =>
    rw [heq] at ih
    rcases mem_cons.mp h with rfl | h
    · simp
    · exact mem_cons_of_mem _ (ih h)

theorem markOffrangeMatches_mem {motherSize : ℕ}
    (h : m ∈ (markOffrangeMatches motherSize range cells).1) (hstart : m.start ≠ -1) : m ∈ cells := by
  unfold markOffrangeMatches at h
  split at h
  · split_ifs at h
    · exact h
    · exact offrangeMatchesLoop_mem h hstart
  · exact offrangeMatchesLoop_mem h hstart

theorem cqpRunMuQuery_within (h : env.IndexLists) (tree : MuTree A) (keepOldRanges : Bool) (cutValue : ℤ) :
    ∀ m ∈ (env.cqpRunMuQuery tree keepOldRanges cutValue).range, Within env.queryCorpus.range m := by
  refine within_setCorpusMatchlists keepOldRanges fun m hm => ?_
  obtain ⟨m', hm', rfl⟩ := mem_map.mp hm
  have hcut : ∀ ml : Matchlist,
      m' ∈ (if cutValue > 0 then { ml with tab := ml.tab.take cutValue.toNat } else ml).tab → m' ∈ ml.tab := by
    intro ml h
    split_ifs at h
    · exact mem_of_mem_take h
    · exact h
  obtain ⟨hmarked, hstart⟩ := mem_setopReduce.mp (hcut _ hm')
  obtain ⟨x, hx, rfl⟩ := mem_map.mp (markOffrangeMatches_mem hmarked hstart)
  cases hl : env.evalMuTree tree with
  | none => simp [hl] at hx
  | some l =>
    rw [hl, getD_some] at hx
    obtain ⟨r, hr, hlo, hhi⟩ := h.evalMuTree tree hl x hx
    exact ⟨r, hr, hlo, hhi⟩

/-! TAB queries. -/

theorem tabWindow_lower {hardBoundary boundary : ℤ} {col : TabColumn} {p lo hi : ℤ}
    (h : tabWindow hardBoundary boundary col p = some (lo, hi)) : lo = p + col.minDist := by
  unfold tabWindow clCposOffset at h
  simp only [cdaEposorng, Bool.false_eq_true, if_false] at h
  split_ifs at h <;> obtain ⟨rfl, -⟩ := Prod.mk.inj (some.inj h) <;> omega

theorem tabColumns_eq (hardBoundary boundary p : ℤ) (cols : List (TabColumn × List ℤ)) :
    tabColumns hardBoundary boundary p cols = GreedyWalk.walk (tabWindow hardBoundary) boundary p cols := by
  induction cols generalizing p with
  | nil => rfl
  | cons c cols ih =>
    obtain ⟨col, list⟩ := c
    rw [tabColumns, GreedyWalk.walk]
    cases tabWindow hardBoundary boundary col p with
    | none => rfl
    | some w =>
      dsimp only
      cases list.dropWhile (· < w.1) with
      | nil => rfl
      | cons x rest =>
        dsimp only
        by_cases hx : x ≤ w.2
        · rw [if_neg (not_lt.mpr hx), if_pos hx, ih]
        · rw [if_pos (not_le.mp hx), if_neg hx]

/-- The right boundary of a start, if there is one. -/
def rightBound (env : EvalEnv C A R) (start : ℤ) : Option ℤ :=
  if env.calculateRightboundary start < 0 then none else some (env.calculateRightboundary start)

theorem tabLoop_eq (hardBoundary : ℤ) (starts : List ℤ) (cols : List (TabColumn × List ℤ)) (last : Option ℤ) :
    env.tabLoop hardBoundary starts cols last =
      (GreedyWalk.sweep (tabWindow hardBoundary) env.rightBound starts cols last).map fun p => { start := p.1, stop := p.2 } := by
  induction starts generalizing cols last with
  | nil => rfl
  | cons s starts ih =>
    rw [tabLoop, GreedyWalk.sweep, rightBound]
    by_cases hb : env.calculateRightboundary s < 0
    · rw [if_pos hb, if_pos hb, ih]
    · rw [if_neg hb, if_neg hb, tabColumns_eq]
      dsimp only
      rcases GreedyWalk.walk (tabWindow hardBoundary) (env.calculateRightboundary s) s cols with ⟨_ | q, left⟩
      · exact ih left last
      · dsimp only [gt_iff_lt]
        split_ifs
        · rw [ih, map_cons]
        · exact ih left last

/-- A match that starts in the query corpus stays unmarked. -/
theorem mem_offrangeMatchesLoop {r : Match} (hr : Intervals.Ascending Match.start Match.stop range)
    (hs : (cells.map Match.start).Pairwise (· ≤ ·)) (hm : m ∈ cells) (hmem : r ∈ range) (hlo : r.start ≤ m.start)
    (hhi : m.start ≤ r.stop) : m ∈ (offrangeMatchesLoop cells range).1 := by
  fun_induction offrangeMatchesLoop cells range with
  | case1 => simp at hm
  | case2 => simp at hmem
  | case3 m' cells r' range hlt out del heq ih =>
    rw [heq] at ih
    rcases mem_cons.mp hm with rfl | hm
    · exfalso
      rcases mem_cons.mp hmem with rfl | hmem
      · omega
      · have := hr.head_lt hmem
        have := hr.nonempty r' (by simp)
        omega
    · exact mem_cons_of_mem _ (ih hr (pairwise_cons.mp hs).2 hm hmem)
  | case4 m' cells r' range hge hgt ih =>
    have hle : m'.start ≤ m.start := by
      rcases mem_cons.mp hm with rfl | hm
      · exact le_rfl
      · exact (pairwise_cons.mp hs).1 _ (mem_map_of_mem hm)
    rcases mem_cons.mp hmem with rfl | hmem
    · omega
    · exact ih hr.tail hs hm hmem
  | case5 m' cells r' range hge hle out del heq ih =>
    rw [heq] at ih
    rcases mem_cons.mp hm with rfl | hm
    · simp
    · exact mem_cons_of_mem _ (ih hr (pairwise_cons.mp hs).2 hm hmem)

theorem mem_markOffrangeMatches (motherSize : ℕ) {r : Match}
    (hr : Intervals.Ascending Match.start Match.stop range) (hs : (cells.map Match.start).Pairwise (· ≤ ·)) (hm : m ∈ cells)
    (hmem : r ∈ range) (hlo : r.start ≤ m.start) (hhi : m.start ≤ r.stop) :
    m ∈ (markOffrangeMatches motherSize range cells).1 := by
  unfold markOffrangeMatches
  split
  · split_ifs
    · exact hm
    · exact mem_offrangeMatchesLoop hr hs hm hmem hlo hhi
  · exact mem_offrangeMatchesLoop hr hs hm hmem hlo hhi

variable {hardBoundary : ℤ} {first : ℕ} {cols : List TabColumn}

/-- What the lists of a TAB query hold. -/
theorem IndexLists.tabLists (h : env.IndexLists) {starts : List ℤ}
    (hlists : env.tabLists first cols = some (starts, lists)) :
    starts.Pairwise (· ≤ ·) ∧ (∀ x ∈ starts, 0 ≤ x ∧ ∃ r ∈ env.queryCorpus.range, r.start ≤ x ∧ x ≤ r.stop) ∧
      ∀ c ∈ lists, c.2.Pairwise (· ≤ ·) := by
  unfold EvalEnv.tabLists at hlists
  split_ifs at hlists
  obtain ⟨rfl, rfl⟩ := Prod.mk.inj (some.inj hlists)
  refine ⟨(h.patternMatchlist first).1, (h.patternMatchlist first).2, fun c hc => ?_⟩
  obtain ⟨col, -, rfl⟩ := mem_map.mp hc
  exact (h.patternMatchlist col.patindex).1

/-- The walks that the lists of a TAB query admit stay in the range in which they start. -/
def WalksInside (env : EvalEnv C A R) (hardBoundary : ℤ) (starts : List ℤ) (lists : List (TabColumn × List ℤ)) : Prop :=
  ∀ s ∈ starts, ∀ b, env.rightBound s = some b → ∀ e, GreedyWalk.Chain (tabWindow hardBoundary) b s lists e →
    ∀ r ∈ env.queryCorpus.range, r.start ≤ s → s ≤ r.stop → e ≤ r.stop

/-- The matches of a TAB query before those off the query corpus are deleted. -/
theorem tabLoop_within_iff (hq : Intervals.Ascending Match.start Match.stop env.queryCorpus.range) {starts : List ℤ}
    (hs : starts.Pairwise (· ≤ ·))
    (hin : ∀ x ∈ starts, 0 ≤ x ∧ ∃ r ∈ env.queryCorpus.range, r.start ≤ x ∧ x ≤ r.stop)
    (hlists : ∀ c ∈ lists, c.2.Pairwise (· ≤ ·)) :
    (∀ m ∈ env.tabLoop hardBoundary starts lists none, Within env.queryCorpus.range m) ↔
      env.WalksInside hardBoundary starts lists := by
  have hmono : ∀ i : TabColumn, Monotone fun p : ℤ => p + i.minDist := fun i a b hab => by
    dsimp only
    omega
  have hlower : ∀ b i p lo hi, tabWindow hardBoundary b i p = some (lo, hi) → lo = p + (i : TabColumn).minDist :=
    fun _ _ _ _ _ h => tabWindow_lower h
  have hge : ∀ (i : TabColumn) (p : ℤ), p ≤ p + i.minDist := fun i p => by omega
  cases starts with
  | nil => simp [tabLoop, WalksInside]
  | cons s₀ starts =>
    have hstarts : (s₀ :: s₀ :: starts).Pairwise (· ≤ ·) := by
      refine pairwise_cons.mpr ⟨fun x hx => ?_, hs⟩
      rcases mem_cons.mp hx with rfl | hx
      · exact le_rfl
      · exact (pairwise_cons.mp hs).1 x hx
    have hpassed := GreedyWalk.passed_refl (fun (i : TabColumn) (p : ℤ) => p + i.minDist) s₀ lists
    rw [tabLoop_eq]
    constructor
    · intro h s hmem b hb e hchain r hr hlo hhi
      have hlast : ∀ e', (none : Option ℤ) = some e' → ∃ p₀ b₀, p₀ ≤ s₀ ∧
          GreedyWalk.Chain (tabWindow hardBoundary) b₀ p₀ lists e' := by simp
      obtain hlast | ⟨s', hs', hsweep⟩ :=
        GreedyWalk.exists_sweep hmono hlower hlists hpassed hstarts hlast hmem hb hchain
      · simp at hlast
      · obtain ⟨r', hr', hstart, hstop⟩ := h _ (mem_map_of_mem hsweep)
        -- the walk kept starts no later, so that its range contains the start of this one too
        obtain rfl := hq.unique hr hr' ⟨hlo, hhi⟩ ⟨hstart.trans hs', (hchain.le hlower hge).trans hstop⟩
        exact hstop
    · intro h m hm
      obtain ⟨p, hp, rfl⟩ := mem_map.mp hm
      obtain ⟨b, hb, hchain⟩ := GreedyWalk.sweep_chain hmono hlower hlists hpassed hstarts p hp
      have hmem : p.1 ∈ s₀ :: starts := (GreedyWalk.sweep_sublist _ _ _ _).subset (mem_map_of_mem hp)
      obtain ⟨r, hr, hlo, hhi⟩ := (hin p.1 hmem).2
      exact ⟨r, hr, hlo, h p.1 hmem b hb p.2 hchain r hr hlo hhi⟩

theorem not_chain_of_nil {b p e : ℤ} (hnil : [] ∈ lists.map Prod.snd) :
    ¬ GreedyWalk.Chain (tabWindow hardBoundary) b p lists e := by
  intro h
  induction h with
  | nil => simp at hnil
  | @cons _ _ _ _ _ _ items _ hwindow hleast hle htail ih =>
    rcases mem_cons.mp hnil with heq | hnil
    · obtain rfl : [] = items := heq
      simp [IsLeast] at hleast
    · exact ih hnil

theorem offrangeMatchesLoop_zero (h : (offrangeMatchesLoop cells range).2 = 0) :
    (offrangeMatchesLoop cells range).1 = cells := by
  fun_induction offrangeMatchesLoop cells range with
  | case1 => rfl
  | case2 => simp at h
  | case3 => simp at h
  | case4 m cells r range hge hgt ih => exact ih h
  | case5 m cells r range hge hle out del heq ih =>
    rw [heq] at ih
    exact congrArg (m :: ·) (ih h)

theorem markOffrangeMatches_zero {motherSize : ℕ}
    (h : (markOffrangeMatches motherSize range cells).2 = 0) : (markOffrangeMatches motherSize range cells).1 = cells := by
  unfold markOffrangeMatches at *
  split at h
  · split_ifs at h ⊢
    · rfl
    · exact offrangeMatchesLoop_zero h
  · exact offrangeMatchesLoop_zero h

/-- `del` matches off the query corpus are deleted. -/
def deleteOffrange (env : EvalEnv C A R) (tab : List Match) : Matchlist :=
  let (cells, del) := markOffrangeMatches env.corpus.size env.queryCorpus.range tab
  let result : Matchlist := { tab := cells, ends := true }
  if del > 0 then setopReduce result else result

/-- No match is deleted that starts in the query corpus. -/
theorem mem_deleteOffrange {tab : List Match} (hq : Intervals.Ascending Match.start Match.stop env.queryCorpus.range)
    (hs : (tab.map Match.start).Pairwise (· ≤ ·))
    (hin : ∀ m ∈ tab, 0 ≤ m.start ∧ ∃ r ∈ env.queryCorpus.range, r.start ≤ m.start ∧ m.start ≤ r.stop) (m : Match) :
    m ∈ (env.deleteOffrange tab).tab ↔ m ∈ tab := by
  unfold deleteOffrange
  constructor
  · intro hm
    dsimp only at hm
    split_ifs at hm with hdel
    · obtain ⟨hm, hstart⟩ := mem_setopReduce.mp hm
      exact markOffrangeMatches_mem hm hstart
    · rwa [markOffrangeMatches_zero (Nat.eq_zero_of_not_pos hdel)] at hm
  · intro hm
    obtain ⟨h0, r, hr, hlo, hhi⟩ := hin m hm
    have hmark := mem_markOffrangeMatches env.corpus.size hq hs hm hr hlo hhi
    dsimp only
    split_ifs
    · exact mem_setopReduce.mpr ⟨hmark, by omega⟩
    · exact hmark

theorem cqpRunTabQuery_eq (env : EvalEnv C A R) (hardBoundary : ℤ) (first : ℕ) (cols : List TabColumn) :
    (env.cqpRunTabQuery hardBoundary first cols).range =
      match env.tabLists first cols with
      | none => []
      | some (starts, lists) =>
        if starts = [] ∨ [] ∈ lists.map Prod.snd then []
        else (env.deleteOffrange (env.tabLoop hardBoundary starts lists none)).tab := by
  unfold cqpRunTabQuery
  cases env.tabLists first cols with
  | none => rfl
  | some p =>
    obtain ⟨starts, lists⟩ := p
    dsimp only
    split_ifs
    · rfl
    · cases htab : env.tabLoop hardBoundary starts lists none with
      | nil =>
        have hnil : ∀ range : List Match, markOffrangeMatches env.corpus.size range [] = ([], 0) := by
          intro range
          unfold markOffrangeMatches
          split
          · split_ifs
            · rfl
            · rw [offrangeMatchesLoop]
          · rw [offrangeMatchesLoop]
        simp [deleteOffrange, hnil, setCorpusMatchlists]
      | cons m tab => rfl

/-- The condition on a query under which its matches stay inside the query corpus: none on a
standard or MU query; of a TAB query, that the walks which its lists admit do. -/
def StaysInside (env : EvalEnv C A R) (hardBoundary : ℤ) : CqpQuery A → Prop
  | .standard _ _ | .mu _ _ _ => True
  | .tab first cols => ∀ starts lists, env.tabLists first cols = some (starts, lists) →
      env.WalksInside hardBoundary starts lists

theorem cqpRunTabQuery_within_iff (hq : Intervals.Ascending Match.start Match.stop env.queryCorpus.range)
    (hlists : env.IndexLists) (first : ℕ) (cols : List TabColumn) :
    (∀ m ∈ (env.cqpRunTabQuery hardBoundary first cols).range, Within env.queryCorpus.range m) ↔
      env.StaysInside hardBoundary (.tab first cols) := by
  rw [cqpRunTabQuery_eq, StaysInside]
  cases htl : env.tabLists first cols with
  | none => simp
  | some p =>
    obtain ⟨starts, lists⟩ := p
    obtain ⟨hs, hin, hsorted⟩ := hlists.tabLists htl
    have hiff : (∀ starts' lists', some (starts, lists) = some (starts', lists') →
        env.WalksInside hardBoundary starts' lists') ↔ env.WalksInside hardBoundary starts lists := by
      simp
    rw [hiff]
    dsimp only
    split_ifs with hempty
    · refine ⟨fun _ s hmem b _ e hchain => ?_, fun _ => by simp⟩
      rcases hempty with rfl | hnil
      · simp at hmem
      · exact absurd hchain (not_chain_of_nil hnil)
    · have hsub : ((env.tabLoop hardBoundary starts lists none).map Match.start).Sublist starts := by
        rw [tabLoop_eq, List.map_map]
        exact GreedyWalk.sweep_sublist _ _ _ _
      have hmem := mem_deleteOffrange hq (hs.sublist hsub) fun m hm => hin _ (hsub.subset (mem_map_of_mem hm))
      rw [← tabLoop_within_iff hq hs hin hsorted]
      simp only [hmem]

end EvalEnv

/-- The query `TAB "a" []{1} "b"` on a corpus of five words, with "a" (1) at 1 and "b" (2) at 3, inside the
subcorpus of the ranges 0..1 and 3..4. -/
def gapQuery : EvalEnv ℕ Unit Unit where
  corpus := sampleCorpus [0, 1, 0, 2, 0] []
  queryCorpus := { type := .sub, range := [⟨0, 1, -1, -1⟩, ⟨3, 4, -1, -1⟩] }
  patternlist p := .pattern none (p + 1) .isNotTarget false
  dfa := pairDFA
  searchContext := .word 100
  matchingStrategy := .standardMatch

theorem gapQuery_indexLists : gapQuery.IndexLists := by
  intro p label c t la l _ hl
  obtain rfl := some.inj hl
  refine ⟨?_, fun x hx => ?_⟩
  · refine List.Pairwise.filter _ ?_
    rw [pairwise_map]
    exact pairwise_lt_range.imp fun hab => Int.ofNat_le.mpr (le_of_lt hab)
  · obtain ⟨hmem, hx⟩ := mem_filter.mp hx
    obtain ⟨n, -, rfl⟩ := mem_map.mp hmem
    simp only [Bool.and_eq_true, List.any_eq_true, decide_eq_true_eq] at hx
    exact ⟨Int.natCast_nonneg n, hx.2⟩

theorem gapQuery_ascending : Intervals.Ascending Match.start Match.stop gapQuery.queryCorpus.range :=
  ⟨by decide, by decide⟩

end CWB
