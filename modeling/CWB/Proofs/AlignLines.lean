import CWB.Proofs.BestPath
import CWB.Proofs.RegionFiles

/-! The alignment lines tile both corpora unless the path ends with a 1:0 or 0:1 step. There the sentence whose first
token should be the boundary does not exist. -/

namespace CWB

open Option List Tiling

section Side

variable {s : SentenceAttribute} {p : ℤ} {f d : ℕ}

theorem alignSide_wf (hf : f < s.regions.length) (h : Tiles p (s.regions.drop f) s.size) (l : ℤ) :
    (s.alignSide f l).wf = some p := by
  obtain ⟨r, hr⟩ : ∃ r, s.regions[f]? = some r := ⟨_, getElem?_eq_getElem hf⟩
  have hhead : r.1 = p := h.head (by rw [head?_drop, hr])
  rw [SentenceAttribute.alignSide]
  simp only
  rw [clStruc2cpos_eq s.length_lt hr, map_some, hhead]

theorem alignSide_wl (hf : f < s.regions.length) (hd : f + d ≤ s.regions.length) {q : ℤ}
    (h : Tiles p (s.regions.drop f) s.size) (hq : Tiles p ((s.regions.drop f).take d) q) :
    (s.alignSide f (f + d : ℕ)).wl = some (q - 1) := by
  have hwf : (s.alignSide f (f + d : ℕ)).wf = some p := alignSide_wf hf h _
  rw [SentenceAttribute.alignSide] at hwf ⊢
  simp only at hwf ⊢
  cases d with
  | zero =>
    obtain rfl : p = q := by rwa [take_zero] at hq
    rw [if_neg (by omega), hwf, map_some]
  | succ d =>
    obtain ⟨r, hr⟩ : ∃ r, s.regions[f + d]? = some r := ⟨_, getElem?_eq_getElem (by omega)⟩
    have hlast : q = r.2 + 1 := by
      apply hq.last
      rw [getLast?_take, if_neg (Nat.succ_ne_zero d), Nat.add_sub_cancel, getElem?_drop, hr]
      rfl
    rw [if_pos (by omega), show ((f + (d + 1) : ℕ) : ℤ) - 1 = ((f + d : ℕ) : ℤ) by omega, clStruc2cpos_eq s.length_lt hr,
      map_some, hlast, add_sub_cancel_right]

/-- The side of a line that begins with a sentence is right, and the rest follows at the end of its sentences. -/
theorem coversFrom_cons_iff (d : ℕ) (sides : List AlignSide) (hf : f < s.regions.length) (hd : f + d ≤ s.regions.length)
    (h : Tiles p (s.regions.drop f) s.size) : ∃ q, Tiles q (s.regions.drop (f + d)) s.size ∧
      (CoversFrom p (s.alignSide f (f + d : ℕ) :: sides) (s.regions.drop f) ↔ CoversFrom q sides (s.regions.drop (f + d))) := by
  obtain ⟨q, hgroup, hrest⟩ := h.cut d
  rw [drop_drop] at hrest
  have hwf := alignSide_wf hf h (f + d : ℕ)
  have hwl := alignSide_wl hf hd h hgroup
  have hstep : (s.alignSide f (f + d : ℕ)).step = d := by
    simp only [SentenceAttribute.alignSide]
    omega
  refine ⟨q, hrest, ?_, ?_⟩
  · rintro ⟨group, rest, e, heq, hlength, -, he, -, hcovers⟩
    rw [hwl, some.injEq] at he
    rw [hstep, Nat.cast_inj] at hlength
    obtain rfl : rest = s.regions.drop (f + d) := by
      rw [← drop_drop, heq, hlength, drop_left]
    rwa [← he, sub_add_cancel] at hcovers
  · intro hcovers
    refine ⟨_, _, q - 1, (take_append_drop d _).symm, ?_, hwf, hwl, ?_, ?_⟩
    · rw [hstep, length_take, length_drop, min_eq_left (by omega)]
    · rwa [sub_add_cancel]
    · rwa [sub_add_cancel, drop_drop]

/-- Behind the last sentence the first number of the line is not set. -/
theorem not_coversFrom_end (hf : f = s.regions.length) (l : ℤ) (sides : List AlignSide) (regions : List (ℤ × ℤ)) :
    ¬CoversFrom p (s.alignSide f l :: sides) regions := by
  rintro ⟨group, rest, e, -, -, hwf, -⟩
  rw [SentenceAttribute.alignSide] at hwf
  simp only at hwf
  rw [hf, clStruc2cpos_length s.length_lt] at hwf
  cases hwf

end Side

variable {side : ℤ × ℤ × ℤ → ℤ} {path : List (ℤ × ℤ × ℤ)}

namespace AlignTask

variable {t : AlignTask}

/-! ## The loop over the path -/

theorem alignStep_eq (out : AlignOutput) (e : (ℤ × ℤ × ℤ) × (ℤ × ℤ × ℤ)) : t.alignStep out e =
    { lines := out.lines ++ (t.alignStep {} e).lines, stepsCreated := out.stepsCreated + (t.alignStep {} e).lines.length } := by
  rw [alignStep, alignStep]
  simp only
  split_ifs <;> rfl

theorem foldl_alignStep (es : List ((ℤ × ℤ × ℤ) × (ℤ × ℤ × ℤ))) (out : AlignOutput) :
    (es.foldl t.alignStep out).lines = out.lines ++ es.flatMap fun e => (t.alignStep {} e).lines := by
  induction es generalizing out with
  | nil => exact (append_nil _).symm
  | cons e es ih => rw [foldl_cons, ih, alignStep_eq, append_assoc, flatMap_cons]

/-- The number of steps is that of the lines. -/
theorem stepsCreated_eq (es : List ((ℤ × ℤ × ℤ) × (ℤ × ℤ × ℤ))) (out : AlignOutput) (h : out.stepsCreated = out.lines.length) :
    (es.foldl t.alignStep out).stepsCreated = (es.foldl t.alignStep out).lines.length := by
  induction es generalizing out with
  | nil => exact h
  | cons e es ih =>
    apply ih
    rw [alignStep_eq, length_append, h]

/-- One side of the lines for a step. -/
def stepSides (t : AlignTask) (s : SentenceAttribute) (side : ℤ × ℤ × ℤ → ℤ) (e : (ℤ × ℤ × ℤ) × (ℤ × ℤ × ℤ)) : List AlignSide :=
  if t.isSplit e.1 e.2 then [s.alignSide (side e.1) (side e.1 + 1), s.alignSide (side e.1 + 1) (side e.2)]
  else [s.alignSide (side e.1) (side e.2)]

theorem alignSteps_sides (path : List (ℤ × ℤ × ℤ)) :
    (t.alignSteps path).lines.map PrintedLine.source = (path.zip path.tail).flatMap (t.stepSides t.s1 fun p => p.1) ∧
      (t.alignSteps path).lines.map PrintedLine.target = (path.zip path.tail).flatMap (t.stepSides t.s2 fun p => p.2.1) := by
  rw [alignSteps, foldl_alignStep, nil_append, map_flatMap, map_flatMap]
  constructor
  all_goals
    congr 1
    funext e
    rw [alignStep, stepSides]
    simp only
    split_ifs <;> rfl

/-- A step that begins before the end of the text is written as it should be. -/
theorem coversFrom_step_iff {s : SentenceAttribute} {a c : ℤ × ℤ × ℤ} {p : ℤ} {f d : ℕ}
    (sides : List AlignSide) (hf : f < s.regions.length) (hd : f + d ≤ s.regions.length) (ha : side a = f) (hc : side c = (f + d : ℕ))
    (hsplit : t.isSplit a c = true → d = 2) (h : Tiles p (s.regions.drop f) s.size) :
    ∃ q, Tiles q (s.regions.drop (f + d)) s.size ∧
      (CoversFrom p (t.stepSides s side (a, c) ++ sides) (s.regions.drop f) ↔ CoversFrom q sides (s.regions.drop (f + d))) := by
  rw [stepSides]
  simp only
  rw [ha, hc]
  split_ifs with htwo
  · obtain rfl := hsplit htwo
    obtain ⟨m, hm, hfirst⟩ := coversFrom_cons_iff 1 (s.alignSide (f + 1 : ℕ) (f + 1 + 1 : ℕ) :: sides) hf (by omega) h
    obtain ⟨q, hq, hsecond⟩ := coversFrom_cons_iff 1 sides (by omega) (by omega) hm
    exact ⟨q, hq, hfirst.trans hsecond⟩
  · exact coversFrom_cons_iff d sides hf hd h

/-- One side of a path through `n` sentences. -/
structure SidePath (t : AlignTask) (n : ℕ) (side : ℤ × ℤ × ℤ → ℤ) (path : List (ℤ × ℤ × ℤ)) : Prop where
  rises : path.IsChain fun a c => side a ≤ side c ∧ (t.isSplit a c = true → side c = side a + 2)
  within : ∀ a ∈ path, 0 ≤ side a ∧ side a ≤ n
  last : ∀ a ∈ path.getLast?, side a = n

theorem SidePath.tail {n : ℕ} {a c : ℤ × ℤ × ℤ}
    (h : t.SidePath n side (a :: c :: path)) : t.SidePath n side (c :: path) where
  rises := (isChain_cons_cons.mp h.rises).2
  within := fun x hx => h.within x (mem_cons_of_mem _ hx)
  last := fun x hx => h.last x (by rwa [getLast?_cons_cons])

/-- The lines are right as long as no step begins at the end of the text. -/
theorem coversFrom_path_iff {s : SentenceAttribute} {a : ℤ × ℤ × ℤ} {p : ℤ} {f : ℕ}
    (h : t.SidePath s.regions.length side (a :: path)) (ha : side a = f) (htiles : Tiles p (s.regions.drop f) s.size) :
    CoversFrom p (((a :: path).zip path).flatMap (t.stepSides s side)) (s.regions.drop f) ↔
      ∀ x ∈ (a :: path).dropLast, side x < s.regions.length := by
  induction path generalizing a p f with
  | nil =>
    have hend : side a = s.regions.length := h.last a rfl
    have hdrop : s.regions.drop f = [] := drop_eq_nil_of_le (by omega)
    exact iff_of_true hdrop (by simp)
  | cons c path ih =>
    obtain ⟨⟨hle, hsplit⟩, -⟩ := isChain_cons_cons.mp h.rises
    obtain ⟨-, hcn⟩ := h.within c (by simp)
    rw [dropLast_cons_cons, forall_mem_cons, zip_cons_cons, flatMap_cons]
    by_cases hlt : side a < s.regions.length
    · obtain ⟨d, hd⟩ : ∃ d : ℕ, side c = (f + d : ℕ) := ⟨(side c - f).toNat, by omega⟩
      obtain ⟨q, hq, hstep⟩ := coversFrom_step_iff (t := t) (((c :: path).zip path).flatMap (t.stepSides s side)) (d := d)
        (by omega) (by omega) ha hd (fun htwo => by have := hsplit htwo; omega) htiles
      rw [hstep, ih h.tail hd hq]
      exact (and_iff_right hlt).symm
    · have hend : f = s.regions.length := by
        have := (h.within a (by simp)).2
        omega
      refine iff_of_false ?_ fun hall => hlt hall.1
      rw [stepSides, ha]
      split_ifs <;> exact not_coversFrom_end hend _ _ _

/-- No step begins at the end exactly if the last one does not. -/
theorem SidePath.last_iff {n : ℕ} (h : t.SidePath n side path) :
    (∀ x ∈ path.dropLast, side x < n) ↔ ∀ init p c, path = init ++ [p, c] → side p < side c := by
  constructor
  · rintro hall init p c rfl
    have hc : side c = n := h.last c (by simp)
    rw [hc]
    exact hall p (by simp)
  · intro hlast x hx
    obtain ⟨init, p, hinit⟩ := eq_nil_or_concat path.dropLast |>.resolve_left (ne_nil_of_mem hx)
    have hne : path ≠ [] := by
      rintro rfl
      cases hx
    have hc := getLast?_eq_some_getLast hne
    generalize path.getLast hne = c at hc
    have hpath : path = init ++ [p, c] := by
      rw [← dropLast_append_getLast? c hc, hinit]
      simp
    have hrise : path.Pairwise fun a c => side a ≤ side c := by
      apply List.IsChain.pairwise
      exact h.rises.imp fun _ _ h => h.1
    have hlt := hlast init p c hpath
    rw [h.last c hc] at hlt
    rw [hinit, concat_eq_append, mem_append, mem_singleton] at hx
    obtain hx | rfl := hx
    · rw [hpath, pairwise_append] at hrise
      exact (hrise.2.2 x hx p (by simp)).trans_lt hlt
    · exact hlt

theorem lastStepAdvances_iff (path : List (ℤ × ℤ × ℤ)) : LastStepAdvances (points path) ↔
    (∀ init p c, path = init ++ [p, c] → p.1 < c.1) ∧ ∀ init p c, path = init ++ [p, c] → p.2.1 < c.2.1 := by
  constructor
  · intro h
    have hboth : ∀ init p c, path = init ++ [p, c] → p.1 < c.1 ∧ p.2.1 < c.2.1 := by
      rintro init p c rfl
      exact h (points init) (p.1, p.2.1) (c.1, c.2.1) map_append
    exact ⟨fun init p c heq => (hboth init p c heq).1, fun init p c heq => (hboth init p c heq).2⟩
  · rintro ⟨hx, hy⟩ init p c heq
    obtain ⟨init, last, rfl, -, hlast⟩ := map_eq_append_iff.mp heq
    obtain ⟨a, _, rfl, rfl, hb⟩ := map_eq_cons_iff.mp hlast
    obtain ⟨b, _, rfl, rfl, hnil⟩ := map_eq_cons_iff.mp hb
    obtain rfl := map_eq_nil_iff.mp hnil
    exact ⟨hx init a b rfl, hy init a b rfl⟩

/-- Both sides of a monotone path through all sentences. -/
theorem sidePath_of_monotone (h : t.pathInput.MonotonePath (points path)) :
    t.SidePath t.s1.regions.length (fun p => p.1) path ∧ t.SidePath t.s2.regions.length (fun p => p.2.1) path := by
  have hstep := h.step
  rw [points, isChain_map] at hstep
  have hrise : (points path).IsChain (· ≤ ·) := by
    apply h.step.imp
    intro p c h
    obtain ⟨hx, hy⟩ := AlignInput.step_nonneg h
    exact ⟨sub_nonneg.mp hx, sub_nonneg.mp hy⟩
  have hwithin := Backtrace.mem_Icc_of_isChain hrise h.first h.last
  have hlast : ∀ a ∈ path.getLast?, a.1 = t.s1.regions.length ∧ a.2.1 = t.s2.regions.length := by
    intro a ha
    have hend := h.last
    rw [points, getLast?_map, ha, map_some, some.injEq, Prod.ext_iff] at hend
    obtain ⟨hx, hy⟩ := hend
    exact ⟨hx.trans (zero_add _), hy.trans (zero_add _)⟩
  have hinside : ∀ a ∈ path, (0 ≤ a.1 ∧ 0 ≤ a.2.1) ∧ a.1 ≤ t.s1.regions.length ∧ a.2.1 ≤ t.s2.regions.length := by
    intro a ha
    obtain ⟨⟨hx0, hy0⟩, hx, hy⟩ := hwithin (a.1, a.2.1) (mem_map_of_mem ha)
    exact ⟨⟨hx0, hy0⟩, hx.trans_eq (zero_add _), hy.trans_eq (zero_add _)⟩
  have hsplit : ∀ a c : ℤ × ℤ × ℤ, t.isSplit a c = true → c.1 - a.1 = 2 ∧ c.2.1 - a.2.1 = 2 := by
    intro a c htwo
    rw [isSplit, decide_eq_true_iff] at htwo
    exact ⟨htwo.1, htwo.2.1⟩
  refine ⟨⟨?_, fun a ha => ⟨(hinside a ha).1.1, (hinside a ha).2.1⟩, fun a ha => (hlast a ha).1⟩,
    ⟨?_, fun a ha => ⟨(hinside a ha).1.2, (hinside a ha).2.2⟩, fun a ha => (hlast a ha).2⟩⟩
  · apply hstep.imp
    intro a c h
    exact ⟨sub_nonneg.mp (AlignInput.step_nonneg h).1, fun htwo => by have := (hsplit a c htwo).1; omega⟩
  · apply hstep.imp
    intro a c h
    exact ⟨sub_nonneg.mp (AlignInput.step_nonneg h).2, fun htwo => by have := (hsplit a c htwo).2; omega⟩

/-- The lines for all sentences of two corpora tile both of them exactly if the path does not end with a 1:0 or 0:1
step. After such an end a line has no first number, on the side where there are no more sentences. -/
theorem alignDoAlignment_tiled_iff (t : AlignTask) (maxOutPos : ℕ) {path : List (ℤ × ℤ × ℤ)}
    (hpath : t.pathInput.bestPathAfter maxOutPos = some path) (hmono : t.pathInput.MonotonePath (points path)) :
    ∃ out, t.alignDoAlignment maxOutPos = some out ∧ out.stepsCreated = out.lines.length ∧
      (t.Tiled out.lines ↔ LastStepAdvances (points path)) := by
  refine ⟨t.alignSteps path, ?_, stepsCreated_eq _ _ rfl, ?_⟩
  · rw [alignDoAlignment, hpath, map_some]
  obtain ⟨h1, h2⟩ := sidePath_of_monotone hmono
  obtain ⟨hsource, htarget⟩ := alignSteps_sides (t := t) path
  rw [Tiled, hsource, htarget, lastStepAdvances_iff, ← h1.last_iff, ← h2.last_iff]
  cases path with
  | nil => exact absurd hmono.first (by simp [points])
  | cons a path =>
    have hfirst := hmono.first
    rw [points, map_cons, head?_cons, some.injEq, Prod.ext_iff] at hfirst
    obtain ⟨hx, hy⟩ := hfirst
    exact and_congr (coversFrom_path_iff h1 (f := 0) hx t.s1.tiles) (coversFrom_path_iff h2 (f := 0) hy t.s2.tiles)

/-! Two sentences that are translations of each other, and a sentence whose translation is followed by another one. -/

def oneSentence : SentenceAttribute where
  regions := [(0, 2)]
  size := 3
  tiles := by simp [Tiles]
  length_lt := by simp

def twoSentences : SentenceAttribute where
  regions := [(0, 2), (3, 4)]
  size := 5
  tiles := by simp [Tiles]
  length_lt := by simp

def pairwiseTask : AlignTask where
  s1 := twoSentences
  s2 := twoSentences
  featureMatch := fun s1 s2 t1 t2 => if s1 = s2 ∧ t1 = t2 ∧ s1 = t1 then 1 else 0
  beamWidth := 11
  splits := fun q sum => 5 * q ≤ 6 * sum

def followedTask : AlignTask where
  s1 := oneSentence
  s2 := twoSentences
  featureMatch := fun s1 _ t1 _ => if s1 = 0 ∧ t1 = 0 then 1 else 0
  beamWidth := 11
  splits := fun q sum => 5 * q ≤ 6 * sum

theorem alignDoAlignment_tiled_pairwise : ∃ out, pairwiseTask.alignDoAlignment 0 = some out ∧ pairwiseTask.Tiled out.lines := by
  have hpath : pairwiseTask.pathInput.bestPathAfter 0 = some [(0, 0, 1), (1, 1, 1), (2, 2, 0)] := by decide +kernel
  have hmono : pairwiseTask.pathInput.MonotonePath (points [(0, 0, 1), (1, 1, 1), (2, 2, 0)]) := by
    refine ⟨rfl, rfl, ?_⟩
    simp [points, AlignInput.steps]
  obtain ⟨out, hout, -, htiled⟩ := alignDoAlignment_tiled_iff pairwiseTask 0 hpath hmono
  refine ⟨out, hout, htiled.mpr ?_⟩
  rw [lastStepAdvances_iff]
  have hlast : ∀ (init : List (ℤ × ℤ × ℤ)) p c, [((0 : ℤ), (0 : ℤ), (1 : ℤ)), (1, 1, 1), (2, 2, 0)] = init ++ [p, c] →
      p = (1, 1, 1) ∧ c = (2, 2, 0) := by
    intro init p c heq
    have hlast := congrArg reverse heq
    simp only [reverse_append, reverse_cons, reverse_nil, nil_append, cons_append,
      List.cons.injEq] at hlast
    exact ⟨hlast.2.1.symm, hlast.1.symm⟩
  constructor
  all_goals
    intro init p c heq
    obtain ⟨rfl, rfl⟩ := hlast init p c heq
    decide

/-- The second line has no first number for the corpus of one sentence, where it should have 3 and 2. -/
theorem not_tiled_followed : ¬∀ (t : AlignTask) (maxOutPos : ℕ) (path : List (ℤ × ℤ × ℤ)) (out : AlignOutput),
    t.pathInput.bestPathAfter maxOutPos = some path → t.pathInput.MonotonePath (points path) →
      t.alignDoAlignment maxOutPos = some out → t.Tiled out.lines := by
  intro h
  have hpath : followedTask.pathInput.bestPathAfter 0 = some [(0, 0, 1), (1, 1, 0), (1, 2, 0)] := by decide +kernel
  have hmono : followedTask.pathInput.MonotonePath (points [(0, 0, 1), (1, 1, 0), (1, 2, 0)]) := by
    refine ⟨rfl, rfl, ?_⟩
    simp [points, AlignInput.steps]
  have hout : followedTask.alignDoAlignment 0 =
      some { lines := [⟨⟨some 0, some 2, 1⟩, ⟨some 0, some 2, 1⟩, 1⟩, ⟨⟨none, none, 0⟩, ⟨some 3, some 4, 1⟩, 0⟩],
             stepsCreated := 2 } := by
    decide +kernel
  obtain ⟨⟨_, _, _, -, -, -, -, -, _, _, _, -, -, hnone, -⟩, -⟩ := h followedTask 0 _ _ hpath hmono hout
  cases hnone

end AlignTask

end CWB
