import Mathlib
import CWB.Spec.SpecialChars

/-! Deletion moves the rest of the string down and then steps over what has come into the place of the control, so
that a control behind a control stays. -/

namespace CWB.SpecialChars

open List

variable {zap : Byte → Bool} {replace : Byte} {s : List Byte} {behind : Block} {fuel num : ℕ} {r : ℕ × Block}

/-- What the loop leaves of a string when it deletes. -/
def survivors (zap : Byte → Bool) : List Byte → List Byte
  | [] => []
  | [c] => if zap c then [] else [c]
  | c :: d :: s => if zap c then d :: survivors zap s else c :: survivors zap (d :: s)

/-- What it counts. -/
def deletions (zap : Byte → Bool) : List Byte → ℕ
  | [] => 0
  | [c] => if zap c then 1 else 0
  | c :: d :: s => if zap c then deletions zap s + 1 else deletions zap (d :: s)

/-- No control stands next to another one. -/
def Apart (zap : Byte → Bool) (s : List Byte) : Prop := s.IsChain fun c d => zap c = false ∨ zap d = false

/-- The rest of the string behind a control can be moved with an `int` as index. -/
def Movable (zap : Byte → Bool) (s : List Byte) : Prop :=
  ∀ before c rest, s = before ++ c :: rest → zap c = true → rest.length + 1 < 2 ^ 31

theorem survivors_clean_iff : (∀ c ∈ survivors zap s, zap c = false) ↔ Apart zap s := by
  unfold Apart
  fun_induction survivors zap s with
  | case1 => simp
  | case2 c hc => simp
  | case3 c hc => simpa using hc
  | case4 c d s hc ih =>
    rw [forall_mem_cons, ih, isChain_cons_cons, isChain_cons]
    simp only [hc, Bool.true_eq_false, false_or]
    constructor
    · intro h
      exact ⟨h.1, fun _ _ => .inl h.1, h.2⟩
    · intro h
      exact ⟨h.1, h.2.2⟩
  | case5 c d s hc ih =>
    rw [forall_mem_cons, ih, isChain_cons_cons]
    simp [hc]

theorem survivors_eq_filter (h : Apart zap s) : survivors zap s = s.filter fun c => !zap c := by
  unfold Apart at h
  fun_induction survivors zap s with
  | case1 => rfl
  | case2 c hc => simp [hc]
  | case3 c hc => simp [hc]
  | case4 c d s hc ih =>
    rw [isChain_cons_cons] at h
    obtain ⟨hcd, hs⟩ := h
    have hd : zap d = false := by simpa [hc] using hcd
    rw [ih hs.tail]
    simp [hc, hd]
  | case5 c d s hc ih =>
    rw [ih h.tail]
    simp [hc]

theorem deletions_eq_countP (h : Apart zap s) : deletions zap s = s.countP zap := by
  unfold Apart at h
  fun_induction deletions zap s with
  | case1 => rfl
  | case2 c hc => simp [hc]
  | case3 c hc => simp [hc]
  | case4 c d s hc ih =>
    rw [isChain_cons_cons] at h
    obtain ⟨hcd, hs⟩ := h
    have hd : zap d = false := by simpa [hc] using hcd
    rw [ih hs.tail]
    simp [hc, hd]
  | case5 c d s hc ih =>
    rw [ih h.tail]
    simp [hc]

theorem movable_nil : Movable zap [] := by
  intro before c rest hs
  exact absurd hs (by simp)

variable {c : Byte}

theorem movable_cons : Movable zap (c :: s) ↔ (zap c = true → s.length + 1 < 2 ^ 31) ∧ Movable zap s := by
  constructor
  · intro h
    refine ⟨h [] c s rfl, fun before d rest hs => ?_⟩
    exact h (c :: before) d rest (by rw [hs, cons_append])
  · intro h before d rest hs hd
    cases before with
    | nil =>
      obtain ⟨rfl, rfl⟩ := List.cons.inj hs
      exact h.1 hd
    | cons b before =>
      obtain ⟨-, hs⟩ := List.cons.inj hs
      exact h.2 before d rest hs hd

/-- All controls lie behind the first one. -/
theorem movable_of_length (h : s.length < 2 ^ 31) : Movable zap s := by
  intro before c rest hs hc
  rw [hs, length_append, length_cons] at h
  omega

theorem Movable.countP_lt (h : Movable zap s) : s.countP zap < 2 ^ 31 := by
  induction s with
  | nil => norm_num
  | cons c s ih =>
    rw [movable_cons] at h
    by_cases hc : zap c = true
    · rw [countP_cons_of_pos hc]
      have := h.1 hc
      have := countP_le_length (p := zap) (l := s)
      omega
    · rw [countP_cons_of_neg hc]
      exact ih h.2

/-- The inner loop closes the gap of the control, and the terminator stands there twice. -/
theorem downCopy_eq (i : ℕ) (c : Byte) (h0 : 0 ∉ s) : downCopy i (c :: (Block.ofString s ++ behind)) =
    if i + s.length + 1 < 2 ^ 31 then some (Block.ofString s ++ 0 :: behind) else none := by
  induction s generalizing i c with
  | nil => rfl
  | cons d s ih =>
    obtain ⟨hd, hs⟩ := not_or.mp (mt mem_cons.mpr h0)
    rw [Block.ofString, cons_append, cons_append, downCopy, if_neg (Ne.symm hd)]
    change (if i + 1 < 2 ^ 31 then (downCopy (i + 1) (d :: (Block.ofString s ++ behind))).map (d :: ·) else none) = _
    rw [ih (i + 1) d hs, length_cons]
    by_cases hlt : i + (s.length + 1) + 1 < 2 ^ 31
    · rw [if_pos hlt, if_pos (by omega), if_pos (by omega)]
      rfl
    · rw [if_neg hlt, if_neg (show ¬i + 1 + s.length + 1 < 2 ^ 31 by omega)]
      split_ifs <;> rfl

/-! ## The loop -/

theorem zapLoop_zero (zap : Byte → Bool) (rest : Block) : zapLoop zap replace (fuel + 1) num (0 :: rest) = some (num, 0 :: rest) := if_pos rfl

theorem zapLoop_keep (h0 : c ≠ 0) (hc : zap c = false) (rest : Block) :
    zapLoop zap replace (fuel + 1) num (c :: rest) = (zapLoop zap replace fuel num rest).map fun r => (r.1, c :: r.2) := by
  rw [zapLoop, if_neg h0, if_neg (by rw [hc]; exact Bool.false_ne_true)]
  rfl

theorem zapLoop_replace (h0 : c ≠ 0) (hc : zap c = true) (hr : replace ≠ 0) (rest : Block) :
    zapLoop zap replace (fuel + 1) num (c :: rest) =
      if num + 1 < 2 ^ 31 then (zapLoop zap replace fuel (num + 1) rest).map fun r => (r.1, replace :: r.2) else none := by
  rw [zapLoop, if_neg h0, if_pos hc, if_pos hr]
  rfl

/-- After a deletion the pointer stands behind the byte that has come into the place of the control. -/
theorem zapLoop_delete (h0 : c ≠ 0) (hc : zap c = true) (hs : 0 ∉ s) :
    zapLoop zap 0 (fuel + 1) num (c :: (Block.ofString s ++ behind)) =
      if num + 1 < 2 ^ 31 ∧ s.length + 1 < 2 ^ 31 then
        stepOver (zapLoop zap 0 fuel (num + 1)) (Block.ofString s ++ 0 :: behind)
      else none := by
  rw [zapLoop, if_neg h0, if_pos hc, if_neg (show ¬(0 : Byte) ≠ 0 from fun h => h rfl), downCopy_eq 0 c hs, Nat.zero_add]
  by_cases hnum : num + 1 < 2 ^ 31
  · by_cases hlen : s.length + 1 < 2 ^ 31
    · rw [if_pos hnum, if_pos hlen, if_pos ⟨hnum, hlen⟩]
      rfl
    · rw [if_pos hnum, if_neg hlen, if_neg fun h => hlen h.2]
      rfl
  · rw [if_neg hnum, if_neg fun h => hnum h.1]

/-- With a replacement: each control is replaced and counted, unless the count overflows. -/
theorem zapLoop_replacing (hr : replace ≠ 0) (h0 : 0 ∉ s) (hfuel : s.length < fuel) (hnum : num < 2 ^ 31) :
    zapLoop zap replace fuel num (Block.ofString s ++ behind) =
      if num + s.countP zap < 2 ^ 31 then
        some (num + s.countP zap, Block.ofString (s.map fun c => if zap c then replace else c) ++ behind)
      else none := by
  induction s generalizing fuel num with
  | nil =>
    obtain ⟨fuel, rfl⟩ := Nat.exists_eq_add_one_of_ne_zero (Nat.ne_zero_of_lt hfuel)
    have hcount : num + [].countP zap < 2 ^ 31 := hnum
    rw [if_pos hcount]
    exact zapLoop_zero zap behind
  | cons c s ih =>
    obtain ⟨fuel, rfl⟩ := Nat.exists_eq_add_one_of_ne_zero (Nat.ne_zero_of_lt hfuel)
    obtain ⟨hc0, hs⟩ := not_or.mp (mt mem_cons.mpr h0)
    have hfuel' : s.length < fuel := Nat.lt_of_succ_lt_succ hfuel
    change zapLoop zap replace (fuel + 1) num (c :: (Block.ofString s ++ behind)) = _
    by_cases hc : zap c = true
    · rw [zapLoop_replace (Ne.symm hc0) hc hr, countP_cons_of_pos hc, map_cons, if_pos hc]
      by_cases hlt : num + 1 < 2 ^ 31
      · rw [if_pos hlt, ih hs hfuel' hlt, Nat.add_right_comm, Nat.add_assoc num]
        by_cases hcount : num + (s.countP zap + 1) < 2 ^ 31
        · rw [if_pos hcount, if_pos hcount]
          rfl
        · rw [if_neg hcount, if_neg hcount]
          rfl
      · rw [if_neg hlt, if_neg (by omega)]
    · rw [zapLoop_keep (Ne.symm hc0) (Bool.not_eq_true _ ▸ hc), countP_cons_of_neg hc, map_cons, if_neg hc, ih hs hfuel' hnum]
      split_ifs <;> rfl

theorem survivors_keep (hc : zap c = false) : survivors zap (c :: s) = c :: survivors zap s := by
  cases s with
  | nil => simp [survivors, hc]
  | cons d s => simp [survivors, hc]

theorem deletions_keep (hc : zap c = false) : deletions zap (c :: s) = deletions zap s := by
  cases s with
  | nil => simp [deletions, hc]
  | cons d s => simp [deletions, hc]

/-- Deletion, if it gets through: what is left and what was counted. -/
theorem zapLoop_deleting (h0 : 0 ∉ s) (hfuel : s.length < fuel) (h : zapLoop zap 0 fuel num (Block.ofString s ++ behind) = some r) :
    Movable zap s ∧ r.1 = num + deletions zap s ∧ ∃ behind', r.2 = Block.ofString (survivors zap s) ++ behind' := by
  induction fuel generalizing s num behind r with
  | zero => exact absurd hfuel (Nat.not_lt_zero _)
  | succ fuel ih =>
  cases s with
  | nil =>
    obtain rfl := Option.some.inj ((zapLoop_zero zap behind).symm.trans h)
    exact ⟨movable_nil, rfl, behind, rfl⟩
  | cons c s =>
    obtain ⟨hc0, hs⟩ := not_or.mp (mt mem_cons.mpr h0)
    have hfuel' : s.length < fuel := Nat.lt_of_succ_lt_succ hfuel
    change zapLoop zap 0 (fuel + 1) num (c :: (Block.ofString s ++ behind)) = some r at h
    rw [movable_cons]
    by_cases hc : zap c = true
    · rw [zapLoop_delete (Ne.symm hc0) hc hs] at h
      split_ifs at h with hlt
      cases s with
      | nil =>
        -- the pointer has come to the old terminator
        obtain ⟨r', hr', rfl⟩ := Option.map_eq_some_iff.mp h
        obtain ⟨fuel, rfl⟩ := Nat.exists_eq_add_one_of_ne_zero (Nat.ne_zero_of_lt hfuel')
        obtain rfl := Option.some.inj ((zapLoop_zero zap behind).symm.trans hr')
        refine ⟨⟨fun _ => hlt.2, movable_nil⟩, ?_, 0 :: behind, ?_⟩
        · simp [deletions, hc]
        · simp [survivors, hc, Block.ofString]
      | cons d s =>
        obtain ⟨r', hr', rfl⟩ := Option.map_eq_some_iff.mp h
        obtain ⟨-, hs'⟩ := not_or.mp (mt mem_cons.mpr hs)
        obtain ⟨-, hcount, behind', hrest⟩ := ih hs' (Nat.lt_of_succ_lt hfuel') hr'
        have hshort : (d :: s).length < 2 ^ 31 := Nat.lt_of_succ_lt hlt.2
        refine ⟨⟨fun _ => hlt.2, movable_of_length hshort⟩, ?_, behind', ?_⟩
        · simp only [deletions, if_pos hc, hcount]
          omega
        · simp only [survivors, if_pos hc, hrest]
          rfl
    · have hkeep : zap c = false := Bool.eq_false_of_not_eq_true hc
      rw [zapLoop_keep (Ne.symm hc0) hkeep] at h
      obtain ⟨r', hr', rfl⟩ := Option.map_eq_some_iff.mp h
      obtain ⟨hmove, hcount, behind', hrest⟩ := ih hs hfuel' hr'
      refine ⟨⟨fun h => absurd h hc, hmove⟩, ?_, behind', ?_⟩
      · rw [deletions_keep hkeep]
        exact hcount
      · rw [survivors_keep hkeep]
        simp only [hrest]
        rfl

theorem stepOver_isSome {loop : Block → Option (ℕ × Block)} {rest : Block} (h : loop rest = some r) :
    ∃ r', stepOver loop (c :: rest) = some r' := ⟨_, by rw [stepOver, h]; rfl⟩

theorem zapLoop_deletes (behind : Block) (h0 : 0 ∉ s) (hfuel : s.length < fuel) (hmove : Movable zap s) (hnum : num + s.countP zap < 2 ^ 31) :
    ∃ r, zapLoop zap 0 fuel num (Block.ofString s ++ behind) = some r := by
  induction fuel generalizing s num behind with
  | zero => exact absurd hfuel (Nat.not_lt_zero _)
  | succ fuel ih =>
  cases s with
  | nil => exact ⟨_, zapLoop_zero zap behind⟩
  | cons c s =>
    obtain ⟨hc0, hs⟩ := not_or.mp (mt mem_cons.mpr h0)
    have hfuel' : s.length < fuel := Nat.lt_of_succ_lt_succ hfuel
    obtain ⟨hlen, hmove⟩ := movable_cons.mp hmove
    change ∃ r, zapLoop zap 0 (fuel + 1) num (c :: (Block.ofString s ++ behind)) = some r
    by_cases hc : zap c = true
    · rw [countP_cons_of_pos hc] at hnum
      rw [zapLoop_delete (Ne.symm hc0) hc hs, if_pos ⟨by omega, hlen hc⟩]
      cases s with
      | nil =>
        obtain ⟨fuel, rfl⟩ := Nat.exists_eq_add_one_of_ne_zero (Nat.ne_zero_of_lt hfuel')
        exact stepOver_isSome (zapLoop_zero zap behind)
      | cons d s =>
        obtain ⟨-, hs'⟩ := not_or.mp (mt mem_cons.mpr hs)
        have hle : s.countP zap ≤ (d :: s).countP zap := (sublist_cons_self d s).countP_le
        obtain ⟨r, hr⟩ := ih (0 :: behind) hs' (Nat.lt_of_succ_lt hfuel') (movable_cons.mp hmove).2 (show num + 1 + s.countP zap < 2 ^ 31 by omega)
        exact stepOver_isSome hr
    · rw [countP_cons_of_neg hc] at hnum
      obtain ⟨r, hr⟩ := ih behind hs hfuel' hmove hnum
      rw [zapLoop_keep (Ne.symm hc0) (Bool.eq_false_of_not_eq_true hc), hr]
      exact ⟨_, rfl⟩

/-! ## When the controls are removed -/

/-- With deletion no control may follow a control, with a replacement the replacement may not be a control itself; and
the numbers have to fit into an `int`. -/
def ZapFits (zap : Byte → Bool) (replace : Byte) (s : List Byte) : Prop :=
  if replace = 0 then Apart zap s ∧ Movable zap s
  else (zap replace = false ∨ ∀ c ∈ s, zap c = false) ∧ s.countP zap < 2 ^ 31

theorem survivors_noZero (h0 : 0 ∉ s) : 0 ∉ survivors zap s := by
  fun_induction survivors zap s with
  | case1 => exact h0
  | case2 c hc => exact not_mem_nil
  | case3 c hc => exact h0
  | case4 c d s hc ih =>
    simp only [mem_cons, not_or] at h0 ⊢
    exact ⟨h0.2.1, ih h0.2.2⟩
  | case5 c d s hc ih =>
    rw [mem_cons, not_or] at h0 ⊢
    exact ⟨h0.1, ih h0.2⟩

theorem replaced_noZero (hr : replace ≠ 0) (h0 : 0 ∉ s) : 0 ∉ s.map fun c => if zap c then replace else c := by
  intro hmem
  obtain ⟨c, hc, heq⟩ := mem_map.mp hmem
  split_ifs at heq
  · exact hr heq
  · exact h0 (heq ▸ hc)

theorem replaced_clean_iff : (∀ c ∈ s.map fun c => if zap c then replace else c, zap c = false) ↔
    zap replace = false ∨ ∀ c ∈ s, zap c = false := by
  rw [forall_mem_map]
  constructor
  · intro h
    by_cases hr : zap replace = true
    · refine .inr fun c hc => ?_
      by_contra hzap
      have := h c hc
      rw [if_pos (by simpa using hzap), hr] at this
      exact absurd this.symm Bool.false_ne_true
    · exact .inl (Bool.eq_false_of_not_eq_true hr)
  · intro h c hc
    by_cases hzap : zap c = true
    · rw [if_pos hzap]
      obtain h | h := h
      · exact h
      · exact absurd (h c hc) (by rw [hzap]; exact Bool.false_ne_true.symm)
    · rw [if_neg hzap]
      exact Bool.eq_false_of_not_eq_true hzap

/-- The controls are removed, each of them, and counted, exactly under this condition. -/
theorem zapsControls_iff (s : Block.Str) (replace : Byte) (zapTabs zapNewlines : Bool) :
    ZapsControls s replace zapTabs zapNewlines ↔ ZapFits (zappable zapTabs zapNewlines) replace s.chars := by
  unfold ZapsControls clStringZapControls ZapFits withoutControls
  generalize zappable zapTabs zapNewlines = zap
  have hfuel : ∀ behind : Block, s.chars.length < (Block.ofString s.chars ++ behind).length := fun behind => by
    rw [length_append, Block.length_ofString]
    omega
  by_cases hr : replace = 0
  · subst hr
    simp only [if_pos]
    constructor
    · intro h
      obtain ⟨after, out, hrun, hscan, -, hclean⟩ := h []
      obtain ⟨hmove, -, behind', hafter⟩ := zapLoop_deleting s.noZero (hfuel []) hrun
      have hout := Block.scanString_of_prefix (survivors_noZero s.noZero) ⟨behind', hafter.symm⟩
      obtain rfl := Option.some.inj (hout.symm.trans hscan)
      exact ⟨survivors_clean_iff.mp hclean, hmove⟩
    · intro h behind
      obtain ⟨hapart, hmove⟩ := h
      obtain ⟨r, hrun⟩ := zapLoop_deletes behind s.noZero (hfuel behind) hmove
        (by rw [Nat.zero_add]; exact hmove.countP_lt)
      obtain ⟨-, hcount, behind', hafter⟩ := zapLoop_deleting s.noZero (hfuel behind) hrun
      refine ⟨r.2, survivors zap s.chars, ?_, ?_, survivors_eq_filter hapart, survivors_clean_iff.mpr hapart⟩
      · rw [hrun, ← deletions_eq_countP hapart, ← Nat.zero_add (deletions zap s.chars), ← hcount]
      · exact Block.scanString_of_prefix (survivors_noZero s.noZero) ⟨behind', hafter.symm⟩
  · simp only [if_neg hr]
    have hscan : ∀ behind : Block, (Block.ofString (s.chars.map fun c => if zap c then replace else c) ++ behind).scanString =
        some (s.chars.map fun c => if zap c then replace else c) := fun behind =>
      Block.scanString_of_prefix (replaced_noZero hr s.noZero) (prefix_append _ behind)
    rw [← replaced_clean_iff]
    constructor
    · intro h
      obtain ⟨after, out, hrun, -, rfl, hclean⟩ := h []
      refine ⟨hclean, ?_⟩
      rw [zapLoop_replacing hr s.noZero (hfuel []) (Nat.two_pow_pos 31)] at hrun
      split_ifs at hrun with hcount
      rwa [Nat.zero_add] at hcount
    · intro h behind
      refine ⟨_, _, ?_, hscan behind, rfl, h.1⟩
      rw [zapLoop_replacing hr s.noZero (hfuel behind) (Nat.two_pow_pos 31), Nat.zero_add, if_pos h.2]

theorem noZero_runOfControls : (0 : Byte) ∉ [1, 1, 97] := by decide

/-- Of two controls in a row the second one stays when they are deleted. -/
theorem run_of_controls_stays : ¬ZapsControls ⟨[1, 1, 97], noZero_runOfControls, by norm_num⟩ 0 false false := by
  intro h
  obtain ⟨after, out, hrun, hscan, -, hclean⟩ := h []
  obtain rfl := (Prod.mk.inj (Option.some.inj hrun)).2
  obtain rfl := Option.some.inj hscan
  exact absurd (hclean 1 mem_cons_self) (by decide)

end CWB.SpecialChars
