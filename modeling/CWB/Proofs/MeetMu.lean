import Mathlib.Data.List.TakeWhile
import CWB.Proofs.RegionLookup
import CWB.Spec.SubcorpusQuery

/-! `cl_cpos_offset` and the windows of `meet_mu` that rest on it: where the offset to the left is
compared with the corpus size instead of the position, and what a `meet` loses by that. -/

namespace CWB

open Option List

/-! Offsets. -/

section Offset

variable {size cpos offset : ℤ} {clamp : Bool}

theorem intResult_eq {n : ℤ} (hlow : -2 ^ 31 ≤ n) (hhigh : n < 2 ^ 31) : intResult n = some n := if_pos ⟨hlow, hhigh⟩

/-- A position of a corpus of `size` tokens. -/
def InCorpus (size cpos : ℤ) : Prop := 0 ≤ cpos ∧ cpos < size

instance : Decidable (InCorpus size cpos) := inferInstanceAs (Decidable (0 ≤ cpos ∧ cpos < size))

/-- The range of an `int` -/
def IsInt (n : ℤ) : Prop := -2 ^ 31 ≤ n ∧ n < 2 ^ 31

/-- No intermediate result overflows. -/
theorem clCposOffsetInt_eq (hsize : size < 2 ^ 31) (hcpos : InCorpus size cpos) (hoffset : IsInt offset) (clamp : Bool) :
    clCposOffsetInt cpos offset size clamp = some (clCposOffset cpos offset size clamp) := by
  obtain ⟨h0, hlt⟩ := hcpos
  obtain ⟨hlow, hhigh⟩ := hoffset
  unfold clCposOffsetInt clCposOffset
  by_cases hpos : offset > 0
  · rw [if_pos hpos, if_pos hpos, intResult_eq (by omega) (by omega), bind_eq_bind, bind_some]
    by_cases hrest : size - cpos ≤ offset
    · rw [if_pos hrest, if_pos hrest]
      cases clamp with
      | true => exact intResult_eq (by omega) (by omega)
      | false => rfl
    · rw [if_neg hrest, if_neg hrest]
      exact intResult_eq (by omega) (by omega)
  · rw [if_neg hpos, if_neg hpos]
    by_cases hneg : offset < 0
    · rw [if_pos hneg, if_pos hneg, intResult_eq (by omega) (by omega), bind_eq_bind, bind_some]
      by_cases hrest : size + offset < 0
      · rw [if_pos hrest, if_pos hrest]
      · rw [if_neg hrest, if_neg hrest]
        exact intResult_eq (by omega) (by omega)
    · rw [if_neg hneg, if_neg hneg]

/-- The position at an offset: clamped to the end that was passed, or refused. -/
def clampedOffset (size cpos offset : ℤ) (clamp : Bool) : ℤ :=
  if InCorpus size (cpos + offset) then cpos + offset
  else if clamp then (if cpos + offset < 0 then 0 else size - 1)
  else cdaEposorng

/-- `cl_cpos_offset` computes it unless the offset leads in front of the corpus without being larger
than the corpus; then only the number of the error code comes out right by chance. -/
theorem clCposOffsetInt_eq_clampedOffset_iff (hsize : size < 2 ^ 31) (hcpos : InCorpus size cpos) (hoffset : IsInt offset) :
    clCposOffsetInt cpos offset size clamp = some (clampedOffset size cpos offset clamp) ↔
      0 ≤ cpos + offset ∨ size + offset < 0 ∨ clamp = false ∧ cpos + offset = cdaEposorng := by
  rw [clCposOffsetInt_eq hsize hcpos hoffset, some.injEq]
  obtain ⟨h0, hlt⟩ := hcpos
  unfold clCposOffset clampedOffset InCorpus
  cases clamp with
  | true =>
    simp only [if_true, Bool.true_eq_false, false_and, or_false]
    split_ifs <;> omega
  | false =>
    simp only [Bool.false_eq_true, if_false, true_and, cdaEposorng]
    split_ifs <;> omega

/-- The largest offset to the right, clamped. -/
theorem clCposOffsetInt_eq_clampedOffset_right :
    clCposOffsetInt 7 2147483647 10 true = some (clampedOffset 10 7 2147483647 true) :=
  (clCposOffsetInt_eq_clampedOffset_iff (by decide) ⟨by decide, by decide⟩ ⟨by decide, by decide⟩).mpr (by decide)

/-- One token in front of a corpus: neither clamped nor refused. -/
theorem not_clCposOffsetInt_eq_clampedOffset :
    ¬∀ size cpos offset : ℤ, ∀ clamp, size < 2 ^ 31 → InCorpus size cpos → IsInt offset →
      clCposOffsetInt cpos offset size clamp = some (clampedOffset size cpos offset clamp) := by
  intro hall
  have h := hall 10 0 (-1) true (by decide) ⟨by decide, by decide⟩ ⟨by decide, by decide⟩
  revert h
  decide

end Offset

/-! The loop of `meet_mu` on arrays is the one on lists. -/

variable {a : ℤ} {context : MeetContext Cqi.StrucAttribute} {as : List ℤ} {s : MeetState}

section Arrays

variable {window : ℤ → Option (Option (ℤ × ℤ))} {w : ℤ → Option (ℤ × ℤ)} {list2 : List ℤ}

theorem skipItems_eq (list2 : List ℤ) (start : ℤ) {rest j : ℕ} (h : j + rest = list2.length) :
    ∃ j', skipItems list2 start rest j = some j' ∧ j' ≤ list2.length ∧
      list2.drop j' = (list2.drop j).dropWhile (· < start) := by
  induction rest generalizing j with
  | zero => exact ⟨j, rfl, by omega, by rw [drop_of_length_le (by omega), dropWhile_nil]⟩
  | succ rest ih =>
    have hj : j < list2.length := by omega
    rw [skipItems, getElem?_eq_getElem hj, bind_eq_bind, bind_some]
    by_cases hlt : list2[j] < start
    · rw [if_pos hlt]
      obtain ⟨j', hskip, hle, hdrop⟩ := ih (show j + 1 + rest = list2.length by omega)
      refine ⟨j', hskip, hle, ?_⟩
      rw [hdrop, drop_eq_getElem_cons hj, dropWhile_cons_of_pos (by simpa using hlt)]
    · rw [if_neg hlt]
      exact ⟨j, rfl, hj.le, by rw [drop_eq_getElem_cons hj, dropWhile_cons_of_neg (by simpa using hlt)]⟩

/-- What is left of the first list has not been overwritten. -/
structure MeetState.Before (s : MeetState) (as : List ℤ) : Prop where
  drop_eq : s.start.drop s.i = as
  k_le : s.k ≤ s.i
  i_le : s.i ≤ s.start.length

theorem MeetState.Before.next (h : s.Before (a :: as)) (j : ℕ) :
    s.start[s.i]? = some a ∧ ({ s with i := s.i + 1, j := j } : MeetState).Before as := by
  have hlt : s.i < s.start.length := by
    by_contra hge
    have hnil := h.drop_eq
    rw [drop_eq_nil_of_le (not_lt.mp hge)] at hnil
    cases hnil
  have hcons := h.drop_eq
  rw [drop_eq_getElem_cons hlt, List.cons.injEq] at hcons
  have hk := h.k_le
  exact ⟨by rw [getElem?_eq_getElem hlt, hcons.1], hcons.2, by simp only; omega, hlt⟩

theorem MeetState.Before.upcopy (h : s.Before (a :: as)) :
    ∃ s', upcopy s = some s' ∧ s'.Before as ∧ s'.j = s.j ∧ s'.k ≤ s'.start.length ∧
      s'.start.take s'.k = s.start.take s.k ++ [a] := by
  obtain ⟨hget, hnext⟩ := h.next s.j
  have hlt := hnext.i_le
  have hk := h.k_le
  simp only at hlt
  rw [CWB.upcopy, hget, bind_eq_bind, bind_some, if_pos (by omega)]
  refine ⟨_, rfl, ⟨?_, by simp only; omega, by simp only [length_set]; omega⟩, rfl, ?_, ?_⟩
  · simp only
    rw [drop_set_of_lt (by omega)]
    exact hnext.drop_eq
  · simp only [length_set]
    omega
  · simp only
    rw [take_add_one, getElem?_set_self (by omega), take_set_of_le le_rfl]
    rfl

/-- A cell with a window, as the loop on lists treats it. -/
theorem meetInside_eq {start stop : ℤ} (hs : s.Before (a :: as)) (hwa : w a = some (start, stop))
    (hj : s.j < list2.length) :
    ∃ s', meetInside list2 start stop s = some s' ∧ s'.Before as ∧ s'.j ≤ list2.length ∧ s'.k ≤ s'.start.length ∧
      s.start.take s.k ++ meetLoop w (a :: as) (list2.drop s.j) = s'.start.take s'.k ++ meetLoop w as (list2.drop s'.j) := by
  have hk := hs.k_le
  have hi := hs.i_le
  obtain ⟨j', hskip, hj', hdrop⟩ := skipItems_eq list2 start (show s.j + (list2.length - s.j) = list2.length by omega)
  rw [meetInside, getElem?_eq_getElem hj, bind_eq_bind, bind_some]
  have hlists : meetLoop w (a :: as) (list2.drop s.j) =
      if stop < list2[s.j] then meetLoop w as (list2.drop s.j)
      else if (list2.drop j').head?.any (· ≤ stop) then a :: meetLoop w as (list2.drop j')
      else meetLoop w as (list2.drop j') := by
    rw [hdrop, drop_eq_getElem_cons hj, meetLoop_cons, hwa]
  rw [hlists]
  by_cases hstop : stop < list2[s.j]
  · rw [if_pos hstop, if_pos hstop]
    exact ⟨_, rfl, (hs.next s.j).2, hj.le, by simp only; omega, rfl⟩
  rw [if_neg hstop, if_neg hstop, hskip, bind_eq_bind, bind_some]
  by_cases hlt : j' < list2.length
  · have hhead : (list2.drop j').head? = some list2[j'] := by rw [drop_eq_getElem_cons hlt, head?_cons]
    have hstart : start ≤ list2[j'] := by
      have := head?_dropWhile_not (fun b => decide (b < start)) (list2.drop s.j)
      rw [← hdrop, hhead] at this
      simpa using this
    rw [if_pos hlt, getElem?_eq_getElem hlt, bind_some, hhead, any_some]
    by_cases hin : list2[j'] ≤ stop
    · obtain ⟨s', hup, hbefore, hsj, hsk, htake⟩ := MeetState.Before.upcopy (s := { s with j := j' }) ⟨hs.drop_eq, hk, hi⟩
      rw [if_pos hin, if_pos hstart, if_pos (decide_eq_true hin)]
      refine ⟨s', hup, hbefore, by rw [hsj]; exact hj', hsk, ?_⟩
      rw [htake, hsj, append_assoc]
      rfl
    · rw [if_neg hin, if_neg (by simpa using hin)]
      exact ⟨_, rfl, (hs.next j').2, hj', by simp only; omega, rfl⟩
  · have hhead : (list2.drop j').head? = none := by rw [drop_eq_nil_of_le (by omega), head?_nil]
    rw [if_neg hlt, hhead, any_none, if_neg (by simp)]
    exact ⟨_, rfl, (hs.next j').2, hj', by simp only; omega, rfl⟩

/-- One round does what the loop on lists does with one cell. -/
theorem meetRound_eq (hs : s.Before (a :: as)) (hw : window a = some (w a)) (hj : s.j < list2.length) :
    ∃ s', meetRound window list2 s = some s' ∧ s'.Before as ∧ s'.j ≤ list2.length ∧
      s.start.take s.k ++ meetLoop w (a :: as) (list2.drop s.j) = s'.start.take s'.k ++ meetLoop w as (list2.drop s'.j) := by
  obtain ⟨hget, hnext⟩ := hs.next s.j
  rw [meetRound, hget, bind_eq_bind, bind_some, hw, bind_eq_bind, bind_some]
  cases hwa : w a with
  | none =>
    refine ⟨_, rfl, hnext, hj.le, ?_⟩
    rw [drop_eq_getElem_cons hj, meetLoop_cons, hwa]
  | some bounds =>
    obtain ⟨s', hinside, hbefore, hj', hk', heq⟩ := meetInside_eq hs hwa hj
    refine ⟨s', ?_, hbefore, hj', heq⟩
    simp only [hinside, bind_eq_bind, bind_some]
    exact if_pos ⟨hk', hbefore.k_le⟩

theorem meetRounds_eq (hs : s.Before as) (hw : ∀ a ∈ as, window a = some (w a)) (hj : s.j ≤ list2.length) :
    ∃ s', meetRounds window list2 as.length s = some s' ∧
      s'.start.take s'.k = s.start.take s.k ++ meetLoop w as (list2.drop s.j) := by
  induction as generalizing s with
  | nil => exact ⟨s, rfl, by rw [meetLoop_nil, append_nil]⟩
  | cons a as ih =>
    rw [length_cons, meetRounds]
    by_cases hlt : s.j < list2.length
    · obtain ⟨s₁, hround, hbefore, hj₁, heq⟩ := meetRound_eq hs (hw a (by simp)) hlt
      obtain ⟨s', hrounds, htake⟩ := ih hbefore (fun a' ha' => hw a' (by simp [ha'])) hj₁
      rw [if_pos hlt, hround, bind_eq_bind, bind_some]
      exact ⟨s', hrounds, htake.trans heq.symm⟩
    · rw [if_neg hlt, drop_eq_nil_of_le (by omega), meetLoop_nil_right]
      exact ⟨s, rfl, (append_nil _).symm⟩

/-- The arrays are never left. -/
theorem meetMu_eq {size : ℤ} {list1 list2 : List ℤ} (hw : ∀ a ∈ list1, meetMuWindow size context a = some (w a)) :
    meetMu size list1 list2 context = some (meetLoop w list1 list2) := by
  rw [meetMu]
  by_cases hempty : list1 = [] ∨ list2 = []
  · rw [if_pos hempty]
    obtain rfl | rfl := hempty
    · rw [meetLoop_nil]
    · rw [meetLoop_nil_right]
  · rw [if_neg hempty]
    have hbefore : MeetState.Before { start := list1, i := 0, j := 0, k := 0 } list1 := ⟨rfl, le_rfl, Nat.zero_le _⟩
    obtain ⟨s', hrounds, htake⟩ := meetRounds_eq hbefore hw (Nat.zero_le list2.length)
    rw [hrounds, bind_eq_bind, bind_some, htake]
    rfl

end Arrays

/-! What a pass over two ascending lists keeps. -/

variable {bs : List ℤ}

section Filter

variable {w : ℤ → Option (ℤ × ℤ)}

/-- Some item lies in the window of the cell. -/
def hasItem (w : ℤ → Option (ℤ × ℤ)) (bs : List ℤ) (a : ℤ) : Bool :=
  (w a).any fun bounds => bs.any fun b => bounds.1 ≤ b ∧ b ≤ bounds.2

theorem hasItem_eq_true_iff :
    hasItem w bs a = true ↔ ∃ bounds, w a = some bounds ∧ ∃ b ∈ bs, bounds.1 ≤ b ∧ b ≤ bounds.2 := by
  simp [hasItem, Option.any_eq_true]

/-- Items in front of a window are of no use for it. -/
theorem hasItem_dropWhile {start : ℤ} (h : ∀ bounds, w a = some bounds → start ≤ bounds.1) :
    hasItem w (bs.dropWhile (· < start)) a = hasItem w bs a := by
  rw [Bool.eq_iff_iff, hasItem_eq_true_iff, hasItem_eq_true_iff]
  refine exists_congr fun bounds => and_congr_right fun hw => ?_
  have hle := h bounds hw
  refine ⟨fun ⟨b, hb, hin⟩ => ⟨b, (dropWhile_suffix _).subset hb, hin⟩, fun ⟨b, hb, hin⟩ => ⟨b, ?_, hin⟩⟩
  rw [← takeWhile_append_dropWhile (p := fun b => decide (b < start)) (l := bs)] at hb
  rcases mem_append.mp hb with hb | hb
  · have := mem_takeWhile_imp hb
    simp only [decide_eq_true_eq] at this
    omega
  · exact hb

/-- A window whose start is not behind the first item has an item if that is not behind its end. -/
theorem hasItem_head (hbs : bs.Pairwise (· < ·)) {start stop : ℤ} (hw : w a = some (start, stop))
    (hstart : ∀ b ∈ bs.head?, start ≤ b) : hasItem w bs a = bs.head?.any (· ≤ stop) := by
  rw [Bool.eq_iff_iff, hasItem_eq_true_iff, hw]
  cases bs with
  | nil => simp
  | cons b bs =>
    have hb := hstart b rfl
    simp only [head?_cons, any_some, decide_eq_true_eq, some.injEq]
    refine ⟨?_, fun hle => ⟨_, rfl, b, by simp, hb, hle⟩⟩
    rintro ⟨bounds, rfl, b', hb', hin⟩
    rcases mem_cons.mp hb' with rfl | hb'
    · exact hin.2
    · have := rel_of_pairwise_cons hbs hb'
      omega

/-- With windows whose starts do not decrease, one forward pass finds all cells with an item. -/
theorem meetLoop_eq_filter (hbs : bs.Pairwise (· < ·))
    (hmono : as.Pairwise fun a a' => ∀ bounds bounds', w a = some bounds → w a' = some bounds' → bounds.1 ≤ bounds'.1) :
    meetLoop w as bs = as.filter (hasItem w bs) := by
  induction as generalizing bs with
  | nil => rw [meetLoop_nil, filter_nil]
  | cons a as ih =>
    obtain ⟨hfirst, hrest⟩ := pairwise_cons.mp hmono
    cases bs with
    | nil =>
      have hno : ∀ x, hasItem w [] x = false := fun x => by simp [hasItem]
      simp [meetLoop_nil_right, hno]
    | cons b bs =>
      have hall := ih hbs hrest
      rw [meetLoop_cons]
      cases hw : w a with
      | none =>
        have hno : hasItem w (b :: bs) a = false := by simp [hasItem, hw]
        rw [filter_cons_of_neg (by simp [hno]), ← hall]
      | some bounds =>
        obtain ⟨start, stop⟩ := bounds
        simp only
        by_cases hstop : stop < b
        · -- the first item is behind the window, and so are all others
          have hno : hasItem w (b :: bs) a = false := by
            rw [Bool.eq_false_iff, Ne, hasItem_eq_true_iff, hw]
            rintro ⟨_, heq, b', hb', hin⟩
            obtain rfl := some.inj heq
            rcases mem_cons.mp hb' with rfl | hb'
            · omega
            · have := rel_of_pairwise_cons hbs hb'
              omega
          rw [if_pos hstop, filter_cons_of_neg (by simp [hno]), hall]
        · rw [if_neg hstop]
          have hsub : ((b :: bs).dropWhile (· < start)).Pairwise (· < ·) := hbs.sublist (dropWhile_suffix _).sublist
          have hskip : ∀ a' ∈ a :: as, hasItem w ((b :: bs).dropWhile (· < start)) a' = hasItem w (b :: bs) a' := by
            intro a' ha'
            apply hasItem_dropWhile
            intro bounds' hw'
            rcases mem_cons.mp ha' with rfl | ha'
            · rw [hw] at hw'
              obtain rfl := some.inj hw'
              exact le_rfl
            · exact hfirst a' ha' _ _ hw hw'
          have hhead := hasItem_head hsub hw fun b' hb' => by
            have := head?_dropWhile_not (fun b => decide (b < start)) (b :: bs)
            rw [mem_def.mp hb'] at this
            simpa using this
          have hdone : meetLoop w as ((b :: bs).dropWhile (· < start)) = as.filter (hasItem w (b :: bs)) := by
            rw [ih hsub hrest]
            exact filter_congr fun a' ha' => hskip a' (by simp [ha'])
          rw [hdone, ← hhead, hskip a (by simp), filter_cons]

end Filter

/-! The windows. -/

section Windows

variable {size : ℤ}

/-- The window that a `meet` means, for positions of the corpus. -/
def InMeetWindow : MeetContext Cqi.StrucAttribute → ℤ → ℤ → Prop
  | .word lw rw, a, b => a + lw ≤ b ∧ b ≤ a + rw
  | .structure struc, a, b => ∃ r ∈ struc.regions, (r.1 ≤ a ∧ a ≤ r.2) ∧ r.1 ≤ b ∧ b ≤ r.2

instance : ∀ (context : MeetContext Cqi.StrucAttribute) (a b : ℤ), Decidable (InMeetWindow context a b)
  | .word lw rw, a, b => inferInstanceAs (Decidable (a + lw ≤ b ∧ b ≤ a + rw))
  | .structure struc, a, b =>
    inferInstanceAs (Decidable (∃ r ∈ struc.regions, (r.1 ≤ a ∧ a ≤ r.2) ∧ r.1 ≤ b ∧ b ≤ r.2))

/-- Offsets are `int`, and the regions of an attribute are sorted. -/
def ValidContext : MeetContext Cqi.StrucAttribute → Prop
  | .word lw rw => IsInt lw ∧ IsInt rw
  | .structure struc => struc.strucData = true ∧ Cqi.SortedRegions struc.regions

/-- No cell with an item in its window has that window reach out of the corpus to the left, by an
offset that is not larger than the corpus. -/
def NothingLost (size : ℤ) (list1 list2 : List ℤ) : MeetContext Cqi.StrucAttribute → Prop
  | .word lw rw => ∀ a ∈ list1, a + lw < 0 → 0 ≤ size + lw → ∀ b ∈ list2, a + rw < b
  | .structure _ => True

/-- The window that `meet_mu` computes. -/
def computedWindow (size : ℤ) : MeetContext Cqi.StrucAttribute → ℤ → Option (ℤ × ℤ)
  | .word lw rw, a =>
    if clCposOffset a lw size (lw ≤ 0) < 0 ∨ clCposOffset a rw size (rw ≥ 0) < 0 then none
    else some (clCposOffset a lw size (lw ≤ 0), clCposOffset a rw size (rw ≥ 0))
  | .structure struc, a => struc.regions.find? fun r => r.1 ≤ a ∧ a ≤ r.2

theorem find?_region {regions : List (ℤ × ℤ)} (h : Cqi.SortedRegions regions) {r : ℤ × ℤ} :
    (regions.find? fun r => r.1 ≤ a ∧ a ≤ r.2) = some r ↔ r ∈ regions ∧ r.1 ≤ a ∧ a ≤ r.2 := by
  refine ⟨fun hr => ⟨mem_of_find?_eq_some hr, by simpa using find?_some hr⟩, fun ⟨hmem, hin⟩ => ?_⟩
  cases hfind : regions.find? fun r => decide (r.1 ≤ a ∧ a ≤ r.2) with
  | none =>
    have := find?_eq_none.mp hfind r hmem
    simp [hin] at this
  | some r' =>
    have hmem' := mem_of_find?_eq_some hfind
    have hin' : r'.1 ≤ a ∧ a ≤ r'.2 := by simpa using find?_some hfind
    rw [h.intervals.unique hmem' hmem hin' hin]

/-- The region that is looked up for a cell. -/
theorem clCpos2struc2cpos_eq {struc : Cqi.StrucAttribute} (hdata : struc.strucData = true)
    (h : Cqi.SortedRegions struc.regions) (ha : Cqi.Fits a) :
    Cqi.clCpos2struc2cpos (.struc struc) a =
      match struc.regions.find? fun r => r.1 ≤ a ∧ a ≤ r.2 with
      | some r => (some r, .ok)
      | none => (none, .estruc) := by
  have hmark := Cqi.getPreviousMark_eq_some_iff h (BitVec.ofInt 32 a)
  rw [ha.toInt] at hmark
  cases hfind : struc.regions.find? fun r => decide (r.1 ≤ a ∧ a ≤ r.2) with
  | some r =>
    obtain ⟨hmem, hin⟩ := (find?_region h).mp hfind
    obtain ⟨k, hk, hget⟩ := mem_iff_getElem.mp hmem
    have hget' : struc.regions[(k : ℤ).toNat]? = some r := by rw [Int.toNat_natCast, getElem?_eq_getElem hk, hget]
    exact Cqi.clCpos2struc2cpos_of_some hdata ((hmark k).mpr ⟨by omega, r, hget', hin⟩)
      ((Cqi.clStruc2cpos_eq_iff hdata k r).mpr ⟨by omega, hget'⟩)
  | none =>
    apply Cqi.clCpos2struc2cpos_of_none hdata
    rw [eq_none_iff_forall_ne_some]
    intro k hk
    obtain ⟨-, r, hget, hin⟩ := (hmark k).mp hk
    have := find?_eq_none.mp hfind r (mem_of_getElem? hget)
    simp [hin] at this

theorem meetMuWindow_eq (hcontext : ValidContext context) (hsize : size < 2 ^ 31)
    (ha : InCorpus size a) : meetMuWindow size context a = some (computedWindow size context a) := by
  cases context with
  | word lw rw =>
    rw [meetMuWindow, clCposOffsetInt_eq hsize ha hcontext.1, clCposOffsetInt_eq hsize ha hcontext.2]
    rfl
  | «structure» struc =>
    rw [meetMuWindow, clCpos2struc2cpos_eq hcontext.1 hcontext.2 ⟨ha.1, ha.2.trans hsize⟩, computedWindow]
    cases struc.regions.find? fun r => decide (r.1 ≤ a ∧ a ≤ r.2) with
    | none => rfl
    | some r => rfl

/-- The starts of the windows do not decrease. -/
theorem computedWindow_mono (hcontext : ValidContext context) {a' : ℤ}
    (hlt : a < a') (ha : InCorpus size a) (ha' : InCorpus size a') {bounds bounds' : ℤ × ℤ}
    (h : computedWindow size context a = some bounds) (h' : computedWindow size context a' = some bounds') :
    bounds.1 ≤ bounds'.1 := by
  cases context with
  | word lw rw =>
    simp only [computedWindow] at h h'
    split_ifs at h h' with hno hno'
    obtain rfl := some.inj h
    obtain rfl := some.inj h'
    obtain ⟨h0, hsize⟩ := ha
    obtain ⟨h0', hsize'⟩ := ha'
    simp only [clCposOffset, cdaEposorng, decide_eq_true_eq] at hno hno' ⊢
    split_ifs at hno hno' ⊢ <;> omega
  | «structure» struc =>
    obtain ⟨hmem, hin⟩ := (find?_region hcontext.2).mp h
    obtain ⟨hmem', hin'⟩ := (find?_region hcontext.2).mp h'
    -- a region that starts before would contain the cell as well
    by_contra hgt
    have := (find?_region hcontext.2).mpr ⟨hmem', show bounds'.1 ≤ a by omega, by omega⟩
    rw [computedWindow] at h
    rw [this, some.injEq] at h
    rw [h] at hgt
    omega

/-- The numeric window is right unless it reaches out of the corpus to the left. -/
theorem hasItem_word {lw rw : ℤ} (hbs : ∀ b ∈ bs, InCorpus size b) (ha : InCorpus size a) :
    hasItem (computedWindow size (.word lw rw)) bs a = true ↔
      ¬(a + lw < 0 ∧ 0 ≤ size + lw) ∧ ∃ b ∈ bs, a + lw ≤ b ∧ b ≤ a + rw := by
  obtain ⟨h0, hlt⟩ := ha
  have hwindow : ∀ b, InCorpus size b →
      ((∃ bounds, computedWindow size (.word lw rw) a = some bounds ∧ bounds.1 ≤ b ∧ b ≤ bounds.2) ↔
        ¬(a + lw < 0 ∧ 0 ≤ size + lw) ∧ a + lw ≤ b ∧ b ≤ a + rw) := by
    rintro b ⟨hb0, hb⟩
    have hstart : ¬clCposOffset a lw size (lw ≤ 0) < 0 ∧ clCposOffset a lw size (lw ≤ 0) ≤ b ↔
        ¬(a + lw < 0 ∧ 0 ≤ size + lw) ∧ a + lw ≤ b := by
      simp only [clCposOffset, cdaEposorng, decide_eq_true_eq]
      split_ifs <;> omega
    have hstop : ¬clCposOffset a rw size (rw ≥ 0) < 0 ∧ b ≤ clCposOffset a rw size (rw ≥ 0) ↔ b ≤ a + rw := by
      simp only [clCposOffset, cdaEposorng, decide_eq_true_eq]
      split_ifs <;> omega
    rw [computedWindow]
    refine ⟨?_, fun ⟨hin, hlow, hhigh⟩ => ?_⟩
    · rintro ⟨bounds, hbounds, hlow, hhigh⟩
      split_ifs at hbounds with hno
      obtain rfl := some.inj hbounds
      rw [not_or] at hno
      obtain ⟨hin, hlow'⟩ := hstart.mp ⟨hno.1, hlow⟩
      exact ⟨hin, hlow', hstop.mp ⟨hno.2, hhigh⟩⟩
    · obtain ⟨hs, hlow'⟩ := hstart.mpr ⟨hin, hlow⟩
      obtain ⟨he, hhigh'⟩ := hstop.mpr hhigh
      rw [if_neg (not_or.mpr ⟨hs, he⟩)]
      exact ⟨_, rfl, hlow', hhigh'⟩
  rw [hasItem_eq_true_iff]
  refine ⟨fun ⟨bounds, hw, b, hb, hin⟩ => ?_, fun ⟨hno, b, hb, hin⟩ => ?_⟩
  · obtain ⟨hno, hin'⟩ := (hwindow b (hbs b hb)).mp ⟨bounds, hw, hin⟩
    exact ⟨hno, b, hb, hin'⟩
  · obtain ⟨bounds, hw, hin'⟩ := (hwindow b (hbs b hb)).mpr ⟨hno, hin⟩
    exact ⟨bounds, hw, b, hb, hin'⟩

theorem hasItem_structure {struc : Cqi.StrucAttribute} (h : Cqi.SortedRegions struc.regions) :
    hasItem (computedWindow size (.structure struc)) bs a = true ↔ ∃ b ∈ bs, InMeetWindow (.structure struc) a b := by
  rw [hasItem_eq_true_iff]
  refine ⟨fun ⟨r, hr, b, hb, hin⟩ => ?_, fun ⟨b, hb, r, hmem, hina, hinb⟩ => ⟨r, (find?_region h).mpr ⟨hmem, hina⟩, b, hb, hinb⟩⟩
  obtain ⟨hmem, hina⟩ := (find?_region h).mp hr
  exact ⟨b, hb, r, hmem, hina, hin⟩

/-- `meet_mu` reads and writes no list out of bounds and keeps, in order, the cells with an item in
their window, if nothing is lost at the start of the corpus. -/
theorem meetMu_eq_filter_iff {context : MeetContext Cqi.StrucAttribute} (hcontext : ValidContext context) (hsize : size < 2 ^ 31)
    {list1 list2 : List ℤ} (hasc1 : list1.Pairwise (· < ·)) (hasc2 : list2.Pairwise (· < ·))
    (hin1 : ∀ a ∈ list1, InCorpus size a) (hin2 : ∀ b ∈ list2, InCorpus size b) :
    ∃ out, meetMu size list1 list2 context = some out ∧
      ((out = list1.filter fun a => ∃ b ∈ list2, InMeetWindow context a b) ↔ NothingLost size list1 list2 context) := by
  have hmono : list1.Pairwise fun a a' => ∀ bounds bounds', computedWindow size context a = some bounds →
      computedWindow size context a' = some bounds' → bounds.1 ≤ bounds'.1 :=
    hasc1.imp_of_mem fun ha ha' hlt _ _ h h' => computedWindow_mono hcontext hlt (hin1 _ ha) (hin1 _ ha') h h'
  refine ⟨_, meetMu_eq fun a ha => meetMuWindow_eq hcontext hsize (hin1 a ha), ?_⟩
  rw [meetLoop_eq_filter hasc2 hmono]
  cases context with
  | «structure» struc =>
    refine ⟨fun _ => trivial, fun _ => filter_congr fun a _ => ?_⟩
    rw [Bool.eq_iff_iff, hasItem_structure hcontext.2, decide_eq_true_eq]
  | word lw rw =>
    have hcell : ∀ a ∈ list1, (hasItem (computedWindow size (.word lw rw)) list2 a =
        decide (∃ b ∈ list2, InMeetWindow (.word lw rw) a b) ↔
          (a + lw < 0 → 0 ≤ size + lw → ∀ b ∈ list2, a + rw < b)) := by
      intro a ha
      rw [Bool.eq_iff_iff, hasItem_word hin2 (hin1 a ha), decide_eq_true_eq]
      refine ⟨fun h hneg hle b hb => ?_, fun h => ⟨fun ⟨_, hb⟩ => hb, fun ⟨b, hb, hin⟩ => ⟨?_, b, hb, hin⟩⟩⟩
      · by_contra hge
        have h0 := (hin2 b hb).1
        exact (h.mpr ⟨b, hb, by omega, by omega⟩).1 ⟨hneg, hle⟩
      · rintro ⟨hneg, hle⟩
        exact absurd hin.2 (not_le.mpr (h hneg hle b hb))
    refine ⟨fun h a ha => (hcell a ha).mp ?_, fun h => filter_congr fun a ha => (hcell a ha).mpr (h a ha)⟩
    by_contra hne
    have hmem := congrArg (a ∈ ·) h
    simp only [mem_filter, ha, true_and, eq_iff_iff] at hmem
    exact hne (Bool.eq_iff_iff.mpr hmem)

/-- A window of one token to each side, away from the start of the corpus. -/
theorem meetMu_eq_filter_iff_near : meetMu 10 [3, 6, 9] [2, 5] (.word (-1) 1) = some [3, 6] := by
  have hcontext : ValidContext (.word (-1) 1) := ⟨⟨by decide, by decide⟩, by decide, by decide⟩
  obtain ⟨out, hout, hiff⟩ := meetMu_eq_filter_iff hcontext (show (10 : ℤ) < 2 ^ 31 by decide)
    (show [3, 6, 9].Pairwise (· < ·) by decide) (show [2, 5].Pairwise (· < ·) by decide) (by decide) (by decide)
  have hnothing : NothingLost 10 [3, 6, 9] [2, 5] (.word (-1) 1) := by
    unfold NothingLost
    decide
  rw [hout, hiff.mpr hnothing]
  decide

/-- The first token of the corpus has itself in its window of one token to each side. -/
theorem not_meetMu_eq_filter :
    ¬∀ (size : ℤ) (context : MeetContext Cqi.StrucAttribute) (list1 list2 : List ℤ), ValidContext context → size < 2 ^ 31 →
      list1.Pairwise (· < ·) → list2.Pairwise (· < ·) → (∀ a ∈ list1, InCorpus size a) → (∀ b ∈ list2, InCorpus size b) →
      meetMu size list1 list2 context = some (list1.filter fun a => ∃ b ∈ list2, InMeetWindow context a b) := by
  intro hall
  have h := hall 10 (.word (-1) 1) [0] [0] ⟨⟨by decide, by decide⟩, by decide, by decide⟩ (by decide) (by decide) (by decide)
    (by decide) (by decide)
  revert h
  decide

end Windows

end CWB
