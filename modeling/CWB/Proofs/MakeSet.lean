import CWB.Library.Block
import CWB.Proofs.LexiconLookup
import CWB.Spec.MakeSet

/-! Feature sets have a normal form, as long as the elements and the size of a value can be counted with an `int`. -/

namespace CWB.FeatureSets

open Nat Option List Cqi Separated

/-! ## String lists -/

/-- The strings that a list has room for. -/
def listCapacity : ℕ := 2 ^ 31 - LUMPSIZE

namespace StringList

variable (l : StringList) (val : ℕ)

theorem length_le : l.data.length ≤ listCapacity := by
  obtain ⟨k, hk⟩ := l.lumps
  have hle := l.size_le
  have hlt := l.allocated_lt
  rw [hk] at hle hlt
  simp only [listCapacity, LUMPSIZE] at *
  omega

theorem append_of_lt (h : l.data.length < listCapacity) : ∃ l', l.append val = some l' ∧ l'.data = l.data ++ [val] := by
  have hroom : l.newAlloc < 2 ^ 31 := by
    have hlt := l.allocated_lt
    rw [newAlloc_eq]
    simp only [listCapacity, LUMPSIZE] at *
    split_ifs <;> omega
  exact ⟨_, dif_pos hroom, rfl⟩

theorem append_full (h : l.data.length = listCapacity) : l.append val = none := by
  have hfull : ¬l.newAlloc < 2 ^ 31 := by
    have hle := l.size_le
    have hmore := l.size_le_newAlloc val
    obtain ⟨k, hk⟩ := l.lumps_newAlloc
    rw [length_append, length_singleton, hk] at hmore
    rw [hk]
    simp only [listCapacity, LUMPSIZE] at *
    omega
  exact dif_neg hfull

end StringList

/-! ## The copy that is cut -/

/-- The strings at `marks` end within `done`, which is the part of the buffer that is not changed any more. -/
def Cut (done : List CqiByte) (marks : List ℕ) (es : List (List CqiByte)) : Prop :=
  ∀ behind, marks.map (fun mark => (CString.ofBuffer ((done ++ behind).drop mark)).bytes) = es

theorem cut_nil (done : List CqiByte) : Cut done [] [] := fun _ => rfl

theorem Cut.append {done : List CqiByte} {marks : List ℕ} {es : List (List CqiByte)} (h : Cut done marks es) (more : List CqiByte) :
    Cut (done ++ more) marks es := by
  intro behind
  rw [append_assoc]
  exact h (more ++ behind)

theorem ofBuffer_terminated {cur : List CqiByte} (hcur : 0 ∉ cur) (behind : List CqiByte) :
    (CString.ofBuffer (cur ++ 0 :: behind)).bytes = cur := by
  simp only [CString.ofBuffer]
  rw [takeWhile_append_of_pos, takeWhile_cons_of_neg (by simp), append_nil]
  intro c hc
  have hne : c ≠ 0 := fun h0 => hcur (h0 ▸ hc)
  simpa using hne

theorem Cut.snoc {done cur : List CqiByte} {marks : List ℕ} {es : List (List CqiByte)} (h : Cut done marks es) (hcur : 0 ∉ cur) :
    Cut (done ++ cur ++ [0]) (marks ++ [done.length]) (es ++ [cur]) := by
  intro behind
  have hold := (h.append cur).append [0] behind
  rw [map_append, hold, map_singleton, append_assoc, append_assoc, drop_left, singleton_append,
    ofBuffer_terminated hcur]

theorem Cut.elements {t : Tokens} {done behind : List CqiByte} {es : List (List CqiByte)} (h : Cut done t.l.data es)
    (hcopy : t.copy = done ++ behind) : t.elements.map CString.bytes = es := by
  rw [Tokens.elements, List.map_map, hcopy]
  exact h behind

theorem charAt_append (done : List CqiByte) (c : CqiByte) (rest : List CqiByte) : charAt (done ++ c :: rest) done.length = c := by
  simp [charAt]

theorem charAt_ne_zero {done rest : List CqiByte} {c : CqiByte} (h : 0 ∉ c :: rest) :
    charAt (done ++ c :: rest ++ [0]) done.length ≠ 0 := by
  rw [append_assoc, cons_append, charAt_append]
  exact Ne.symm (ne_of_not_mem_cons h)

theorem tokenLoop_end {round : Tokens → Option Tokens} {rounds : ℕ} {t : Tokens} (h : charAt t.copy t.p = 0) :
    tokenLoop round (rounds + 1) t = some t := by
  rw [tokenLoop, if_neg (not_not.mpr h)]

theorem tokenLoop_succ {round : Tokens → Option Tokens} {rounds : ℕ} {t : Tokens} (h : charAt t.copy t.p ≠ 0) :
    tokenLoop round (rounds + 1) t = (round t).bind (tokenLoop round rounds) := by
  rw [tokenLoop, if_pos h]

/-- What a loop has found: it ends, unless there is no room for all strings. -/
structure Finds (result : Option Tokens) (l : StringList) (es found : List (List CqiByte)) (final : Tokens → Prop) : Prop where
  ends : l.data.length + found.length ≤ listCapacity →
    ∃ t, result = some t ∧ t.elements.map CString.bytes = es ++ found ∧ final t
  full : listCapacity < l.data.length + found.length → result = none

/-- One more string, and then the rest. -/
theorem Finds.cons {rest : StringList → Option Tokens} {l : StringList} {mark : ℕ} {es found : List (List CqiByte)}
    {e : List CqiByte} {final : Tokens → Prop}
    (h : ∀ l', l'.data = l.data ++ [mark] → Finds (rest l') l' (es ++ [e]) found final) :
    Finds ((l.append mark).bind rest) l es (e :: found) final := by
  obtain hlt | hfull := lt_or_eq_of_le l.length_le
  · obtain ⟨l', happend, hdata⟩ := l.append_of_lt mark hlt
    obtain ⟨hends, hnone⟩ := h l' hdata
    have hlength : l'.data.length + found.length = l.data.length + (e :: found).length := by
      rw [hdata, length_append, length_singleton, length_cons, Nat.add_assoc, Nat.add_comm 1]
    rw [hlength] at hends hnone
    rw [happend, bind_some]
    refine ⟨fun hroom => ?_, hnone⟩
    obtain ⟨t, ht, helements, hfinal⟩ := hends hroom
    exact ⟨t, ht, by rw [helements, append_assoc, singleton_append], hfinal⟩
  · rw [l.append_full mark hfull, bind_none]
    refine ⟨fun hroom => ?_, fun _ => rfl⟩
    rw [hfull, length_cons] at hroom
    omega

/-! ## The delimited syntax -/

theorem not_mem_snoc {x c : CqiByte} {cur : List CqiByte} (h : x ∉ cur) (hne : x ≠ c) : x ∉ cur ++ [c] := by
  rw [mem_append, mem_singleton, not_or]
  exact ⟨h, hne⟩

/-- The current element is `cur` so far, and `rest` lies ahead. -/
theorem barLoop_finds {rest done cur : List CqiByte} {es : List (List CqiByte)} {l : StringList} {rounds : ℕ}
    (hrounds : rest.length < rounds) (hcut : Cut done l.data es) (hcur : 0 ∉ cur) (hrest : 0 ∉ rest) (hbar : bar ∉ cur) :
    Finds (tokenLoop barRound rounds { copy := done ++ cur ++ rest ++ [0], p := (done ++ cur).length, mark := done.length, l })
      l es ((cur ++ rest).splitOn bar).dropLast
      (fun t => t.p = t.mark ↔ ((cur ++ rest).splitOn bar).getLast? = some []) := by
  obtain ⟨rounds, rfl⟩ := exists_eq_add_one_of_ne_zero (Nat.ne_zero_of_lt hrounds)
  induction rest generalizing done cur es l rounds with
  | nil =>
    rw [append_nil, append_nil, splitOn_eq_singleton hbar, tokenLoop_end (charAt_append _ _ _)]
    refine ⟨fun _ => ⟨_, rfl, ?_, ?_⟩, fun hfull => absurd l.length_le (not_le.mpr hfull)⟩
    · rw [hcut.elements (append_assoc _ _ _), dropLast_singleton, append_nil]
    · simp
  | cons c rest ih =>
    obtain ⟨rounds, rfl⟩ := exists_eq_add_one_of_ne_zero (Nat.ne_zero_of_lt (lt_of_succ_lt_succ hrounds))
    have hc := Ne.symm (ne_of_not_mem_cons hrest)
    have hrest' := not_mem_of_not_mem_cons hrest
    have hat : charAt (done ++ cur ++ c :: rest ++ [0]) (done ++ cur).length = c := by
      rw [append_assoc _ (c :: rest), cons_append, charAt_append]
    rw [tokenLoop_succ (by rw [hat]; exact hc), barRound]
    simp only [hat]
    split_ifs with heq
    · -- the element ends
      subst heq
      have hset : (done ++ cur ++ bar :: rest ++ [0]).set (done ++ cur).length 0 = done ++ cur ++ [0] ++ rest ++ [0] := by
        rw [append_assoc _ (bar :: rest), cons_append, set_append_right _ _ le_rfl, Nat.sub_self, set_cons_zero]
        simp
      rw [splitOn_append_cons_self, splitOn_eq_singleton hbar, singleton_append,
        dropLast_cons_of_ne_nil (splitOn_ne_nil _ _), bind_eq_bind, bind_assoc]
      apply Finds.cons
      intro l' hdata
      have hnext := @ih (done ++ cur ++ [0]) [] (es ++ [cur]) l' (hdata ▸ hcut.snoc hcur) not_mem_nil hrest'
        not_mem_nil rounds (lt_of_succ_lt_succ hrounds)
      have hmark : (done ++ cur ++ [0]).length = (done ++ cur).length + 1 := by
        rw [length_append, length_singleton]
      have hlast : (cur :: rest.splitOn bar).getLast? = (rest.splitOn bar).getLast? := by
        obtain ⟨e, es, he⟩ := exists_cons_of_ne_nil (splitOn_ne_nil bar rest)
        rw [he, getLast?_cons_cons]
      rw [bind_some, hset, hlast]
      rwa [append_nil (done ++ cur ++ [0]), hmark, nil_append] at hnext
    · -- it goes on
      have hnext := @ih done (cur ++ [c]) es l hcut
        (not_mem_snoc hcur (Ne.symm hc)) hrest' (not_mem_snoc hbar (Ne.symm heq)) rounds (lt_of_succ_lt_succ hrounds)
      have hp : (done ++ (cur ++ [c])).length = (done ++ cur).length + 1 := by
        rw [← append_assoc, length_append, length_singleton]
      rw [hp, append_assoc cur, singleton_append] at hnext
      simpa using hnext

/-! ## Words -/

theorem skipWhile_eq {go : CqiByte → Bool} {run behind : List CqiByte} (done : List CqiByte) (hrun : ∀ c ∈ run, go c = true)
    (hstop : ∀ c ∈ behind.head?, go c = false) : skipWhile go (done ++ run ++ behind) done.length = (done ++ run).length := by
  rw [skipWhile, append_assoc, drop_left, takeWhile_append_of_pos hrun, length_append, length_append]
  cases behind with
  | nil => simp
  | cons c behind => rw [takeWhile_cons_of_neg (by simpa using hstop c rfl), length_nil, Nat.add_zero]

section Round

variable {done blanks v rest : List CqiByte} {l : StringList} {mark : ℕ}

/-- What the two inner loops do: they stop before and behind the next word. -/
theorem skip_word (done rest : List CqiByte) (hblanks : ∀ c ∈ blanks, isBlank c = true) (hv : ∀ c ∈ v, isBlank c = false) (hv0 : 0 ∉ v)
    (hempty : v = [] → rest = []) (hrest : ∀ c ∈ rest.head?, isBlank c = true) :
    skipWhile isBlank (done ++ (blanks ++ v ++ rest) ++ [0]) done.length = (done ++ blanks).length ∧
      skipWhile (fun c => c ≠ 0 && !isBlank c) (done ++ (blanks ++ v ++ rest) ++ [0]) (done ++ blanks).length =
        (done ++ blanks ++ v).length := by
  have hzero : isBlank 0 = false := by decide
  constructor
  · rw [show done ++ (blanks ++ v ++ rest) ++ [0] = done ++ blanks ++ (v ++ rest ++ [0]) by simp]
    apply skipWhile_eq done hblanks
    intro c hc
    cases v with
    | nil =>
      rw [hempty rfl] at hc
      cases hc
      exact hzero
    | cons c v =>
      cases hc
      exact hv _ (by simp)
  · rw [show done ++ (blanks ++ v ++ rest) ++ [0] = done ++ blanks ++ v ++ (rest ++ [0]) by simp]
    apply skipWhile_eq (done ++ blanks)
    · intro c hc
      have hne : c ≠ 0 := fun h0 => hv0 (h0 ▸ hc)
      rw [hv c hc]
      simpa using hne
    · intro c hc
      cases rest with
      | nil =>
        cases hc
        rfl
      | cons b rest =>
        cases hc
        rw [hrest _ rfl]
        exact Bool.and_false _

theorem splitRound_end (hblanks : ∀ c ∈ blanks, isBlank c = true) :
    splitRound { copy := done ++ blanks ++ [0], p := done.length, mark, l } =
      some { copy := done ++ blanks ++ [0], p := (done ++ blanks).length, mark := (done ++ blanks).length, l } := by
  obtain ⟨hmark, hp⟩ := skip_word done [] (v := []) hblanks (by simp) (by simp) (fun _ => rfl) (by simp)
  simp only [append_nil] at hmark hp
  have hat : charAt (done ++ blanks ++ [0]) (done ++ blanks).length = 0 := charAt_append _ _ _
  rw [splitRound]
  simp only [hmark, hp, hat, ne_eq, not_true_eq_false, if_false, bind_eq_bind, bind_some]

theorem splitRound_last (hblanks : ∀ c ∈ blanks, isBlank c = true) (hv : ∀ c ∈ v, isBlank c = false) (hv0 : 0 ∉ v) (hne : v ≠ []) :
    splitRound { copy := done ++ (blanks ++ v) ++ [0], p := done.length, mark, l } =
      (l.append (done ++ blanks).length).bind fun l =>
        some { copy := done ++ blanks ++ v ++ [0], p := (done ++ blanks ++ v).length, mark := (done ++ blanks).length, l } := by
  obtain ⟨hmark, hp⟩ := skip_word done [] hblanks hv hv0 (fun _ => rfl) (by simp)
  rw [append_nil, ← append_assoc] at hmark hp
  have hat : charAt (done ++ blanks ++ v ++ [0]) (done ++ blanks ++ v).length = 0 := charAt_append _ _ _
  have hlength : (done ++ blanks ++ v).length ≠ (done ++ blanks).length := by
    have hpos := length_pos_iff.mpr hne
    simp only [length_append]
    omega
  rw [splitRound, ← append_assoc]
  simp only [hmark, hp, hat, hlength, ne_eq, not_true_eq_false, not_false_eq_true, if_false, if_true, bind_eq_bind]

theorem splitRound_blank {b : CqiByte} (hblanks : ∀ c ∈ blanks, isBlank c = true) (hv : ∀ c ∈ v, isBlank c = false)
    (hv0 : 0 ∉ v) (hne : v ≠ []) (hb : isBlank b = true) :
    splitRound { copy := done ++ (blanks ++ v ++ b :: rest) ++ [0], p := done.length, mark, l } =
      (l.append (done ++ blanks).length).bind fun l =>
        some { copy := done ++ blanks ++ v ++ [0] ++ rest ++ [0], p := (done ++ blanks ++ v ++ [0]).length,
               mark := (done ++ blanks).length, l } := by
  obtain ⟨hmark, hp⟩ := skip_word done (b :: rest) hblanks hv hv0 (fun h => absurd h hne) (by simpa using hb)
  have hcopy : done ++ (blanks ++ v ++ b :: rest) ++ [0] = done ++ blanks ++ v ++ b :: (rest ++ [0]) := by simp
  rw [hcopy] at hmark hp
  have hat : charAt (done ++ blanks ++ v ++ b :: (rest ++ [0])) (done ++ blanks ++ v).length ≠ 0 := by
    rw [charAt_append]
    rintro rfl
    exact absurd hb (by decide)
  have hset : (done ++ blanks ++ v ++ b :: (rest ++ [0])).set (done ++ blanks ++ v).length 0 =
      done ++ blanks ++ v ++ [0] ++ rest ++ [0] := by
    rw [set_append_right _ _ le_rfl, Nat.sub_self, set_cons_zero]
    simp
  have hlength : (done ++ blanks ++ v).length + 1 ≠ (done ++ blanks).length := by
    simp only [length_append]
    omega
  have hnext : (done ++ blanks ++ v ++ [0]).length = (done ++ blanks ++ v).length + 1 := by
    rw [length_append, length_singleton]
  rw [splitRound, hcopy, hnext]
  simp only [hmark, hp, hat, hset, hlength, ne_eq, not_false_eq_true, if_true, bind_eq_bind]

end Round

/-- The loop ends at the end of the string. -/
theorem finds_end {done behind : List CqiByte} {es : List (List CqiByte)} {t : Tokens} (rounds : ℕ) (hat : charAt t.copy t.p = 0)
    (hcut : Cut done t.l.data es) (hcopy : t.copy = done ++ behind) :
    Finds (tokenLoop splitRound (rounds + 1) t) t.l es [] (fun _ => True) := by
  rw [tokenLoop_end hat]
  refine ⟨fun _ => ⟨t, rfl, ?_, trivial⟩, fun hfull => absurd t.l.length_le (not_le.mpr hfull)⟩
  rw [hcut.elements hcopy, append_nil]

theorem splitLoop_finds {rest done : List CqiByte} {es : List (List CqiByte)} {l : StringList} {rounds mark : ℕ}
    (hrounds : rest.length < rounds) (hcut : Cut done l.data es) (hrest : 0 ∉ rest) :
    Finds (tokenLoop splitRound rounds { copy := done ++ rest ++ [0], p := done.length, mark, l }) l es (words isBlank rest)
      (fun _ => True) := by
  obtain ⟨rounds, rfl⟩ := exists_eq_add_one_of_ne_zero (Nat.ne_zero_of_lt hrounds)
  induction rounds generalizing rest done es l mark with
  | zero =>
    obtain rfl := length_eq_zero_iff.mp (lt_one_iff.mp hrounds)
    rw [append_nil]
    exact finds_end (t := { copy := done ++ [0], p := done.length, mark, l }) 0 (charAt_append _ _ _) hcut rfl
  | succ rounds ih =>
    obtain rfl | hsome := eq_or_ne rest []
    · rw [append_nil]
      exact finds_end (t := { copy := done ++ [0], p := done.length, mark, l }) _ (charAt_append _ _ _) hcut rfl
    have hat : charAt (done ++ rest ++ [0]) done.length ≠ 0 := by
      obtain ⟨c, rest, rfl⟩ := exists_cons_of_ne_nil hsome
      exact charAt_ne_zero hrest
    rw [tokenLoop_succ hat]
    clear hat hsome
    obtain ⟨blanks, v, behind, rfl, hblanks, hv, hempty, hbehind⟩ := exists_word isBlank rest
    have hv0 : 0 ∉ v := fun h0 => hrest (mem_append_left _ (mem_append_right _ h0))
    have hwords : words isBlank (blanks ++ v ++ behind) = words isBlank (v ++ behind) := by
      rw [append_assoc, words_blanks_append hblanks]
    rw [hwords]
    by_cases hne : v = []
    · -- blanks at the end
      obtain rfl := hne
      obtain rfl := hempty rfl
      rw [append_nil, append_nil, append_nil, splitRound_end hblanks, bind_some]
      exact finds_end (t := { copy := done ++ blanks ++ [0], p := _, mark := _, l }) rounds (charAt_append _ _ _) hcut
        (append_assoc _ _ _)
    cases behind with
    | nil =>
      rw [append_nil, append_nil, words_word hv hne, splitRound_last hblanks hv hv0 hne, bind_assoc]
      apply Finds.cons
      intro l' hdata
      exact finds_end (t := { copy := done ++ blanks ++ v ++ [0], p := _, mark := _, l := l' }) rounds (charAt_append _ _ _)
        (hdata ▸ (hcut.append blanks).snoc hv0) (append_nil _).symm
    | cons b rest =>
      have hb := hbehind b rfl
      rw [words_word_append hv hne hb, splitRound_blank hblanks hv hv0 hne hb, bind_assoc]
      apply Finds.cons
      intro l' hdata
      rw [bind_some]
      refine ih (hdata ▸ (hcut.append blanks).snoc hv0) (fun h0 => hrest (mem_append_right _ (mem_cons_of_mem _ h0))) ?_
      simp only [length_append, length_cons] at hrounds
      omega

/-! ## The elements of the input -/

theorem mem_inputElements {s : CString} {e : List CqiByte} (he : e ∈ inputElements s false) : bar ∉ e := by
  simp only [inputElements, Bool.false_eq_true, if_false] at he
  split_ifs at he
  · exact not_mem_of_mem_splitOn (mem_of_mem_dropLast he)
  · cases he

theorem all_noBar_iff (l : List CString) : (l.all fun e => !e.bytes.contains bar) = true ↔ ∀ e ∈ l.map CString.bytes, bar ∉ e := by
  simp

/-- What step (1) and the check in step (2) tell of an input, if there is room for its elements. -/
structure Splits (s : CString) (split : Bool) : Prop where
  ends : (inputElements s split).length ≤ listCapacity → ∃ ok l, splitElements s split = some (ok, l) ∧
    l.map CString.bytes = inputElements s split ∧ (ok && l.all fun e => !e.bytes.contains bar) = decide (Valid s split)
  full : listCapacity < (inputElements s split).length → splitElements s split = none

theorem splits_of_finds {s : CString} {split : Bool} {result : Option Tokens} {final : Tokens → Prop} (ok : Tokens → Bool)
    (h : Finds result clNewStringList [] (inputElements s split) final)
    (hrun : splitElements s split = result.map fun t => (ok t, t.elements))
    (hok : ∀ t, final t → ((ok t = true ∧ ∀ e ∈ inputElements s split, bar ∉ e) ↔ Valid s split)) : Splits s split := by
  obtain ⟨hends, hfull⟩ := h
  rw [show clNewStringList.data = [] from rfl, length_nil, Nat.zero_add] at hends hfull
  rw [nil_append] at hends
  refine ⟨fun hroom => ?_, fun hroom => ?_⟩
  · obtain ⟨t, ht, helements, hfinal⟩ := hends hroom
    refine ⟨ok t, t.elements, ?_, helements, ?_⟩
    · rw [hrun, ht, map_some]
    · rw [Bool.eq_iff_iff, Bool.and_eq_true, all_noBar_iff, helements, decide_eq_true_iff]
      exact hok t hfinal
  · rw [hrun, hfull hroom, map_none]

theorem splits_words (s : CString) : Splits s true := by
  have hrounds : s.bytes.length < (s.bytes ++ [0]).length := by
    rw [length_append, length_singleton]
    omega
  have hfinds := @splitLoop_finds s.bytes [] [] clNewStringList _ 0 hrounds (cut_nil _) s.noNull
  exact splits_of_finds (fun _ => true) hfinds rfl fun t _ => and_iff_right rfl

theorem splits_bars (s : CString) : Splits s false := by
  by_cases hhead : s.bytes.head? = some bar
  · obtain ⟨w, hw⟩ := head?_eq_some_iff.mp hhead
    have hw0 : 0 ∉ w := fun h0 => s.noNull (hw ▸ mem_cons_of_mem _ h0)
    have helements : inputElements s false = (w.splitOn bar).dropLast := by
      rw [inputElements, if_neg Bool.false_ne_true, if_pos hhead, hw, tail_cons]
    have hrounds : w.length < (s.bytes ++ [0]).length := by
      rw [hw, length_append, length_cons]
      omega
    have hfinds := @barLoop_finds w [bar] [] [] clNewStringList _ hrounds (cut_nil _) not_mem_nil hw0 not_mem_nil
    rw [nil_append, ← helements] at hfinds
    refine splits_of_finds (fun t => decide (t.p = t.mark)) hfinds ?_ ?_
    · have hat : charAt (s.bytes ++ [0]) 0 = bar := by
        rw [hw]
        rfl
      rw [splitElements, if_neg Bool.false_ne_true]
      simp only
      rw [if_pos hat, hw]
      rfl
    · intro t ht
      rw [decide_eq_true_iff, ht, getLast?_splitOn_eq_nil_iff, and_iff_left fun e he => mem_inputElements he, Valid,
        if_neg Bool.false_ne_true, and_iff_right hhead, hw]
      cases w with
      | nil => simp
      | cons c w => rw [getLast?_cons_cons, or_iff_right (cons_ne_nil c w)]
  · have hat : charAt (s.bytes ++ [0]) 0 ≠ bar := by
      intro hat
      cases hbytes : s.bytes with
      | nil =>
        rw [hbytes] at hat
        exact absurd hat (by decide)
      | cons c w =>
        rw [hbytes] at hat hhead
        exact hhead (congrArg some hat)
    have helements : inputElements s false = [] := by
      rw [inputElements, if_neg Bool.false_ne_true, if_neg hhead]
    have hrun : splitElements s false = some (false, []) := by
      rw [splitElements, if_neg Bool.false_ne_true]
      simp only
      rw [if_neg hat]
    refine ⟨fun _ => ⟨false, [], hrun, helements.symm, ?_⟩, fun hroom => ?_⟩
    · rw [Bool.false_and, Bool.eq_iff_iff, decide_eq_true_iff, Valid, if_neg Bool.false_ne_true]
      exact iff_of_false Bool.false_ne_true fun h => hhead h.1
    · rw [helements] at hroom
      exact absurd hroom (Nat.not_lt_zero _)

theorem splits (s : CString) (split : Bool) : Splits s split := by
  cases split with
  | false => exact splits_bars s
  | true => exact splits_words s

/-! ## The value -/

theorem length_closed (l : List (List CqiByte)) : (closed bar l).length = (l.map fun e => e.length + 1).sum := by
  rw [closed, length_flatMap]
  congr 1
  simp

theorem setLength_eq (l : List CString) : setLength l = BitVec.ofNat 32 ((setText (l.map CString.bytes)).length + 1) := by
  have hfold : ∀ (l : List CString) (n : ℕ), l.foldl (fun sl e => sl + BitVec.ofNat 32 (e.bytes.length + 1)) (BitVec.ofNat 32 n) =
      BitVec.ofNat 32 (n + (closed bar (l.map CString.bytes)).length) := by
    intro l
    induction l with
    | nil => exact fun _ => rfl
    | cons e l ih =>
      intro n
      rw [foldl_cons, ← BitVec.ofNat_add, ih, map_cons, closed_cons, length_append, length_cons]
      congr 1
      omega
  refine (hfold l 2).trans ?_
  rw [setText, length_cons]
  congr 1
  omega

theorem putChar_of_lt {b : SetBuffer} (c : CqiByte) (h : b.written.length < b.allocated) :
    ∃ b', b.putChar c = some b' ∧ b'.allocated = b.allocated ∧ b'.written = b.written ++ [c] :=
  ⟨_, dif_pos h, rfl, rfl⟩

theorem putChar_some {b b' : SetBuffer} {c : CqiByte} (h : b.putChar c = some b') :
    b'.allocated = b.allocated ∧ b'.written = b.written ++ [c] := by
  rw [SetBuffer.putChar] at h
  split_ifs at h
  obtain rfl := some.inj h
  exact ⟨rfl, rfl⟩

theorem putElement_eq {b : SetBuffer} {e : CString} (h : b.written.length + (e.bytes.length + 1) ≤ b.allocated) :
    ∃ b', b.putElement e = some b' ∧ b'.allocated = b.allocated ∧ b'.written = b.written ++ (e.bytes ++ [bar]) := by
  have hroom : b.written.length + e.bytes.length + 1 ≤ b.allocated := by omega
  obtain ⟨b', hput, halloc, hwritten⟩ := putChar_of_lt (b := { b with written := b.written ++ e.bytes, within := _ }) bar
    (by rwa [length_append])
  refine ⟨b', ?_, halloc, by rw [hwritten, append_assoc]⟩
  rw [SetBuffer.putElement, SetBuffer.strcpy, dif_pos hroom, bind_some]
  exact hput

theorem putElement_none {b : SetBuffer} {e : CString} (h : b.allocated < b.written.length + (e.bytes.length + 1)) :
    b.putElement e = none := by
  rw [SetBuffer.putElement, SetBuffer.strcpy, dif_neg (by omega), bind_none]

theorem foldlM_putElement (l : List CString) (b : SetBuffer) :
    (b.written.length + (closed bar (l.map CString.bytes)).length ≤ b.allocated → ∃ b',
      l.foldlM SetBuffer.putElement b = some b' ∧ b'.allocated = b.allocated ∧
        b'.written = b.written ++ closed bar (l.map CString.bytes)) ∧
    (b.allocated < b.written.length + (closed bar (l.map CString.bytes)).length → l.foldlM SetBuffer.putElement b = none) := by
  induction l generalizing b with
  | nil => exact ⟨fun _ => ⟨b, rfl, rfl, (append_nil _).symm⟩, fun h => absurd b.within (not_le.mpr h)⟩
  | cons e l ih =>
    rw [map_cons, closed_cons, length_append, length_cons, foldlM_cons]
    by_cases hroom : b.written.length + (e.bytes.length + 1) ≤ b.allocated
    · obtain ⟨b', hput, halloc, hwritten⟩ := putElement_eq hroom
      obtain ⟨hsome, hnone⟩ := ih b'
      rw [halloc, hwritten, length_append, length_append, length_singleton] at hsome hnone
      rw [hput, bind_eq_bind, bind_some]
      refine ⟨fun h => ?_, fun h => hnone (by omega)⟩
      obtain ⟨b'', hrest, halloc', hwritten'⟩ := hsome (by omega)
      exact ⟨b'', hrest, halloc', by rw [hwritten']; simp⟩
    · rw [putElement_none (not_le.mp hroom), bind_eq_bind, bind_none]
      exact ⟨fun h => by omega, fun _ => rfl⟩

/-- The elements of strings contain no terminator. -/
theorem zero_notMem_setText (l : List CString) : 0 ∉ setText (l.map CString.bytes) := by
  rw [setText, closed, mem_cons, mem_flatMap, not_or]
  refine ⟨by decide, ?_⟩
  rintro ⟨e, he, h0⟩
  obtain ⟨e, -, rfl⟩ := mem_map.mp he
  obtain h0 | h0 := mem_append.mp h0
  · exact e.noNull h0
  · exact absurd (mem_singleton.mp h0) (by decide)

theorem combineElements_some {l : List CString} {v : SetValue} (h : combineElements l = some v) :
    (v.allocated : ℤ) = (setLength l).toInt ∧ v.string.bytes = setText (l.map CString.bytes) := by
  obtain ⟨b0, hmalloc, h⟩ := bind_eq_some_iff.mp h
  obtain ⟨b1, hbar, h⟩ := bind_eq_some_iff.mp h
  obtain ⟨b2, helements, h⟩ := bind_eq_some_iff.mp h
  obtain ⟨b3, hzero, h⟩ := bind_eq_some_iff.mp h
  obtain rfl := some.inj h
  rw [clMalloc] at hmalloc
  split_ifs at hmalloc with hneg
  obtain rfl := some.inj hmalloc
  obtain ⟨halloc1, hwritten1⟩ := putChar_some hbar
  obtain ⟨hsome, hnone⟩ := foldlM_putElement l b1
  obtain ⟨b, hb, halloc2, hwritten2⟩ := hsome (not_lt.mp fun hlt => by rw [hnone hlt] at helements; cases helements)
  obtain rfl := some.inj (hb.symm.trans helements)
  obtain ⟨halloc3, hwritten3⟩ := putChar_some hzero
  constructor
  · rw [halloc3, halloc2, halloc1]
    exact Int.toNat_of_nonneg (not_lt.mp hneg)
  · rw [hwritten3, hwritten2, hwritten1]
    exact ofBuffer_terminated (zero_notMem_setText l) []

theorem combineElements_exists {l : List CString} (h : (setText (l.map CString.bytes)).length + 1 < 2 ^ 31) :
    ∃ v, combineElements l = some v ∧ v.allocated = v.string.bytes.length + 1 := by
  have hlength : (setLength l).toInt = ((setText (l.map CString.bytes)).length + 1 : ℕ) := by
    rw [setLength_eq, Block.toInt_count h]
  rw [setText, length_cons] at hlength
  obtain ⟨b0, hmalloc, halloc0, hwritten0⟩ : ∃ b0, clMalloc (setLength l) = some b0 ∧
      b0.allocated = (closed bar (l.map CString.bytes)).length + 1 + 1 ∧ b0.written = [] := by
    refine ⟨⟨(setLength l).toInt.toNat, [], Nat.zero_le _⟩, if_neg (by omega), ?_, rfl⟩
    rw [hlength]
    rfl
  obtain ⟨b1, hbar, halloc1, hwritten1⟩ := putChar_of_lt bar (show b0.written.length < b0.allocated by
    rw [hwritten0, halloc0]
    exact succ_pos _)
  obtain ⟨b2, helements, halloc2, hwritten2⟩ := (foldlM_putElement l b1).1 (by
    rw [halloc1, halloc0, hwritten1, hwritten0]
    simp only [nil_append, length_singleton]
    omega)
  obtain ⟨b3, hzero, -, -⟩ := putChar_of_lt 0 (show b2.written.length < b2.allocated by
    rw [halloc2, halloc1, halloc0, hwritten2, hwritten1, hwritten0]
    simp)
  have hrun : combineElements l = some { allocated := b3.allocated, string := CString.ofBuffer b3.written } := by
    rw [combineElements, hmalloc, bind_eq_bind, bind_some, hbar, bind_some, helements, bind_some,
      hzero, bind_some]
  refine ⟨_, hrun, ?_⟩
  obtain ⟨halloc, hstring⟩ := combineElements_some hrun
  rw [hstring, setText, length_cons, ← Nat.cast_inj (R := ℤ), halloc, hlength]

theorem clSetSize_setText {s : CString} {l : List (List CqiByte)} (hs : s.bytes = setText l) (hbar : ∀ e ∈ l, bar ∉ e)
    (hlength : l.length < 2 ^ 31) : clSetSize s = ((l.length : ℤ), Cda.ok) := by
  have hcount : ∀ (w : List CqiByte) (count : CInt), w.foldl (fun count c => if c = bar then count + 1 else count) count =
      count + BitVec.ofNat 32 (w.count bar) := by
    intro w
    induction w with
    | nil => exact fun count => (BitVec.add_zero count).symm
    | cons c w ih =>
      intro count
      rw [foldl_cons, count_cons]
      split_ifs with hc hbeq hbeq
      · rw [ih, BitVec.ofNat_add, BitVec.add_assoc, BitVec.add_comm 1]
        rfl
      · exact absurd (beq_iff_eq.mpr hc) hbeq
      · exact absurd (beq_iff_eq.mp hbeq) hc
      · exact ih count
  have hbars : (closed bar l).count bar = l.length := by
    clear hs hlength
    induction l with
    | nil => rfl
    | cons e l ih =>
      obtain ⟨he, hl⟩ := forall_mem_cons.mp hbar
      rw [closed_cons, count_append, count_cons_self, ih hl, count_eq_zero_of_not_mem he, Nat.zero_add,
        length_cons]
  have hlast : (bar :: closed bar l).getLast? = some bar := by
    rw [cons_closed]
    exact getLast?_concat
  rw [clSetSize, hs, setText]
  simp only [ne_eq, not_true_eq_false, if_false, hlast]
  rw [hcount, show (0 : CInt) = 0#32 from rfl, BitVec.zero_add, hbars, Block.toInt_count hlength]

/-! ## The normal form -/

theorem sortElements_pairwise (l : List CString) : (sortElements l).Pairwise fun e e' => clStrcmp e.bytes e'.bytes ≤ 0 :=
  clStrcmp_consistent.pairwise_mergeSort l

theorem length_setText_perm {l l' : List (List CqiByte)} (h : l.Perm l') : (setText l).length = (setText l').length := by
  rw [setText, setText, length_cons, length_cons, length_closed, length_closed, (h.map _).sum_eq]

theorem mem_of_valid {s : CString} {split : Bool} (h : Valid s split) : ∀ e ∈ inputElements s split, bar ∉ e := by
  cases split with
  | false => exact fun e he => mem_inputElements he
  | true => exact h

/-- The value of a valid input is that of its sorted elements. -/
theorem clMakeSet_valid {s : CString} {split : Bool} (hroom : (inputElements s split).length ≤ listCapacity) (hvalid : Valid s split) :
    ∃ l, l.map CString.bytes = inputElements s split ∧
      clMakeSet s split = (combineElements (sortElements l)).map fun v => (some v, .ok) := by
  obtain ⟨ok, l, hrun, helements, haccepted⟩ := (splits s split).ends hroom
  refine ⟨l, helements, ?_⟩
  rw [decide_eq_true hvalid] at haccepted
  rw [clMakeSet, hrun]
  simp only [bind_eq_bind, bind_some]
  rw [if_pos haccepted]
  cases combineElements (sortElements l) <;> rfl

theorem clMakeSet_invalid {s : CString} {split : Bool} (hroom : (inputElements s split).length ≤ listCapacity) (hvalid : ¬Valid s split) :
    clMakeSet s split = some (none, .efsetinv) := by
  obtain ⟨ok, l, hrun, -, haccepted⟩ := (splits s split).ends hroom
  rw [decide_eq_false hvalid] at haccepted
  rw [clMakeSet, hrun]
  simp only [bind_eq_bind, bind_some]
  rw [if_neg (by rw [haccepted]; exact Bool.false_ne_true)]

theorem clMakeSet_full {s : CString} {split : Bool} (hfull : listCapacity < (inputElements s split).length) :
    clMakeSet s split = none := by
  rw [clMakeSet, (splits s split).full hfull]
  rfl

/-- A value is a valid input with its own elements. -/
theorem inputElements_setText {s : CString} {l : List (List CqiByte)} (hs : s.bytes = setText l) (hbar : ∀ e ∈ l, bar ∉ e) :
    inputElements s false = l ∧ Valid s false := by
  have hhead : s.bytes.head? = some bar := by rw [hs, setText, head?_cons]
  constructor
  · rw [inputElements, if_neg Bool.false_ne_true, if_pos hhead, hs, setText, tail_cons, splitOn_closed, dropLast_concat,
      flatMap_splitOn hbar]
  · rw [Valid, if_neg Bool.false_ne_true, and_iff_right hhead, hs, setText, cons_closed]
    exact getLast?_concat

/-- An input for which all numbers fit has its normal form. -/
theorem Fits.makesNormalForm {s : CString} {split : Bool} (h : Fits s split) : MakesNormalForm s split := by
  obtain ⟨hroom, hsize⟩ := h
  rw [MakesNormalForm]
  split_ifs with hvalid
  · obtain ⟨l, hl, hrun⟩ := clMakeSet_valid hroom hvalid
    have hperm : ((sortElements l).map CString.bytes).Perm (inputElements s split) := hl ▸ (mergeSort_perm l _).map _
    have hbar : ∀ e ∈ (sortElements l).map CString.bytes, bar ∉ e := fun e he => mem_of_valid hvalid e (hperm.subset he)
    have hfits : (setText ((sortElements l).map CString.bytes)).length + 1 < 2 ^ 31 := by
      rw [length_setText_perm hperm]
      exact hsize hvalid
    obtain ⟨v, hv, hexact⟩ := combineElements_exists hfits
    obtain ⟨-, hstring⟩ := combineElements_some hv
    rw [hv, map_some] at hrun
    refine ⟨v, hrun, ⟨_, hperm, sortElements_pairwise l, hstring⟩, hexact, ?_, ?_⟩
    · -- the elements of the value are sorted already
      obtain ⟨helements, hvalid'⟩ := inputElements_setText hstring hbar
      have hroom' : (inputElements v.string false).length ≤ listCapacity := by
        rw [helements, hperm.length_eq]
        exact hroom
      obtain ⟨l', hl', hrun'⟩ := clMakeSet_valid hroom' hvalid'
      obtain rfl : l' = sortElements l := map_injective_iff.mpr CString.bytes_injective (hl'.trans helements)
      rw [hrun', sortElements, mergeSort_of_pairwise (by simpa using sortElements_pairwise l), hv, map_some]
    · rw [← hperm.length_eq]
      apply clSetSize_setText hstring hbar
      rw [hperm.length_eq]
      exact hroom.trans_lt (by decide)
  · exact clMakeSet_invalid hroom hvalid

/-- Otherwise there is no value, or the block is too small for it. -/
theorem MakesNormalForm.fits {s : CString} {split : Bool} (h : MakesNormalForm s split) : Fits s split := by
  have hroom : (inputElements s split).length ≤ listCapacity := by
    by_contra hfull
    rw [MakesNormalForm, clMakeSet_full (not_le.mp hfull)] at h
    split_ifs at h
    obtain ⟨v, hv, -⟩ := h
    cases hv
  refine ⟨hroom, fun hvalid => ?_⟩
  rw [MakesNormalForm, if_pos hvalid] at h
  obtain ⟨v, hv, hnormal⟩ := h
  obtain ⟨l, hl, hrun⟩ := clMakeSet_valid hroom hvalid
  rw [hrun] at hv
  obtain ⟨v', hcombine, heq⟩ := map_eq_some_iff.mp hv
  obtain rfl : v' = v := by simpa using heq
  obtain ⟨halloc, hstring⟩ := combineElements_some hcombine
  have hperm : ((sortElements l).map CString.bytes).Perm (inputElements s split) := hl ▸ (mergeSort_perm l _).map _
  rw [← length_setText_perm hperm]
  by_contra hlarge
  have hcut := Block.toInt_count_lt (not_lt.mp hlarge)
  rw [← setLength_eq, ← halloc, hnormal.exact, hstring] at hcut
  exact lt_irrefl _ hcut

/-- `cl_make_set` returns the normal form of every valid input, and rejects all others, exactly if there is room for the
elements in a string list and the size of the value is an `int`. -/
theorem makesNormalForm_iff (s : CString) (split : Bool) : MakesNormalForm s split ↔ Fits s split :=
  ⟨MakesNormalForm.fits, Fits.makesNormalForm⟩

/-- A word of `n` letters. -/
def letters (n : ℕ) : CString where
  bytes := replicate n 97
  noNull h := absurd (eq_of_mem_replicate h) (by decide)

theorem inputElements_letters {n : ℕ} (h : n ≠ 0) : inputElements (letters n) true = [replicate n 97] := by
  apply words_word
  · intro c hc
    rw [eq_of_mem_replicate hc]
    decide
  · exact fun hnil => h (replicate_eq_nil_iff _ |>.mp hnil)

/-- A word of 2^31 letters is a valid input in split mode, but the size of its value is negative. -/
theorem not_makesNormalForm_long : ¬∀ s split, MakesNormalForm s split := by
  intro h
  have helements := inputElements_letters (show 2 ^ 31 ≠ 0 by decide)
  have hvalid : Valid (letters (2 ^ 31)) true := by
    rw [Valid, if_pos rfl, helements]
    intro e he hbar
    rw [mem_singleton.mp he] at hbar
    exact absurd (eq_of_mem_replicate hbar) (by decide)
  have hsize := (h (letters (2 ^ 31)) true).fits.2 hvalid
  rw [helements, setText, length_cons, length_closed, map_singleton, length_replicate, sum_singleton] at hsize
  omega

end CWB.FeatureSets
