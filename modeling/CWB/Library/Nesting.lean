import Mathlib.Data.List.Basic
import Mathlib.Tactic

/-! Recording regions of a sequence of start tags, end tags and tokens by nesting level. A track
is one list of regions with at most one open region; `Levels` has a track for each level up
to a maximum, or a single track on which a new region closes the one before it. -/

namespace Nesting

open Nat Option List

structure Track where
  isOpen : Bool := false
  startPos : ℤ := 0
  rng : List (ℤ × ℤ) := []

namespace Track

/-- Close the region; an empty one is not recorded. -/
def closeThis (t : Track) (e : ℤ) : Track :=
  { t with isOpen := false, rng := if t.startPos ≤ e then t.rng ++ [(t.startPos, e)] else t.rng }

def openThis (t : Track) (line : ℤ) : Track := { t with isOpen := true, startPos := line }

def close (t : Track) (e : ℤ) : Track := if t.isOpen then t.closeThis e else t

/-- Ascending disjoint regions before position `line`, and the open region after them. -/
structure Ok (t : Track) (line : ℤ) : Prop where
  sorted : t.rng.Pairwise fun r r' => r.2 < r'.1
  inside : ∀ r ∈ t.rng, 0 ≤ r.1 ∧ r.1 ≤ r.2 ∧ r.2 < line
  opened : t.isOpen = true → 0 ≤ t.startPos ∧ t.startPos ≤ line ∧ ∀ r ∈ t.rng, r.2 < t.startPos

variable {t : Track} {line : ℤ}

theorem Ok.mono (h : t.Ok line) {line' : ℤ} (hle : line ≤ line') : t.Ok line' where
  sorted := h.sorted
  inside := fun r hr => ⟨(h.inside r hr).1, (h.inside r hr).2.1, by have := (h.inside r hr).2.2; omega⟩
  opened := fun ho => ⟨(h.opened ho).1, (h.opened ho).2.1.trans hle, (h.opened ho).2.2⟩

theorem Ok.closeThis (h : t.Ok line) (ho : t.isOpen = true) : (t.closeThis (line - 1)).Ok line := by
  obtain ⟨h0, hle, hafter⟩ := h.opened ho
  unfold Track.closeThis
  split_ifs with hne
  · refine ⟨?_, ?_, fun ho => by cases ho⟩
    · rw [pairwise_append]
      refine ⟨h.sorted, pairwise_singleton _ _, ?_⟩
      intro r hr r' hr'
      rw [mem_singleton] at hr'
      rw [hr']
      exact hafter r hr
    · intro r hr
      obtain hr | hr := mem_append.mp hr
      · exact h.inside r hr
      · rw [mem_singleton] at hr
        rw [hr]
        exact ⟨h0, hne, by omega⟩
  · exact ⟨h.sorted, h.inside, fun ho => by cases ho⟩

theorem Ok.close (h : t.Ok line) : (t.close (line - 1)).Ok line := by
  unfold Track.close
  split_ifs with ho
  · exact h.closeThis ho
  · exact h

theorem Ok.openThis (h : t.Ok line) (h0 : 0 ≤ line) : (t.openThis line).Ok line where
  sorted := h.sorted
  inside := h.inside
  opened := fun _ => ⟨h0, le_rfl, fun r hr => (h.inside r hr).2.2⟩

@[simp] theorem isOpen_closeThis (t : Track) (e : ℤ) : (t.closeThis e).isOpen = false := rfl

@[simp] theorem isOpen_openThis (t : Track) (line : ℤ) : (t.openThis line).isOpen = true := rfl

@[simp] theorem isOpen_close (t : Track) (e : ℤ) : (t.close e).isOpen = false := by
  unfold close
  split_ifs with ho
  · rfl
  · simpa using ho

@[simp] theorem close_close (t : Track) (e : ℤ) : (t.close e).close e = t.close e := by
  rw [close, if_neg (by simp)]

end Track

/-- `maxRecursion` is `none` for a flat structure with a single track. -/
structure Levels where
  maxRecursion : Option ℕ
  level : ℕ := 0
  tracks : List Track

namespace Levels

def close (n : Levels) (e : ℤ) : Levels :=
  match n.maxRecursion with
  | some m =>
    match n.level with
    | 0 => n
    | level + 1 =>
      { n with
        level := level
        tracks := if level > m then n.tracks
          else n.tracks.modify level fun t => if level > 0 then t.close e else t.closeThis e }
  | none => { n with tracks := n.tracks.modify 0 (·.close e) }

def start (n : Levels) (line : ℤ) : Levels :=
  match n.maxRecursion with
  | some m =>
    { n with
      level := n.level + 1
      tracks := if n.level > m then n.tracks
        else n.tracks.modify n.level fun t => if n.level > 0 then (t.close (line - 1)).openThis line else t.openThis line }
  | none => { n with tracks := n.tracks.modify 0 fun t => (t.close (line - 1)).openThis line }

/-- The outermost region is open. -/
def isOpen (n : Levels) : Bool := (n.tracks.head?.map Track.isOpen).getD false

/-- A track for each level, each as it should be; with levels, the open ones are those below
the current one. -/
structure Ok (n : Levels) (line : ℤ) : Prop where
  length : n.tracks.length = n.maxRecursion.getD 0 + 1
  track : ∀ t ∈ n.tracks, t.Ok line
  open_iff : ∀ m, n.maxRecursion = some m → ∀ k t, n.tracks[k]? = some t → (t.isOpen = true ↔ k < n.level)
  flat : n.maxRecursion = none → n.level = 0

variable {n : Levels} {line : ℤ}

theorem Ok.mono (h : n.Ok line) {line' : ℤ} (hle : line ≤ line') : n.Ok line' :=
  { h with track := fun t ht => (h.track t ht).mono hle }

theorem mem_modify {k : ℕ} {f : Track → Track} {ts : List Track} {t : Track} (h : t ∈ ts.modify k f) :
    t ∈ ts ∨ ∃ t', ts[k]? = some t' ∧ t = f t' := by
  obtain ⟨i, hi⟩ := mem_iff_getElem?.mp h
  rw [getElem?_modify] at hi
  obtain ⟨t', ht', rfl⟩ := map_eq_some_iff.mp hi
  by_cases hk : k = i
  · subst hk
    exact .inr ⟨t', ht', if_pos rfl⟩
  · left
    simp only [if_neg hk]
    exact mem_of_getElem? ht'

theorem Ok.close (h : n.Ok line) : (n.close (line - 1)).Ok line := by
  rcases n with ⟨maxRecursion, level, tracks⟩
  cases maxRecursion with
  | none =>
    refine ⟨by simp [Levels.close, h.length], ?_, fun m hm => (by cases hm), fun _ => h.flat rfl⟩
    intro t ht
    obtain ht | ⟨t', ht', rfl⟩ := mem_modify ht
    · exact h.track t ht
    · exact (h.track t' (mem_of_getElem? ht')).close
  | some m =>
    cases level with
    | zero => exact h
    | succ level =>
      have hopen := h.open_iff m rfl
      simp only at hopen
      by_cases hlt : level > m
      · simp only [Levels.close, if_pos hlt]
        refine ⟨h.length, h.track, fun m' hm' k t hk => ?_, fun hflat => by cases hflat⟩
        obtain ⟨hk', -⟩ := List.getElem?_eq_some_iff.mp hk
        have hlen := h.length
        simp only [getD_some] at hlen hk'
        rw [hopen k t hk]
        simp only
        omega
      · simp only [Levels.close, if_neg hlt]
        refine ⟨by rw [← h.length]; simp, ?_, ?_, fun hflat => by cases hflat⟩
        · intro t ht
          obtain ht | ⟨t', ht', rfl⟩ := mem_modify ht
          · exact h.track t ht
          · have hok := h.track t' (mem_of_getElem? ht')
            split_ifs
            · exact hok.close
            · exact hok.closeThis ((hopen level t' ht').mpr (lt_succ_self level))
        · intro m' hm' k t hk
          simp only at hk ⊢
          rw [getElem?_modify] at hk
          obtain ⟨t', ht', rfl⟩ := map_eq_some_iff.mp hk
          have hiff := hopen k t' ht'
          by_cases hkl : level = k
          · subst hkl
            simp only [if_true, lt_irrefl, iff_false, Bool.not_eq_true]
            split_ifs <;> simp
          · simp only [if_neg hkl, hiff]
            omega

theorem Ok.start (h : n.Ok line) (h0 : 0 ≤ line) : (n.start line).Ok line := by
  rcases n with ⟨maxRecursion, level, tracks⟩
  cases maxRecursion with
  | none =>
    refine ⟨by simp [Levels.start, h.length], ?_, fun m hm => (by cases hm), fun _ => h.flat rfl⟩
    intro t ht
    obtain ht | ⟨t', ht', rfl⟩ := mem_modify ht
    · exact h.track t ht
    · exact (h.track t' (mem_of_getElem? ht')).close.openThis h0
  | some m =>
    have hopen := h.open_iff m rfl
    simp only at hopen
    by_cases hlt : level > m
    · simp only [Levels.start, if_pos hlt]
      refine ⟨h.length, h.track, fun m' hm' k t hk => ?_, fun hflat => by cases hflat⟩
      obtain ⟨hk', -⟩ := List.getElem?_eq_some_iff.mp hk
      have hlen := h.length
      simp only [getD_some] at hlen hk'
      rw [hopen k t hk]
      simp only
      omega
    · simp only [Levels.start, if_neg hlt]
      refine ⟨by rw [← h.length]; simp, ?_, ?_, fun hflat => by cases hflat⟩
      · intro t ht
        obtain ht | ⟨t', ht', rfl⟩ := mem_modify ht
        · exact h.track t ht
        · have hok := h.track t' (mem_of_getElem? ht')
          split_ifs
          · exact hok.close.openThis h0
          · exact hok.openThis h0
      · intro m' hm' k t hk
        simp only at hk ⊢
        rw [getElem?_modify] at hk
        obtain ⟨t', ht', rfl⟩ := map_eq_some_iff.mp hk
        have hiff := hopen k t' ht'
        by_cases hkl : level = k
        · subst hkl
          simp only [if_true, lt_succ_self, iff_true]
          split_ifs <;> simp
        · simp only [if_neg hkl, hiff]
          omega

/-! Closing until nothing is open. -/

def closeLoop (e : ℤ) : ℕ → Levels → Levels
  | 0, n => n
  | fuel + 1, n => if n.isOpen then closeLoop e fuel (n.close e) else n

theorem Ok.closeLoop (h : n.Ok line) (fuel : ℕ) : (closeLoop (line - 1) fuel n).Ok line := by
  induction fuel generalizing n with
  | zero => exact h
  | succ fuel ih =>
    unfold Levels.closeLoop
    split_ifs
    · exact ih h.close
    · exact h

theorem Ok.head (h : n.Ok line) : ∃ t rest, n.tracks = t :: rest := by
  have hlen := h.length
  cases htracks : n.tracks with
  | nil =>
    rw [htracks] at hlen
    cases hlen
  | cons t rest => exact ⟨t, rest, rfl⟩

/-- As many rounds as there are levels, and one for a flat structure, are enough. -/
theorem isOpen_closeLoop (h : n.Ok line) {fuel : ℕ} (hfuel : n.level < fuel) :
    (closeLoop (line - 1) fuel n).isOpen = false := by
  induction fuel generalizing n with
  | zero => omega
  | succ fuel ih =>
    obtain ⟨t, rest, htracks⟩ := h.head
    have hopen : n.isOpen = t.isOpen := by simp [isOpen, htracks]
    unfold closeLoop
    split_ifs with hn
    · cases hmax : n.maxRecursion with
      | none =>
        have hclosed : (n.close (line - 1)).isOpen = false := by
          simp [Levels.close, hmax, isOpen, htracks]
        cases fuel with
        | zero => exact hclosed
        | succ fuel =>
          unfold closeLoop
          rw [if_neg (by rw [hclosed]; simp)]
          exact hclosed
      | some m =>
        have hpos := (h.open_iff m hmax 0 t (by simp [htracks])).mp (by rw [← hopen]; exact hn)
        obtain ⟨level, hlevel⟩ := exists_eq_succ_of_ne_zero (by omega : n.level ≠ 0)
        have hnext : (n.close (line - 1)).level = level := by simp [Levels.close, hmax, hlevel]
        exact ih h.close (by rw [hnext]; omega)
    · simpa using hn

end Levels

/-! ## Runs and matching tags -/

/-- What concerns one element: its tags and the tokens. -/
inductive Tag where
  | start
  | stop
  | token
  | other
deriving DecidableEq

/-- The levels and the next position. After `limit` tokens nothing happens any more. -/
def step (limit : ℕ) (st : Levels × ℕ) (tag : Tag) : Levels × ℕ :=
  if limit ≤ st.2 then st
  else
    match tag with
    | .start => (st.1.start st.2, st.2)
    | .stop => (st.1.close (st.2 - 1), st.2)
    | .token => (st.1, st.2 + 1)
    | .other => st

def run (limit : ℕ) (st : Levels × ℕ) (tags : List Tag) : Levels × ℕ := tags.foldl (step limit) st

theorem step_ok {limit : ℕ} {st : Levels × ℕ} (h : st.1.Ok st.2) (tag : Tag) :
    (step limit st tag).1.Ok (step limit st tag).2 := by
  unfold step
  split_ifs
  · exact h
  · cases tag with
    | start => exact h.start (Int.natCast_nonneg _)
    | stop => exact h.close
    | token => exact h.mono (by push_cast; omega)
    | other => exact h

theorem run_ok (limit : ℕ) (st : Levels × ℕ) (h : st.1.Ok st.2) (tags : List Tag) :
    (run limit st tags).1.Ok (run limit st tags).2 := by
  induction tags generalizing st with
  | nil => exact h
  | cons tag tags ih => exact ih _ (step_ok h tag)

/-- The elements of properly nested input with their depth, in the order of their end tags, for
the start positions of the elements that are open; `none` if a tag has no partner. -/
def elements : List ℕ → ℕ → List Tag → Option (List (ℕ × ℤ × ℤ))
  | [], _, [] => some []
  | _ :: _, _, [] => none
  | stack, pos, .start :: tags => elements (pos :: stack) pos tags
  | [], _, .stop :: _ => none
  | s :: stack, pos, .stop :: tags => (elements stack pos tags).map ((stack.length, (s : ℤ), (pos : ℤ) - 1) :: ·)
  | stack, pos, .token :: tags => elements stack (pos + 1) tags
  | stack, pos, .other :: tags => elements stack pos tags

/-- The regions of the non-empty elements of depth `k`. -/
def regionsAt (k : ℕ) (els : List (ℕ × ℤ × ℤ)) : List (ℤ × ℤ) :=
  (els.filter fun el => el.1 = k ∧ el.2.1 ≤ el.2.2).map Prod.snd

/-- Every open element gets its end tag. -/
theorem exists_of_open {stack : List ℕ} {pos : ℕ} {tags : List Tag} {els : List (ℕ × ℤ × ℤ)}
    (h : elements stack pos tags = some els) {d : ℕ} (hd : d < stack.length) : ∃ el ∈ els, el.1 = d := by
  induction tags generalizing stack pos els with
  | nil =>
    cases stack with
    | nil => exact absurd hd (Nat.not_lt_zero d)
    | cons s stack => cases h
  | cons tag tags ih =>
    cases tag with
    | start =>
      rw [elements] at h
      exact ih h (lt_succ_of_lt hd)
    | stop =>
      cases stack with
      | nil => cases h
      | cons s stack =>
        rw [elements] at h
        obtain ⟨els', hels, rfl⟩ := map_eq_some_iff.mp h
        obtain hlt | heq := Nat.lt_succ_iff_lt_or_eq.mp hd
        · obtain ⟨el, hel, hdepth⟩ := ih hels hlt
          exact ⟨el, mem_cons_of_mem _ hel, hdepth⟩
        · exact ⟨_, mem_cons_self, heq.symm⟩
    | token =>
      rw [elements] at h
      exact ih h hd
    | other =>
      rw [elements] at h
      exact ih h hd

/-- The tracks follow the stack of open elements. -/
structure Follows (n : Levels) (stack : List ℕ) : Prop where
  length : n.tracks.length = n.maxRecursion.getD 0 + 1
  level : ∀ m, n.maxRecursion = some m → n.level = stack.length
  fits : stack.length ≤ n.maxRecursion.getD 0 + 1
  track : ∀ k t, n.tracks[k]? = some t → (t.isOpen = true ↔ k < stack.length) ∧
    ∀ s : ℕ, stack.reverse[k]? = some s → t.startPos = (s : ℤ)

variable {n : Levels} {stack : List ℕ}

/-- Level and tracks after a start tag that is not too deep. -/
theorem Follows.start_eq (h : Follows n stack) (hfit : stack.length ≤ n.maxRecursion.getD 0) (line : ℤ) :
    ∃ level, (∀ m, n.maxRecursion = some m → level = stack.length + 1) ∧
      n.start line = { n with level := level, tracks := n.tracks.modify stack.length (·.openThis line) } := by
  have hmodify : ∀ f : Track → Track, (∀ t, t.isOpen = false → f t = t.openThis line) →
      n.tracks.modify stack.length f = n.tracks.modify stack.length (·.openThis line) := by
    intro f hf
    apply ext_getElem?
    intro i
    rw [getElem?_modify, getElem?_modify]
    cases hi : n.tracks[i]? with
    | none => rfl
    | some t =>
      by_cases hk : stack.length = i
      · have hclosed : t.isOpen = false := by
          have hiff := (h.track i t hi).1
          rw [← hk] at hiff
          simpa using hiff
        simp only [if_pos hk, Option.map_eq_map, map_some, hf t hclosed]
      · simp only [if_neg hk]
  have hclosed : ∀ t : Track, t.isOpen = false → (t.close (line - 1)).openThis line = t.openThis line := by
    intro t ht
    rw [Track.close, if_neg (by simp [ht])]
  cases hmax : n.maxRecursion with
  | none =>
    rw [hmax] at hfit
    have h0 : stack.length = 0 := by simpa using hfit
    refine ⟨n.level, fun m hm => (by cases hm), ?_⟩
    rw [← hmodify _ hclosed, h0, Levels.start, hmax]
  | some m =>
    have hlevel := h.level m hmax
    rw [hmax, getD_some] at hfit
    refine ⟨stack.length + 1, fun m hm => rfl, ?_⟩
    rw [Levels.start, hmax]
    simp only [hlevel, if_neg (not_lt.mpr hfit), gt_iff_lt]
    rw [hmodify]
    intro t ht
    split_ifs
    · exact hclosed t ht
    · rfl

/-- Level and tracks after the end tag of the innermost open element. -/
theorem Follows.close_eq {s : ℕ} (h : Follows n (s :: stack)) (e : ℤ) :
    ∃ level, (∀ m, n.maxRecursion = some m → level = stack.length) ∧
      n.close e = { n with level := level, tracks := n.tracks.modify stack.length (·.closeThis e) } := by
  have hfit := h.fits
  rw [length_cons] at hfit
  have hmodify : ∀ f : Track → Track, (∀ t, t.isOpen = true → f t = t.closeThis e) →
      n.tracks.modify stack.length f = n.tracks.modify stack.length (·.closeThis e) := by
    intro f hf
    apply ext_getElem?
    intro i
    rw [getElem?_modify, getElem?_modify]
    cases hi : n.tracks[i]? with
    | none => rfl
    | some t =>
      by_cases hk : stack.length = i
      · have hopen : t.isOpen = true := (h.track i t hi).1.mpr (by rw [← hk]; simp)
        simp only [if_pos hk, Option.map_eq_map, map_some, hf t hopen]
      · simp only [if_neg hk]
  have hopen : ∀ t : Track, t.isOpen = true → t.close e = t.closeThis e := by
    intro t ht
    rw [Track.close, if_pos ht]
  cases hmax : n.maxRecursion with
  | none =>
    rw [hmax] at hfit
    have h0 : stack.length = 0 := by
      rw [getD_none] at hfit
      omega
    refine ⟨n.level, fun m hm => (by cases hm), ?_⟩
    rw [← hmodify _ hopen, h0, Levels.close, hmax]
  | some m =>
    have hlevel : n.level = stack.length + 1 := h.level m hmax
    rw [hmax, getD_some] at hfit
    refine ⟨stack.length, fun m hm => rfl, ?_⟩
    rw [Levels.close, hmax, hlevel]
    simp only [if_neg (show ¬stack.length > m by omega)]
    rw [hmodify]
    intro t ht
    split_ifs
    · exact hopen t ht
    · rfl

theorem Follows.start (h : Follows n stack) (hfit : stack.length ≤ n.maxRecursion.getD 0) (pos : ℕ) :
    Follows (n.start pos) (pos :: stack) := by
  obtain ⟨level, hlevel, heq⟩ := h.start_eq hfit pos
  rw [heq]
  refine ⟨by rw [← h.length]; simp, hlevel, succ_le_succ hfit, ?_⟩
  intro k t hk
  simp only at hk
  rw [getElem?_modify] at hk
  obtain ⟨t', ht', rfl⟩ := map_eq_some_iff.mp hk
  obtain ⟨hiff, hstart⟩ := h.track k t' ht'
  rw [reverse_cons, length_cons]
  by_cases hkl : stack.length = k
  · subst hkl
    refine ⟨by simp, fun s hs => ?_⟩
    rw [getElem?_append_right (by simp), length_reverse, Nat.sub_self] at hs
    cases hs
    simp [Track.openThis]
  · simp only [if_neg hkl]
    refine ⟨by rw [hiff]; omega, fun s hs => ?_⟩
    have hlt : k < stack.length := by
      obtain ⟨hi, -⟩ := List.getElem?_eq_some_iff.mp hs
      rw [length_append, length_reverse, length_singleton] at hi
      omega
    rw [getElem?_append_left (by simpa using hlt)] at hs
    exact hstart s hs

theorem Follows.close {s : ℕ} (h : Follows n (s :: stack)) (e : ℤ) : Follows (n.close e) stack := by
  obtain ⟨level, hlevel, heq⟩ := h.close_eq e
  have hfit := h.fits
  rw [length_cons] at hfit
  rw [heq]
  refine ⟨by rw [← h.length]; simp, hlevel, by simp only; omega, ?_⟩
  intro k t hk
  simp only at hk
  rw [getElem?_modify] at hk
  obtain ⟨t', ht', rfl⟩ := map_eq_some_iff.mp hk
  obtain ⟨hiff, hstart⟩ := h.track k t' ht'
  rw [reverse_cons] at hstart
  by_cases hkl : stack.length = k
  · subst hkl
    refine ⟨by simp, fun u hu => ?_⟩
    rw [getElem?_eq_none (by simp)] at hu
    cases hu
  · simp only [if_neg hkl]
    refine ⟨by rw [hiff, length_cons]; omega, fun u hu => ?_⟩
    obtain ⟨hi, -⟩ := List.getElem?_eq_some_iff.mp hu
    exact hstart u (by rw [getElem?_append_left hi]; exact hu)

/-- The region of the element that is closed. -/
theorem Follows.rng_close {s : ℕ} (h : Follows n (s :: stack)) (e : ℤ) {k : ℕ} {t : Track} (ht : n.tracks[k]? = some t) :
    ∃ t', (n.close e).tracks[k]? = some t' ∧ t'.rng = t.rng ++ regionsAt k [(stack.length, (s : ℤ), e)] := by
  obtain ⟨level, -, heq⟩ := h.close_eq e
  rw [heq]
  simp only
  rw [getElem?_modify, ht, Option.map_eq_map, map_some]
  refine ⟨_, rfl, ?_⟩
  by_cases hkl : stack.length = k
  · subst hkl
    have hstart : t.startPos = s := (h.track _ t ht).2 s (by
      rw [reverse_cons, getElem?_append_right (by simp)]
      simp)
    simp only [if_true, Track.closeThis, hstart, regionsAt]
    by_cases hle : (s : ℤ) ≤ e <;> simp [hle]
  · simp [hkl, regionsAt]

theorem Follows.rng_start (h : Follows n stack) (hfit : stack.length ≤ n.maxRecursion.getD 0) (line : ℤ) {k : ℕ}
    {t : Track} (ht : n.tracks[k]? = some t) : ∃ t', (n.start line).tracks[k]? = some t' ∧ t'.rng = t.rng := by
  obtain ⟨level, -, heq⟩ := h.start_eq hfit line
  rw [heq]
  simp only
  rw [getElem?_modify, ht, Option.map_eq_map, map_some]
  refine ⟨_, rfl, ?_⟩
  split_ifs <;> rfl

theorem maxRecursion_start (n : Levels) (line : ℤ) : (n.start line).maxRecursion = n.maxRecursion := by
  unfold Levels.start
  split <;> simp_all

theorem maxRecursion_close (n : Levels) (e : ℤ) : (n.close e).maxRecursion = n.maxRecursion := by
  unfold Levels.close
  split
  · split <;> simp_all
  · simp_all

theorem regionsAt_cons (k : ℕ) (el : ℕ × ℤ × ℤ) (els : List (ℕ × ℤ × ℤ)) :
    regionsAt k (el :: els) = regionsAt k [el] ++ regionsAt k els := by
  simp only [regionsAt, filter_cons, filter_nil]
  split_ifs <;> rfl

/-- Properly nested input, not too deep and not too long: every track receives the non-empty
elements of its depth, and in the end nothing is open. -/
theorem run_elements (limit : ℕ) {pos : ℕ} {tags : List Tag} {els : List (ℕ × ℤ × ℤ)} (h : Follows n stack)
    (hels : elements stack pos tags = some els) (hdepth : ∀ el ∈ els, el.1 ≤ n.maxRecursion.getD 0)
    (hlimit : pos + tags.count .token < limit) :
    Follows (run limit (n, pos) tags).1 [] ∧
      ∀ k t, n.tracks[k]? = some t →
        ∃ t', (run limit (n, pos) tags).1.tracks[k]? = some t' ∧ t'.rng = t.rng ++ regionsAt k els := by
  induction tags generalizing n stack pos els with
  | nil =>
    cases stack with
    | nil =>
      cases hels
      exact ⟨h, fun k t ht => ⟨t, ht, by simp [regionsAt]⟩⟩
    | cons s stack => cases hels
  | cons tag tags ih =>
    have hpos : ¬limit ≤ pos := by omega
    have hcount : (tag :: tags).count .token = tags.count .token + if tag = .token then 1 else 0 := by
      rw [count_cons]
      simp
    rw [hcount] at hlimit
    have hrun : run limit (n, pos) (tag :: tags) = run limit (step limit (n, pos) tag) tags := rfl
    rw [hrun]
    unfold step
    simp only [if_neg hpos]
    cases tag with
    | start =>
      rw [elements] at hels
      have hfit : stack.length ≤ n.maxRecursion.getD 0 := by
        obtain ⟨el, hel, hd⟩ := exists_of_open hels (show stack.length < (pos :: stack).length by simp)
        rw [← hd]
        exact hdepth el hel
      obtain ⟨hfin, hrng⟩ := ih (h.start hfit pos) hels (by rw [maxRecursion_start]; exact hdepth) (by simpa using hlimit)
      refine ⟨hfin, fun k t ht => ?_⟩
      obtain ⟨t1, ht1, hr1⟩ := h.rng_start hfit pos ht
      obtain ⟨t2, ht2, hr2⟩ := hrng k t1 ht1
      exact ⟨t2, ht2, by rw [hr2, hr1]⟩
    | stop =>
      cases stack with
      | nil => cases hels
      | cons s stack =>
        rw [elements] at hels
        obtain ⟨els', hels', rfl⟩ := map_eq_some_iff.mp hels
        obtain ⟨hfin, hrng⟩ := ih (h.close (pos - 1)) hels'
          (by rw [maxRecursion_close]; exact fun el hel => hdepth el (mem_cons_of_mem _ hel)) (by simpa using hlimit)
        refine ⟨hfin, fun k t ht => ?_⟩
        obtain ⟨t1, ht1, hr1⟩ := h.rng_close (pos - 1) ht
        obtain ⟨t2, ht2, hr2⟩ := hrng k t1 ht1
        exact ⟨t2, ht2, by rw [hr2, hr1, append_assoc, ← regionsAt_cons]⟩
    | token =>
      rw [elements] at hels
      exact ih h hels hdepth (by simp at hlimit; omega)
    | other =>
      rw [elements] at hels
      exact ih h hels hdepth (by simpa using hlimit)

end Nesting
