import Mathlib.Data.List.Nodup
import Mathlib.Data.List.Pairwise
import Mathlib.Data.List.Perm.Subperm
import Mathlib.Data.List.TakeWhile
import Mathlib.Order.Bounds.Basic

/-! Greedy walks through columns of ascending items. From a point, the window of the next
column gives the lowest and the highest item that may follow; a walk takes the first item from
the lower end on, and fails if that lies above the upper end. What a walk has passed stays
passed for the walks after it, which start further up. -/

namespace GreedyWalk

open List

variable {β ι α : Type*} [LinearOrder α]

section Definitions

variable (window : β → ι → α → Option (α × α))

/-- The walk from a point: the item of the last column, and what is left of the columns. -/
def walk (b : β) : α → List (ι × List α) → Option α × List (ι × List α)
  | p, [] => (some p, [])
  | p, (i, items) :: cols =>
    match window b i p with
    | none => (none, (i, items) :: cols)
    | some (lo, hi) =>
      match items.dropWhile (· < lo) with
      | [] => (none, (i, []) :: cols)
      | x :: rest =>
        if x ≤ hi then ((walk b x cols).1, (i, x :: rest) :: (walk b x cols).2)
        else (none, (i, x :: rest) :: cols)

/-- The walks from a list of points, each with its bounds. A walk that ends no further than
the last one kept is discarded. -/
def sweep (bounds : α → Option β) : List α → List (ι × List α) → Option α → List (α × α)
  | [], _, _ => []
  | p :: starts, cols, last =>
    match bounds p with
    | none => sweep bounds starts cols last
    | some b =>
      match walk window b p cols with
      | (none, cols) => sweep bounds starts cols last
      | (some q, cols) =>
        if last.all (· < q) then (p, q) :: sweep bounds starts cols (some q)
        else sweep bounds starts cols last

/-- `q` is where the walk from `p` ends: each step goes to the nearest item. -/
inductive Chain (b : β) : α → List (ι × List α) → α → Prop
  | nil (p : α) : Chain b p [] p
  | cons {p q x lo hi : α} {i : ι} {items : List α} {cols : List (ι × List α)} (hwindow : window b i p = some (lo, hi))
      (hleast : IsLeast {y | y ∈ items ∧ lo ≤ y} x) (hle : x ≤ hi) (htail : Chain b x cols q) :
      Chain b p ((i, items) :: cols) q

end Definitions

/-- What is left of the columns is of the same use as the whole for every walk from `p` on. -/
inductive Passed (lower : ι → α → α) : α → List (ι × List α) → List (ι × List α) → Prop
  | nil (p : α) : Passed lower p [] []
  | cons {p : α} {i : ι} {items rest : List α} {cols left : List (ι × List α)}
      (hrest : ∀ l, lower i p ≤ l → rest.dropWhile (· < l) = items.dropWhile (· < l))
      (htail : ∀ x ∈ rest, Passed lower x cols left) : Passed lower p ((i, items) :: cols) ((i, rest) :: left)

section Items

variable {items rest : List α} {lo l x : α}

theorem dropWhile_lt_eq_nil (h : items.dropWhile (· < lo) = []) : ∀ y ∈ items, y < lo := by
  simpa using dropWhile_eq_nil_iff.mp h

/-- In an ascending column the first item from `lo` on is the nearest one. -/
theorem isLeast_of_dropWhile (hs : items.Pairwise (· ≤ ·)) (h : items.dropWhile (· < lo) = x :: rest) :
    IsLeast {y | y ∈ items ∧ lo ≤ y} x := by
  have hx : lo ≤ x := by
    have hnot := head_dropWhile_not (fun y => decide (y < lo)) (by rw [h]; simp : items.dropWhile (· < lo) ≠ [])
    simpa [h] using hnot
  refine ⟨⟨(dropWhile_suffix _).subset (by rw [h]; simp), hx⟩, fun y hy => ?_⟩
  obtain ⟨hmem, hlo⟩ := hy
  rw [← takeWhile_append_dropWhile (p := fun y => decide (y < lo)) (l := items), mem_append] at hmem
  rcases hmem with hmem | hmem
  · have hlt := mem_takeWhile_imp hmem
    exact absurd (by simpa using hlt) (not_lt.mpr hlo)
  · rw [h] at hmem
    rcases mem_cons.mp hmem with rfl | htail
    · exact le_rfl
    · have hsorted : (x :: rest).Pairwise (· ≤ ·) := h ▸ hs.sublist (dropWhile_sublist _)
      exact (pairwise_cons.mp hsorted).1 y htail

theorem dropWhile_dropWhile_lt (h : lo ≤ l) : (items.dropWhile (· < lo)).dropWhile (· < l) = items.dropWhile (· < l) := by
  induction items with
  | nil => rfl
  | cons y items ih =>
    by_cases hy : y < lo
    · rw [dropWhile_cons_of_pos (by simpa using hy), ih, dropWhile_cons_of_pos (by simpa using hy.trans_le h)]
    · rw [dropWhile_cons_of_neg (by simpa using hy)]

end Items

variable {window : β → ι → α → Option (α × α)} {lower : ι → α → α} {p p' q q' : α} {b b' : β}
variable {cols left : List (ι × List α)}

theorem passed_refl (lower : ι → α → α) (p : α) (cols : List (ι × List α)) : Passed lower p cols cols := by
  induction cols generalizing p with
  | nil => exact .nil p
  | cons c cols ih => exact .cons (fun _ _ => rfl) fun x _ => ih x

section Monotone

variable (hmono : ∀ i, Monotone (lower i))

include hmono

theorem Passed.mono (h : Passed lower p cols left) (hp : p ≤ p') : Passed lower p' cols left := by
  cases h with
  | nil => exact .nil p'
  | cons hrest htail => exact .cons (fun l hl => hrest l ((hmono _ hp).trans hl)) htail

variable (hlower : ∀ b i p lo hi, window b i p = some (lo, hi) → lo = lower i p)

include hlower

/-- A walk over what is left finds what it would find in the whole columns, and leaves enough
for every walk from its own start on. -/
theorem Passed.walk (h : Passed lower p cols left) (hs : ∀ c ∈ cols, c.2.Pairwise (· ≤ ·)) (hp : p ≤ p') (b : β) :
    (GreedyWalk.walk window b p' left).1 = (GreedyWalk.walk window b p' cols).1 ∧
      Passed lower p' cols (GreedyWalk.walk window b p' left).2 := by
  induction h generalizing p' with
  | nil => exact ⟨rfl, .nil p'⟩
  | @cons p i items rest cols left hrest htail ih =>
    have hwhole : Passed lower p' ((i, items) :: cols) ((i, rest) :: left) :=
      (Passed.cons hrest htail).mono hmono hp
    unfold GreedyWalk.walk
    cases hw : window b i p' with
    | none => exact ⟨rfl, hwhole⟩
    | some w =>
      obtain ⟨lo, hi⟩ := w
      obtain rfl : lo = lower i p' := hlower b i p' lo hi hw
      have hdrop : rest.dropWhile (· < lower i p') = items.dropWhile (· < lower i p') := hrest _ (hmono i hp)
      have hagain : ∀ l, lower i p' ≤ l →
          (rest.dropWhile (· < lower i p')).dropWhile (· < l) = items.dropWhile (· < l) := fun l hl => by
        rw [hdrop, dropWhile_dropWhile_lt hl]
      have hsub : ∀ y ∈ rest.dropWhile (· < lower i p'), Passed lower y cols left := fun y hy =>
        htail y ((dropWhile_suffix _).subset hy)
      simp only [← hdrop]
      cases hd : rest.dropWhile (· < lower i p') with
      | nil =>
        rw [hd] at hagain
        exact ⟨rfl, .cons hagain (by simp)⟩
      | cons x rest' =>
        rw [hd] at hagain hsub
        have hsorted : (x :: rest').Pairwise (· ≤ ·) := by
          rw [← hd, hdrop]
          exact (hs (i, items) (by simp)).sublist (dropWhile_sublist _)
        by_cases hx : x ≤ hi
        · have hmem : x ∈ rest := (dropWhile_suffix _).subset (by rw [hd]; simp)
          obtain ⟨heq, hpassed⟩ := ih x hmem (fun c hc => hs c (by simp [hc])) le_rfl
          simp only [if_pos hx]
          refine ⟨heq, .cons hagain fun y hy => hpassed.mono hmono ?_⟩
          rcases mem_cons.mp hy with rfl | hy
          · exact le_rfl
          · exact (pairwise_cons.mp hsorted).1 y hy
        · simp only [if_neg hx]
          exact ⟨trivial, .cons hagain hsub⟩

/-- The nearer the start, the nearer the end, whatever the bounds. -/
theorem Chain.mono (h : Chain window b p cols q) (h' : Chain window b' p' cols q') (hp : p ≤ p') : q ≤ q' := by
  induction h generalizing p' with
  | nil => cases h' with | nil => exact hp
  | cons hwindow hleast _ _ ih =>
    cases h' with
    | cons hwindow' hleast' _ htail' =>
      obtain rfl := hlower _ _ _ _ _ hwindow
      obtain rfl := hlower _ _ _ _ _ hwindow'
      exact ih htail' (hleast.2 ⟨hleast'.1.1, (hmono _ hp).trans hleast'.1.2⟩)

omit hmono in
theorem Chain.le (hge : ∀ i p, p ≤ lower i p) (h : Chain window b p cols q) : p ≤ q := by
  induction h with
  | nil => exact le_rfl
  | cons hwindow hleast _ _ ih =>
    obtain rfl := hlower _ _ _ _ _ hwindow
    exact ((hge _ _).trans hleast.1.2).trans ih

end Monotone

/-- On whole ascending columns the walk ends where the chain does. -/
theorem walk_eq_some (hs : ∀ c ∈ cols, c.2.Pairwise (· ≤ ·)) :
    (walk window b p cols).1 = some q ↔ Chain window b p cols q := by
  induction cols generalizing p with
  | nil =>
    constructor
    · intro h
      obtain rfl := Option.some.inj h
      exact .nil _
    · intro h
      cases h with | nil => rfl
  | cons c cols ih =>
    obtain ⟨i, items⟩ := c
    have ih := fun x => ih (p := x) fun c hc => hs c (by simp [hc])
    unfold walk
    cases hw : window b i p with
    | none =>
      refine ⟨by simp, fun h => ?_⟩
      cases h with | cons hwindow => simp [hw] at hwindow
    | some w =>
      obtain ⟨lo, hi⟩ := w
      dsimp only
      cases hd : items.dropWhile (· < lo) with
      | nil =>
        refine ⟨by simp, fun h => ?_⟩
        cases h with
        | cons hwindow hleast =>
          obtain ⟨rfl, rfl⟩ := Prod.mk.inj (Option.some.inj (hw.symm.trans hwindow))
          exact absurd (dropWhile_lt_eq_nil hd _ hleast.1.1) (not_lt.mpr hleast.1.2)
      | cons x rest =>
        have hleast : IsLeast {y | y ∈ items ∧ lo ≤ y} x := isLeast_of_dropWhile (hs (i, items) (by simp)) hd
        dsimp only
        constructor
        · intro h
          by_cases hx : x ≤ hi
          · rw [if_pos hx] at h
            exact .cons hw hleast hx ((ih x).mp h)
          · simp [if_neg hx] at h
        · intro h
          cases h with
          | cons hwindow hleast' hx htail =>
            obtain ⟨rfl, rfl⟩ := Prod.mk.inj (Option.some.inj (hw.symm.trans hwindow))
            obtain rfl := hleast.unique hleast'
            rw [if_pos hx]
            exact (ih x).mpr htail

/-- The starts of the walks kept are among the starts, in order. -/
theorem sweep_sublist (bounds : α → Option β) (starts : List α) (cols : List (ι × List α)) (last : Option α) :
    ((sweep window bounds starts cols last).map Prod.fst).Sublist starts := by
  induction starts generalizing cols last with
  | nil => exact List.Sublist.refl _
  | cons p starts ih =>
    unfold sweep
    cases bounds p with
    | none => exact (ih cols last).cons p
    | some b =>
      dsimp only
      rcases walk window b p cols with ⟨_ | q, cols'⟩
      · exact (ih cols' last).cons p
      · dsimp only
        split_ifs
        · exact (ih cols' (some q)).cons_cons p
        · exact (ih cols' last).cons p

/-- The walks kept start and end further and further up. -/
theorem sweep_ascending (bounds : α → Option β) {starts : List α} (hstarts : starts.Pairwise (· < ·))
    (cols : List (ι × List α)) (last : Option α) :
    (sweep window bounds starts cols last).Pairwise (fun a b => a.1 < b.1 ∧ a.2 < b.2) ∧
      ∀ m ∈ sweep window bounds starts cols last, ∀ e ∈ last, e < m.2 := by
  induction starts generalizing cols last with
  | nil => simp [sweep]
  | cons p starts ih =>
    obtain ⟨hp, htail⟩ := pairwise_cons.mp hstarts
    unfold sweep
    cases bounds p with
    | none => exact ih htail cols last
    | some b =>
      dsimp only
      rcases walk window b p cols with ⟨_ | q, cols'⟩
      · exact ih htail cols' last
      · dsimp only
        split_ifs with hall
        · obtain ⟨hsorted, hends⟩ := ih htail cols' (some q)
          have hq : ∀ e ∈ last, e < q := fun e he => by simpa [Option.mem_def.mp he] using hall
          refine ⟨pairwise_cons.mpr ⟨fun m hm => ⟨?_, hends m hm q rfl⟩, hsorted⟩, fun m hm e he => ?_⟩
          · exact hp m.1 ((sweep_sublist bounds starts cols' (some q)).subset (mem_map_of_mem hm))
          · rcases mem_cons.mp hm with rfl | hm
            · exact hq e he
            · exact (hq e he).trans (hends m hm q rfl)
        · exact ih htail cols' last

/-- A chain passes through an item of each column. -/
theorem Chain.through {pre post : List (ι × List α)} {c : ι × List α}
    (h : Chain window b p (pre ++ c :: post) q) : ∃ x ∈ c.2, Chain window b x post q := by
  induction pre generalizing p with
  | nil =>
    cases h with
    | cons _ hleast _ htail => exact ⟨_, hleast.1.1, htail⟩
  | cons c' pre ih =>
    cases h with
    | cons _ _ _ htail => exact ih htail

section Sweep

variable (hmono : ∀ i, Monotone (lower i)) (hlower : ∀ b i p lo hi, window b i p = some (lo, hi) → lo = lower i p)
variable {bounds : α → Option β} {starts : List α} {last : Option α}

include hmono hlower

/-- The walks kept are chains. -/
theorem sweep_chain (hs : ∀ c ∈ cols, c.2.Pairwise (· ≤ ·)) (hpassed : Passed lower p cols left)
    (hstarts : (p :: starts).Pairwise (· ≤ ·)) :
    ∀ m ∈ sweep window bounds starts left last, ∃ b, bounds m.1 = some b ∧ Chain window b m.1 cols m.2 := by
  induction starts generalizing p left last with
  | nil => simp [sweep]
  | cons s starts ih =>
    obtain ⟨hp, htail⟩ := pairwise_cons.mp hstarts
    have hps : p ≤ s := hp s (by simp)
    unfold sweep
    cases hb : bounds s with
    | none => exact ih (hpassed.mono hmono hps) htail
    | some b =>
      obtain ⟨heq, hpassed'⟩ := hpassed.walk hmono hlower hs hps b
      dsimp only
      rcases hw : walk window b s left with ⟨_ | q, left'⟩
      · rw [hw] at hpassed'
        exact ih hpassed' htail
      · rw [hw] at heq hpassed'
        dsimp only
        split_ifs
        · intro m hm
          rcases mem_cons.mp hm with rfl | hm
          · exact ⟨b, hb, (walk_eq_some hs).mp heq.symm⟩
          · exact ih hpassed' htail m hm
        · exact ih hpassed' htail

/-- Every chain has a walk with its end among those kept, one that starts no later, unless the
last walk kept before has that end. -/
theorem exists_sweep (hs : ∀ c ∈ cols, c.2.Pairwise (· ≤ ·)) (hpassed : Passed lower p cols left)
    (hstarts : (p :: starts).Pairwise (· ≤ ·))
    (hlast : ∀ e, last = some e → ∃ p₀ b₀, p₀ ≤ p ∧ Chain window b₀ p₀ cols e)
    (hp : p' ∈ starts) (hb : bounds p' = some b) (hchain : Chain window b p' cols q) :
    last = some q ∨ ∃ s ≤ p', (s, q) ∈ sweep window bounds starts left last := by
  induction starts generalizing p left last with
  | nil => simp at hp
  | cons s starts ih =>
    obtain ⟨hle, htail⟩ := pairwise_cons.mp hstarts
    have hps : p ≤ s := hle s (by simp)
    have hlast' : ∀ e, last = some e → ∃ p₀ b₀, p₀ ≤ s ∧ Chain window b₀ p₀ cols e := by
      intro e he
      obtain ⟨p₀, b₀, h0, hchain0⟩ := hlast e he
      exact ⟨p₀, b₀, h0.trans hps, hchain0⟩
    unfold sweep
    cases hbs : bounds s with
    | none =>
      rcases mem_cons.mp hp with rfl | hp
      · simp [hbs] at hb
      · exact ih (hpassed.mono hmono hps) htail hlast' hp
    | some bs =>
      obtain ⟨heq, hpassed'⟩ := hpassed.walk hmono hlower hs hps bs
      dsimp only
      rcases hw : walk window bs s left with ⟨_ | e, left'⟩
      · rw [hw] at heq hpassed'
        rcases mem_cons.mp hp with rfl | hp
        · obtain rfl := Option.some.inj (hbs.symm.trans hb)
          rw [(walk_eq_some hs).mpr hchain] at heq
          simp at heq
        · exact ih hpassed' htail hlast' hp
      · rw [hw] at heq hpassed'
        have hchain_s : Chain window bs s cols e := (walk_eq_some hs).mp heq.symm
        dsimp only
        split_ifs with hall
        · right
          rcases mem_cons.mp hp with rfl | hp
          · obtain rfl := Option.some.inj (hbs.symm.trans hb)
            rw [(walk_eq_some hs).mpr hchain] at heq
            obtain rfl := Option.some.inj heq
            exact ⟨p', le_rfl, by simp⟩
          · have hsp : s ≤ p' := (pairwise_cons.mp htail).1 p' hp
            rcases ih hpassed' htail (fun e' he' => ⟨s, bs, le_rfl, Option.some.inj he' ▸ hchain_s⟩) hp with h | h
            · obtain rfl := Option.some.inj h
              exact ⟨s, hsp, by simp⟩
            · obtain ⟨s', hs', hmem⟩ := h
              exact ⟨s', hs', mem_cons_of_mem _ hmem⟩
        · rcases mem_cons.mp hp with rfl | hp
          · -- the walk is discarded: it ends where the last one kept did
            obtain rfl := Option.some.inj (hbs.symm.trans hb)
            rw [(walk_eq_some hs).mpr hchain] at heq
            obtain rfl := Option.some.inj heq
            cases hl : last with
            | none => simp [hl] at hall
            | some e₀ =>
              obtain ⟨p₀, b₀, h0, hchain0⟩ := hlast' e₀ hl
              have hle := hchain0.mono hmono hlower hchain h0
              simp only [hl, Option.all_some, decide_eq_true_eq, not_lt] at hall
              exact .inl (congrArg some (le_antisymm hle hall))
          · exact ih hpassed' htail hlast' hp

/-- No item belongs to two of the walks kept: from an item on they would be the same, and so would be
their ends. -/
theorem length_sweep_le (hs : ∀ c ∈ cols, c.2.Pairwise (· ≤ ·)) (hpassed : Passed lower p cols left)
    (hp : ∀ s ∈ starts, p ≤ s) (hstarts : starts.Pairwise (· < ·)) {c : ι × List α} (hc : c ∈ cols) :
    (sweep window bounds starts left last).length ≤ c.2.length := by
  have hsorted : (sweep window bounds starts left last).Pairwise fun a b => a.1 < b.1 ∧ a.2 < b.2 :=
    (sweep_ascending bounds hstarts left last).1
  have hle : (p :: starts).Pairwise (· ≤ ·) := pairwise_cons.mpr ⟨hp, hstarts.imp le_of_lt⟩
  obtain ⟨pre, post, rfl⟩ := append_of_mem hc
  have : Nonempty α := ⟨p⟩
  have hitem : ∀ m ∈ sweep window bounds starts left last, ∃ x, x ∈ c.2 ∧ ∃ b, Chain window b x post m.2 := by
    intro m hm
    obtain ⟨b, -, hchain⟩ := sweep_chain hmono hlower hs hpassed hle m hm
    obtain ⟨x, hx, htail⟩ := hchain.through
    exact ⟨x, hx, b, htail⟩
  choose! item hmem hchain using hitem
  have hnodup : ((sweep window bounds starts left last).map item).Nodup := by
    refine List.Nodup.map_on (fun m hm m' hm' heq => ?_) (hsorted.imp fun h heq => absurd h.1 (by rw [heq]; exact lt_irrefl _))
    obtain ⟨b, hb⟩ := hchain m hm
    obtain ⟨b', hb'⟩ := hchain m' hm'
    have hends : m.2 = m'.2 := le_antisymm (hb.mono hmono hlower hb' heq.le) (hb'.mono hmono hlower hb heq.ge)
    have hdiff : ((sweep window bounds starts left last).map Prod.snd).Nodup :=
      pairwise_map.mpr (hsorted.imp fun h => h.2.ne)
    exact inj_on_of_nodup_map hdiff hm hm' hends
  have hsub : (sweep window bounds starts left last).map item ⊆ c.2 := by
    intro x hx
    obtain ⟨m, hm, rfl⟩ := mem_map.mp hx
    exact hmem m hm
  have hlen := (subperm_of_subset hnodup hsub).length_le
  rwa [length_map] at hlen

end Sweep

end GreedyWalk
