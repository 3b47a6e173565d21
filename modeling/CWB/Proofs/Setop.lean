import CWB.Library.Repeats
import CWB.Proofs.SetAlgebra
import CWB.Sanity.InitialMatchlist
import CWB.Sanity.Setop

/-! `Setop` is exact on lists that are not inverted: what the items of the result are in terms of the
items of its operands. The loops on vectors are compared with loops on lists of items first. -/

namespace CWB

open Option List

/-! The union of lists of items. -/

/-- The union of the items without the marked ones. -/
def itemUnion (as bs : List Match) : List Match :=
  SortedMerge.union Match.key (unmarked as) ((unmarked bs).map (·, true))

/-- The marked items are skipped, and the others are merged by start and end. Without end positions the
items are single tokens. -/
theorem setopUnionLoop_eq (ends : Bool) (as bs : List Match)
    (ha : ends = false → ∀ m ∈ as, m.stop = m.start) (hb : ends = false → ∀ m ∈ bs, m.stop = m.start) :
    setopUnionLoop ends as bs = itemUnion as bs := by
  refine setopUnionLoop_merge Match.key ends as bs fun a hma b hmb => ?_
  rw [key_lt_iff, key_lt_iff]
  unfold PairLt Match.pair
  cases ends with
  | true => simp
  | false =>
    have := ha rfl a hma
    have := hb rfl b hmb
    simp only [Bool.false_eq_true, false_and, and_false, or_false]
    omega

variable {l : MatchVectors}

namespace MatchVectors

variable {l1 l2 tmp : MatchVectors} {i j k : ℕ}

/-! The loop of the union on vectors. -/

/-- A loop that returns `res` has written the items to the vectors of `tmp` from `k` on. -/
def Writes (k : ℕ) (ms : List Match) (tmp : MatchVectors) (res : Option (ℕ × MatchVectors)) : Prop :=
  ∃ tmp', res = some (k + ms.length, tmp') ∧ tmp'.lengths = tmp.lengths ∧
    (tmp'.tabsize = tmp.tabsize ∧ tmp'.isInverted = tmp.isInverted) ∧
    tmp'.firstItems (k + ms.length) = tmp.firstItems k ++ ms.map tmp.project

/-- One copy, and the rest of the loop. -/
theorem Writes.copy {src : MatchVectors} {ms : List Match} {rest : MatchVectors → Option (ℕ × MatchVectors)}
    (hroom : tmp.Room (k + (src.item i :: ms).length)) (hr : tmp.Receives src)
    (ih : ∀ tmp', tmp'.lengths = tmp.lengths →
      (∀ p, tmp'.item p = if p = k then tmp.project (src.item i) else tmp.item p) →
      Writes (k + 1) ms tmp' (rest tmp')) :
    Writes k (src.item i :: ms) tmp ((tmp.copyItem src k i).bind rest) := by
  have hlen : k + (src.item i :: ms).length = k + 1 + ms.length := by
    rw [length_cons]
    omega
  obtain ⟨tmp1, hcopy, hl, ht, hitem⟩ := copyItem_spec (k := k) (hlen ▸ hroom) (Nat.lt_add_right _ k.lt_succ_self) hr i
  obtain ⟨tmp', hrest, hl', ht', hfirst⟩ := ih tmp1 hl hitem
  refine ⟨tmp', by rw [hcopy, bind_some, hrest, hlen], hl'.trans hl, ⟨ht'.1.trans ht.1, ht'.2.trans ht.2⟩, ?_⟩
  have hbefore : tmp1.firstItems k = tmp.firstItems k := firstItems_congr fun p hp => by rw [hitem, if_neg (by omega)]
  have hnew : tmp1.item k = tmp.project (src.item i) := by rw [hitem, if_pos rfl]
  rw [hlen, hfirst, firstItems_succ, hbefore, hnew, project_of_lengths hl, append_assoc]
  rfl

theorem setopUnionLoop_marked_left {ends : Bool} {a : Match} (h : a.start = -1) (as bs : List Match) :
    setopUnionLoop ends (a :: as) bs = setopUnionLoop ends as bs := by
  cases bs <;> rw [setopUnionLoop, if_pos h]

theorem setopUnionLoop_marked_right {ends : Bool} {b : Match} (h : b.start = -1) {as : List Match}
    (ha : ∀ a ∈ as.head?, ¬a.start = -1) (bs : List Match) :
    setopUnionLoop ends as (b :: bs) = setopUnionLoop ends as bs := by
  cases as with
  | nil => rw [setopUnionLoop, if_pos h]
  | cons a as => rw [setopUnionLoop, if_neg (ha a rfl), if_pos h]

/-- What is still to be copied at the positions `i` and `j`. -/
def unionRest (l1 l2 : MatchVectors) (ends : Bool) (i j : ℕ) : List Match :=
  setopUnionLoop ends (l1.items.drop i) (l2.items.drop j)

theorem item_stop (h : l.stop.isSome = true) (i : ℕ) : (l.item i).stop = l.stopAt i := if_pos h

/-- The loop meets two unmarked items with one start. -/
theorem same_starts (hleft : ¬(i < l1.tabsize ∧ l1.startAt i = -1)) (hright : ¬(j < l2.tabsize ∧ l2.startAt j = -1))
    (hfirst : ¬(j ≥ l2.tabsize ∨ i < l1.tabsize ∧ l1.startAt i < l2.startAt j))
    (hsecond : ¬(i ≥ l1.tabsize ∨ l1.startAt i > l2.startAt j)) :
    i < l1.tabsize ∧ j < l2.tabsize ∧ ¬(l1.item i).start = -1 ∧ ¬(l2.item j).start = -1 ∧
      ¬(l1.item i).start < (l2.item j).start ∧ ¬(l1.item i).start > (l2.item j).start := by
  have hi : i < l1.tabsize := by omega
  have hj : j < l2.tabsize := by omega
  exact ⟨hi, hj, fun h => hleft ⟨hi, h⟩, fun h => hright ⟨hj, h⟩, fun h => hfirst (.inr ⟨hi, h⟩),
    fun h => hsecond (.inr h)⟩

theorem stops_differ (h1 : tmp.Receives l1) (h2 : tmp.Receives l2)
    (hsame : ¬(tmp.stop.isNone = true ∨ l1.stopAt i = l2.stopAt j)) :
    tmp.stop.isSome = true ∧ ¬(l1.item i).stop = (l2.item j).stop := by
  obtain ⟨hnone, hne⟩ := not_or.mp hsame
  have hs : tmp.stop.isSome = true := by
    rw [isSome_iff_ne_none]
    exact fun h => hnone (by rw [h, isNone_none])
  rw [item_stop (h1.stop hs), item_stop (h2.stop hs)]
  exact ⟨hs, hne⟩

theorem unionLoop_writes (i j k : ℕ) (tmp : MatchVectors)
    (hroom : tmp.Room (k + (unionRest l1 l2 tmp.stop.isSome i j).length)) (h1 : tmp.Receives l1)
    (h2 : tmp.Receives l2) :
    Writes k (unionRest l1 l2 tmp.stop.isSome i j) tmp (unionLoop l1 l2 i j k tmp) := by
  -- the vectors keep their lengths, so the assumptions hold again after a copy
  have again : ∀ {i j k : ℕ} {tmp tmp' : MatchVectors}, tmp'.lengths = tmp.lengths → tmp.Receives l1 → tmp.Receives l2 →
      tmp.Room (k + 1 + (unionRest l1 l2 tmp.stop.isSome i j).length) →
      (tmp'.Room (k + 1 + (unionRest l1 l2 tmp'.stop.isSome i j).length) → tmp'.Receives l1 → tmp'.Receives l2 →
        Writes (k + 1) (unionRest l1 l2 tmp'.stop.isSome i j) tmp' (unionLoop l1 l2 i j (k + 1) tmp')) →
      Writes (k + 1) (unionRest l1 l2 tmp.stop.isSome i j) tmp' (unionLoop l1 l2 i j (k + 1) tmp') := by
    intro i j k tmp tmp' hl h1 h2 hroom ih
    rw [(isSome_of_lengths hl).2.1] at ih
    exact ih (hroom.of_lengths hl) (h1.of_lengths hl) (h2.of_lengths hl)
  have room : ∀ {k : ℕ} {tmp : MatchVectors} {m : Match} {ms : List Match}, tmp.Room (k + (m :: ms).length) →
      tmp.Room (k + 1 + ms.length) := by
    intro k tmp m ms h
    rwa [length_cons, ← Nat.add_assoc, Nat.add_right_comm] at h
  induction i, j, k, tmp using unionLoop.induct l1 l2 with
  | case1 i j k tmp hgo hmark ih =>
    have hrest : unionRest l1 l2 tmp.stop.isSome i j = unionRest l1 l2 tmp.stop.isSome (i + 1) j := by
      rw [unionRest, drop_items hmark.1]
      exact setopUnionLoop_marked_left hmark.2 _ _
    rw [unionLoop, if_pos hgo, if_pos hmark]
    rw [hrest] at hroom ⊢
    exact ih hroom h1 h2
  | case2 i j k tmp hgo hleft hmark ih =>
    have hhead : ∀ a ∈ (l1.items.drop i).head?, ¬a.start = -1 := by
      intro a ha hmarked
      by_cases hi : i < l1.tabsize
      · rw [drop_items hi] at ha
        obtain rfl := some.inj ha
        exact hleft ⟨hi, hmarked⟩
      · rw [drop_items_nil (not_lt.mp hi)] at ha
        exact absurd ha (by simp)
    have hrest : unionRest l1 l2 tmp.stop.isSome i j = unionRest l1 l2 tmp.stop.isSome i (j + 1) := by
      rw [unionRest, drop_items hmark.1]
      exact setopUnionLoop_marked_right hmark.2 hhead _
    rw [unionLoop, if_pos hgo, if_neg hleft, if_pos hmark]
    rw [hrest] at hroom ⊢
    exact ih hroom h1 h2
  | case3 i j k tmp hgo hleft hright hfirst ih =>
    -- an item of the left list comes first
    have hi : i < l1.tabsize := by omega
    have ha : ¬(l1.item i).start = -1 := fun h => hleft ⟨hi, h⟩
    have hrest : unionRest l1 l2 tmp.stop.isSome i j = l1.item i :: unionRest l1 l2 tmp.stop.isSome (i + 1) j := by
      unfold unionRest
      rw [drop_items hi]
      by_cases hj : j < l2.tabsize
      · have hlt : (l1.item i).start < (l2.item j).start := (hfirst.resolve_left (by omega)).2
        have hb : ¬(l2.item j).start = -1 := fun h => hright ⟨hj, h⟩
        rw [drop_items hj, setopUnionLoop, if_neg ha, if_neg hb, if_pos hlt]
      · rw [drop_items_nil (not_lt.mp hj), setopUnionLoop, if_neg ha]
    rw [unionLoop, if_pos hgo, if_neg hleft, if_neg hright, if_pos hfirst]
    rw [hrest] at hroom ⊢
    exact Writes.copy hroom h1 fun tmp' hl _ => again hl h1 h2 (room hroom) (ih tmp')
  | case4 i j k tmp hgo hleft hright hfirst hsecond ih =>
    -- an item of the right list comes first
    have hj : j < l2.tabsize := by omega
    have hb : ¬(l2.item j).start = -1 := fun h => hright ⟨hj, h⟩
    have hrest : unionRest l1 l2 tmp.stop.isSome i j = l2.item j :: unionRest l1 l2 tmp.stop.isSome i (j + 1) := by
      unfold unionRest
      rw [drop_items hj]
      by_cases hi : i < l1.tabsize
      · have hgt : (l1.item i).start > (l2.item j).start := hsecond.resolve_left (by omega)
        have ha : ¬(l1.item i).start = -1 := fun h => hleft ⟨hi, h⟩
        rw [drop_items hi, setopUnionLoop, if_neg ha, if_neg hb, if_neg (by omega), if_pos hgt]
      · rw [drop_items_nil (not_lt.mp hi), setopUnionLoop, if_neg hb]
    rw [unionLoop, if_pos hgo, if_neg hleft, if_neg hright, if_neg hfirst, if_pos hsecond]
    rw [hrest] at hroom ⊢
    exact Writes.copy hroom h2 fun tmp' hl _ => again hl h1 h2 (room hroom) (ih tmp')
  | case5 i j k tmp hgo hleft hright hfirst hsecond hsame ih =>
    obtain ⟨hi, hj, ha, hb, hlt, hgt⟩ := same_starts hleft hright hfirst hsecond
    have he : (!tmp.stop.isSome || decide ((l1.item i).stop = (l2.item j).stop)) = true := by
      by_cases hstop : tmp.stop.isSome = true
      · have heq := hsame.resolve_left (by simpa using isSome_iff_ne_none.mp hstop)
        rw [item_stop (h1.stop hstop), item_stop (h2.stop hstop), decide_eq_true heq, Bool.or_true]
      · simp [hstop]
    have hrest : unionRest l1 l2 tmp.stop.isSome i j = l1.item i :: unionRest l1 l2 tmp.stop.isSome (i + 1) (j + 1) := by
      unfold unionRest
      rw [drop_items hi, drop_items hj, setopUnionLoop, if_neg ha, if_neg hb, if_neg hlt, if_neg hgt, if_pos he]
    rw [unionLoop, if_pos hgo, if_neg hleft, if_neg hright, if_neg hfirst, if_neg hsecond, if_pos hsame]
    rw [hrest] at hroom ⊢
    exact Writes.copy hroom h1 fun tmp' hl _ => again hl h1 h2 (room hroom) (ih tmp')
  | case6 i j k tmp hgo hleft hright hfirst hsecond hsame hstop ih =>
    obtain ⟨hi, hj, ha, hb, hlt, hgt⟩ := same_starts hleft hright hfirst hsecond
    obtain ⟨hs, hne⟩ := stops_differ h1 h2 hsame
    have hless : (l1.item i).stop < (l2.item j).stop := by
      rwa [item_stop (h1.stop hs), item_stop (h2.stop hs)]
    have hrest : unionRest l1 l2 tmp.stop.isSome i j = l1.item i :: unionRest l1 l2 tmp.stop.isSome (i + 1) j := by
      unfold unionRest
      rw [drop_items hi, drop_items hj, setopUnionLoop, if_neg ha, if_neg hb, if_neg hlt, if_neg hgt,
        if_neg (by simp [hs, hne]), if_pos hless]
    rw [unionLoop, if_pos hgo, if_neg hleft, if_neg hright, if_neg hfirst, if_neg hsecond, if_neg hsame, if_pos hstop]
    rw [hrest] at hroom ⊢
    exact Writes.copy hroom h1 fun tmp' hl _ => again hl h1 h2 (room hroom) (ih tmp')
  | case7 i j k tmp hgo hleft hright hfirst hsecond hsame hstop ih =>
    obtain ⟨hi, hj, ha, hb, hlt, hgt⟩ := same_starts hleft hright hfirst hsecond
    obtain ⟨hs, hne⟩ := stops_differ h1 h2 hsame
    have hless : ¬(l1.item i).stop < (l2.item j).stop := by
      rwa [item_stop (h1.stop hs), item_stop (h2.stop hs)]
    have hrest : unionRest l1 l2 tmp.stop.isSome i j = l2.item j :: unionRest l1 l2 tmp.stop.isSome i (j + 1) := by
      unfold unionRest
      rw [drop_items hi, drop_items hj, setopUnionLoop, if_neg ha, if_neg hb, if_neg hlt, if_neg hgt,
        if_neg (by simp [hs, hne]), if_neg hless]
    rw [unionLoop, if_pos hgo, if_neg hleft, if_neg hright, if_neg hfirst, if_neg hsecond, if_neg hsame, if_neg hstop]
    rw [hrest] at hroom ⊢
    exact Writes.copy hroom h2 fun tmp' hl _ => again hl h1 h2 (room hroom) (ih tmp')
  | case8 i j k tmp hgo =>
    have hrest : unionRest l1 l2 tmp.stop.isSome i j = [] := by
      unfold unionRest
      rw [drop_items_nil (by omega), drop_items_nil (by omega), setopUnionLoop]
    rw [unionLoop, if_neg hgo, hrest]
    exact ⟨tmp, rfl, rfl, ⟨rfl, rfl⟩, by simp⟩

/-- The list has the vectors of `l`. -/
structure SameVectors (l' l : MatchVectors) : Prop where
  stop : l'.stop.isSome = l.stop.isSome
  target : l'.targetPositions.isSome = l.targetPositions.isSome
  keyword : l'.keywordPositions.isSome = l.keywordPositions.isSome

/-- A loop has written all items of the result, and the vectors are cut. -/
theorem Writes.realloc {ms : List Match} {res : Option (ℕ × MatchVectors)} (h : Writes 0 ms l res)
    (ha : l.Aligned) (hi : l.isInverted = false) (hlen : ms.length ≤ l.tabsize) :
    ∃ tmp, res = some (ms.length, tmp) ∧ ms.length ≤ tmp.tabsize ∧ (tmp.realloc ms.length).Aligned ∧
      (tmp.realloc ms.length).isInverted = false ∧ (tmp.realloc ms.length).items = ms.map l.project ∧
      (ms ≠ [] → (tmp.realloc ms.length).SameVectors l) := by
  obtain ⟨tmp, hres, hl, ⟨ht, hti⟩, hfirst⟩ := h
  rw [Nat.zero_add] at hres hfirst
  obtain ⟨haligned, hitems⟩ := realloc_spec (ha.of_lengths hl ht) (ht ▸ hlen)
  refine ⟨tmp, hres, ht ▸ hlen, haligned, realloc_isInverted (hti.trans hi), ?_, fun hne => ?_⟩
  · rw [hitems, hfirst]
    rfl
  · obtain ⟨-, h2, h3, h4⟩ := realloc_isSome (l := tmp) (k := ms.length) (by simpa using hne)
    obtain ⟨-, h2', h3', h4'⟩ := isSome_of_lengths hl
    exact ⟨h2.trans h2', h3.trans h3', h4.trans h4'⟩

/-- The list has the vectors that both lists have. -/
structure SharedVectors (l l1 l2 : MatchVectors) : Prop where
  stop : l.stop.isSome = (l1.stop.isSome && l2.stop.isSome)
  target : l.targetPositions.isSome = (l1.targetPositions.isSome && l2.targetPositions.isSome)
  keyword : l.keywordPositions.isSome = (l1.keywordPositions.isSome && l2.keywordPositions.isSome)

theorem unionItems_spec (l1 l2 : MatchVectors) :
    ∃ l, unionItems l1 l2 = some l ∧ l.Aligned ∧ l.isInverted = false ∧
      l.items = (setopUnionLoop (l1.stop.isSome && l2.stop.isSome) l1.items l2.items).map (shared l1 l2) ∧
      (l.items ≠ [] → l.SharedVectors l1 l2) := by
  have haligned := allocate_aligned l1 l2 (l1.tabsize + l2.tabsize)
  obtain ⟨hr1, hr2⟩ := allocate_receives l1 l2 (l1.tabsize + l2.tabsize)
  obtain ⟨-, hstop, htarget, hkeyword⟩ := allocate_isSome l1 l2 (l1.tabsize + l2.tabsize)
  have hrest : unionRest l1 l2 (allocate l1 l2 (l1.tabsize + l2.tabsize)).stop.isSome 0 0 =
      setopUnionLoop (l1.stop.isSome && l2.stop.isSome) l1.items l2.items := by
    rw [unionRest, hstop, drop_zero, drop_zero]
  -- the size computed in advance is enough
  have hlen : (setopUnionLoop (l1.stop.isSome && l2.stop.isSome) l1.items l2.items).length ≤ l1.tabsize + l2.tabsize := by
    have h := length_setopUnionLoop (l1.stop.isSome && l2.stop.isSome) l1.items l2.items
    rwa [items, items, length_firstItems, length_firstItems] at h
  have hwrites := unionLoop_writes 0 0 0 _ (haligned.room.mono (by rwa [hrest, Nat.zero_add])) hr1 hr2
  rw [hrest] at hwrites
  obtain ⟨tmp, hres, hle, ha, hi, hitems, hsame⟩ := hwrites.realloc haligned rfl hlen
  rw [allocate_project] at hitems
  refine ⟨_, ?_, ha, hi, hitems, fun hne => ?_⟩
  · unfold unionItems
    rw [hres, bind_eq_bind, bind_some]
    exact if_pos hle
  · obtain ⟨h1, h2, h3⟩ := hsame fun hnil => hne (by rw [hitems, hnil, map_nil])
    exact ⟨h1.trans hstop, h2.trans htarget, h3.trans hkeyword⟩

/-! `Setop(Union)` -/

/-- The items ascend strictly by start and end, apart from the marked ones. -/
def Ascending (l : MatchVectors) : Prop := ((unmarked l.items).map Match.pair).Pairwise PairLt

/-- The list is the union of the unmarked items of `l` and `l'`, common items being those of `l`. -/
structure UnionOf (u l l' : MatchVectors) : Prop where
  aligned : u.Aligned
  isInverted : u.isInverted = false
  vectors : u.items ≠ [] → u.SharedVectors l l'
  ascending : (u.items.map Match.pair).Pairwise PairLt
  mem : ∀ m, m ∈ u.items ↔ m ∈ (unmarked l.items).map (shared l l') ∨
    (m ∈ (unmarked l'.items).map (shared l l') ∧ ∀ a ∈ unmarked l.items, a.pair ≠ m.pair)

theorem Ascending.sorted (h : l.Ascending) : SortedMerge.Ascending Match.key (unmarked l.items) :=
  (pairwise_map.mp h).imp key_lt_iff.mpr

/-- An initial list has items of one token. -/
theorem stop_eq_start (h : l.stop.isSome = false) {m : Match} (hm : m ∈ l.items) : m.stop = m.start := by
  obtain ⟨i, -, rfl⟩ := mem_map.mp hm
  exact if_neg (by simp [h])

/-- Lists of one kind have the ends of their items in the vectors that they share. -/
theorem shared_pair {l' : MatchVectors} (hkind : l.stop.isSome = l'.stop.isSome) {m : Match}
    (hm : m ∈ l.items ∨ m ∈ l'.items) : (shared l l' m).pair = m.pair := by
  have hstop : (shared l l' m).stop = m.stop := by
    by_cases h : l.stop.isSome = true
    · exact if_pos (by rw [← hkind, h]; rfl)
    · have h0 : l.stop.isSome = false := by simpa using h
      have hsingle : m.stop = m.start := hm.elim (stop_eq_start h0) (stop_eq_start (hkind ▸ h0))
      exact (if_neg (by simp [h0])).trans hsingle.symm
  exact Prod.ext rfl hstop

theorem unionItems_exact {l' : MatchVectors} (hkind : l.stop.isSome = l'.stop.isSome) (hs : l.Ascending)
    (hs' : l'.Ascending) : ∃ u, unionItems l l' = some u ∧ u.UnionOf l l' := by
  obtain ⟨u, hu, haligned, hi, hitems, hvectors⟩ := unionItems_spec l l'
  have hsingle : ∀ {l : MatchVectors}, l.stop.isSome = false → ∀ m ∈ l.items, m.stop = m.start :=
    fun h m hm => stop_eq_start h hm
  rw [← hkind, Bool.and_self, setopUnionLoop_eq _ _ _ hsingle fun h => hsingle (hkind ▸ h)] at hitems
  have hright : SortedMerge.Ascending Match.key (((unmarked l'.items).map fun m => (m, true)).map Prod.fst) := by
    rw [List.map_map]
    exact (map_id (unmarked l'.items)).symm ▸ hs'.sorted
  have hmem : ∀ x, x ∈ itemUnion l.items l'.items ↔ x ∈ unmarked l.items ∨
      (x ∈ unmarked l'.items ∧ ∀ a ∈ unmarked l.items, a.pair ≠ x.pair) := by
    intro x
    have hx := SortedMerge.mem_union hs.sorted hright x
    simpa [itemUnion, Match.key] using hx
  -- every item of the union belongs to one of the lists, so it keeps its start and end
  have hpair : ∀ x ∈ itemUnion l.items l'.items, (shared l l' x).pair = x.pair := by
    intro x hx
    refine shared_pair hkind ?_
    rcases (hmem x).mp hx with h | h
    · exact .inl (mem_filter.mp h).1
    · exact .inr (mem_filter.mp h.1).1
  refine ⟨u, hu, haligned, hi, hvectors, ?_, fun m => ?_⟩
  · have hpairs : u.items.map Match.pair = (itemUnion l.items l'.items).map Match.pair := by
      rw [hitems, List.map_map]
      exact map_congr_left hpair
    rw [hpairs]
    exact pairwise_map.mpr ((SortedMerge.ascending_union hs.sorted hright).imp key_lt_iff.mp)
  · rw [hitems, List.mem_map, List.mem_map, List.mem_map]
    refine ⟨?_, ?_⟩
    · rintro ⟨x, hx, rfl⟩
      rw [hpair x hx]
      rcases (hmem x).mp hx with h | h
      · exact .inl ⟨x, h, rfl⟩
      · exact .inr ⟨⟨x, h.1, rfl⟩, h.2⟩
    · rintro (⟨x, hx, rfl⟩ | ⟨⟨x, hx, rfl⟩, hnot⟩)
      · exact ⟨x, (hmem x).mpr (.inl hx), rfl⟩
      · rw [shared_pair hkind (.inr (mem_filter.mp hx).1)] at hnot
        exact ⟨x, (hmem x).mpr (.inr ⟨hx, hnot⟩), rfl⟩

theorem Aligned.take (h : l.Aligned) {vec : Option (List ℤ)} (hvec : vec.map List.length ∈ l.lengths) :
    vec.map (·.take l.tabsize) = vec := by
  cases vec with
  | none => rfl
  | some v => exact congrArg some (take_of_length_le (h.length v.length hvec).le)

theorem Aligned.identity (h : l.Aligned) : l.identity = l := by
  unfold MatchVectors.identity
  rw [h.take (by simp [lengths]), h.take (by simp [lengths]), h.take (by simp [lengths]), h.take (by simp [lengths])]

/-! The loop of `Uniq` and `Reduce`. -/

/-- The items that pass a test which may look at the one that passed last. -/
def passing (test : Option Match → Match → Bool) : Option Match → List Match → List Match
  | _, [] => []
  | last, a :: as => if test last a then a :: passing test (some a) as else passing test last as

theorem passing_sublist (test : Option Match → Match → Bool) (last : Option Match) (as : List Match) :
    (passing test last as).Sublist as := by
  induction as generalizing last with
  | nil => exact List.Sublist.slnil
  | cons a as ih =>
    rw [passing]
    split_ifs
    · exact (ih _).cons_cons a
    · exact (ih _).cons a

theorem passing_eq_filter (test : Match → Bool) (last : Option Match) (as : List Match) :
    passing (fun _ => test) last as = as.filter test := by
  induction as generalizing last with
  | nil => rfl
  | cons a as ih =>
    rw [passing, filter_cons, ih, ih]

/-- The item before the insertion point. -/
def last (l : MatchVectors) (ins : ℕ) : Option Match := if ins = 0 then none else some (l.item (ins - 1))

/-- The items are moved down over those that are passed over; what has not been read yet is still there. -/
theorem moveLoop_writes {test : MatchVectors → ℕ → ℕ → Bool} {test' : Option Match → Match → Bool}
    (htest : ∀ l i ins, test l i ins = test' (l.last ins) (l.item i)) (n i ins : ℕ) (l : MatchVectors)
    (hroom : l.Room (i + n)) (hle : ins ≤ i) (hs : l.start ≠ none) :
    Writes ins (passing test' (l.last ins) ((range' i n).map l.item)) l (moveLoop test n i ins l) := by
  induction n generalizing i ins l with
  | zero => exact ⟨l, rfl, rfl, ⟨rfl, rfl⟩, by simp [passing]⟩
  | succ n ih =>
    rw [moveLoop, htest, range'_succ, map_cons, passing]
    by_cases h : test' (l.last ins) (l.item i) = true
    · rw [if_pos h, if_pos h]
      have hlen := (passing_sublist test' (some (l.item i)) ((range' (i + 1) n).map l.item)).length_le
      rw [length_map, length_range'] at hlen
      refine Writes.copy (hroom.mono ?_) (Aligned.receives hs) fun tmp' hl hitem => ?_
      · rw [length_cons]
        omega
      have hlast : tmp'.last (ins + 1) = some (l.item i) := by
        rw [last, if_neg (Nat.succ_ne_zero ins), Nat.add_sub_cancel, hitem, if_pos rfl, project_item]
      have hrest : (range' (i + 1) n).map tmp'.item = (range' (i + 1) n).map l.item := by
        refine map_congr_left fun p hp => ?_
        have hlt := (mem_range'_1.mp hp).1
        rw [hitem, if_neg (by omega)]
      have hs' : tmp'.start ≠ none := by
        rw [← isSome_iff_ne_none, (isSome_of_lengths hl).1, isSome_iff_ne_none]
        exact hs
      have hmoved := ih (i + 1) (ins + 1) tmp' ((hroom.of_lengths hl).mono (by omega)) (by omega) hs'
      rwa [hlast, hrest] at hmoved
    · rw [if_neg h, if_neg h]
      exact ih (i + 1) ins l (hroom.mono (by omega)) (by omega) hs

/-- What both loops leave of a list that is not empty. -/
theorem moveLoop_spec (h : l.Aligned) (hi : l.isInverted = false) (hs : l.start ≠ none)
    (test : MatchVectors → ℕ → ℕ → Bool) (test' : Option Match → Match → Bool)
    (htest : ∀ l i ins, test l i ins = test' (l.last ins) (l.item i)) :
    ∃ tmp, moveLoop test l.tabsize 0 0 l = some ((passing test' none l.items).length, tmp) ∧
      (tmp.realloc (passing test' none l.items).length).Aligned ∧
      (tmp.realloc (passing test' none l.items).length).isInverted = false ∧
      (tmp.realloc (passing test' none l.items).length).items = passing test' none l.items ∧
      (passing test' none l.items ≠ [] → (tmp.realloc (passing test' none l.items).length).SameVectors l) := by
  have hitems : (range' 0 l.tabsize).map l.item = l.items := by
    rw [← range_eq_range']
    rfl
  have hwrites := moveLoop_writes htest l.tabsize 0 0 l (h.room.mono (Nat.zero_add _).le) le_rfl hs
  rw [hitems] at hwrites
  have hlen : (passing test' none l.items).length ≤ l.tabsize := by
    have hle := (passing_sublist test' none l.items).length_le
    rwa [items, length_firstItems] at hle
  have hproject : (passing test' none l.items).map l.project = passing test' none l.items := by
    refine (map_congr_left fun m hm => ?_).trans (map_id _)
    obtain ⟨i, -, rfl⟩ := mem_map.mp ((passing_sublist test' none l.items).subset hm)
    exact project_item l i
  obtain ⟨tmp, hres, -, ha, hinv, hout, hsame⟩ := hwrites.realloc h hi hlen
  exact ⟨tmp, hres, ha, hinv, hout.trans hproject, hsame⟩

/-! `Setop(Reduce)` -/

theorem items_nil (h : l.tabsize = 0) : l.items = [] := by
  rw [items, h]
  rfl

theorem reduce_spec (h : l.Aligned) (hi : l.isInverted = false) :
    ∃ r, l.reduce = some (true, r) ∧ r.Aligned ∧ r.isInverted = false ∧ r.items = unmarked l.items ∧ (r.items ≠ [] → r.SameVectors l) := by
  unfold reduce
  split_ifs with hgo
  · obtain ⟨tmp, hres, ha, hinv, hitems, hsame⟩ := moveLoop_spec h hi hgo.1 isUnmarked (fun _ m => m.start ≠ -1) fun _ _ _ => rfl
    rw [passing_eq_filter] at hres ha hinv hitems hsame
    rw [hres, bind_eq_bind, bind_some]
    change ∃ r, (if (unmarked l.items).length = 0 then _ else _) = _ ∧ _
    split_ifs with hnone
    · have hnil : unmarked l.items = [] := length_eq_zero_iff.mp hnone
      refine ⟨{}, rfl, ⟨fun n hn => absurd hn (by simp [lengths]), fun _ => rfl⟩, rfl, ?_, fun hne => absurd rfl hne⟩
      rw [hnil]
      rfl
    · refine ⟨_, rfl, ha, hinv, hitems, fun hne => hsame fun hnil => hne ?_⟩
      rw [hitems, hnil]
  · have hzero : l.tabsize = 0 := by
      by_contra hpos
      exact hgo ⟨fun hnull => hpos (h.null hnull), Nat.pos_of_ne_zero hpos⟩
    refine ⟨l, rfl, h, hi, ?_, fun _ => ⟨rfl, rfl, rfl⟩⟩
    rw [items_nil hzero]
    rfl

/-! `Setop(Uniq)` -/

/-- An item is passed over if it has the start and end of the one before. -/
def differs : Option Match → Match → Bool
  | none, _ => true
  | some b, a => a.pair ≠ b.pair

theorem isNew_eq (l : MatchVectors) (i ins : ℕ) : isNew l i ins = differs (l.last ins) (l.item i) := by
  unfold isNew last
  by_cases h : ins = 0
  · simp [h, differs]
  · by_cases hs : l.stop.isSome = true
    · simp [h, differs, item, Match.pair, hs]
    · simp [h, differs, item, Match.pair, hs]

theorem passing_differs_some (b : Match) (as : List Match) :
    b :: passing differs (some b) as = as.destutter' (fun a b => a.pair ≠ b.pair) b := by
  induction as generalizing b with
  | nil => rfl
  | cons a as ih =>
    rw [passing, destutter'_cons, ← ih a, ← ih b]
    by_cases h : a.pair = b.pair
    · rw [if_neg (by simp [differs, h]), if_neg (not_not.mpr h.symm)]
    · rw [if_pos (by simp [differs, h]), if_pos (Ne.symm h)]

theorem passing_differs (as : List Match) : passing differs none as = as.destutter fun a b => a.pair ≠ b.pair := by
  cases as with
  | nil => rfl
  | cons a as => exact passing_differs_some a as

theorem uniq_spec (h : l.Aligned) (hi : l.isInverted = false) :
    ∃ u, l.uniq = some (true, u) ∧ u.Aligned ∧ u.isInverted = false ∧ u.items = (l.items.destutter fun a b => a.pair ≠ b.pair) ∧
      (u.items ≠ [] → u.SameVectors l) := by
  unfold uniq
  split_ifs with hgo
  · obtain ⟨tmp, hres, ha, hinv, hitems, hsame⟩ := moveLoop_spec h hi hgo.1 isNew differs isNew_eq
    rw [hres, bind_eq_bind, bind_some]
    refine ⟨_, rfl, ha, hinv, hitems.trans (passing_differs _), fun hne => hsame fun hnil => hne ?_⟩
    rw [hitems, hnil]
  · have hzero : l.tabsize = 0 := by
      by_contra hpos
      exact hgo ⟨fun hnull => hpos (h.null hnull), Nat.pos_of_ne_zero hpos⟩
    refine ⟨l, rfl, h, hi, ?_, fun _ => ⟨rfl, rfl, rfl⟩⟩
    rw [items_nil hzero]
    rfl

/-- Of an ascending list every start and end is left once. -/
theorem destutter_ascending {l : List Match} (h : (l.map Match.pair).Pairwise fun p q => ¬PairLt q p) :
    ((l.destutter fun a b => a.pair ≠ b.pair).map Match.pair).Pairwise PairLt ∧
      ∀ p, p ∈ (l.destutter fun a b => a.pair ≠ b.pair).map Match.pair ↔ p ∈ l.map Match.pair := by
  have hmap : (l.destutter fun a b => a.pair ≠ b.pair).map Match.pair = (l.map Match.pair).destutter (· ≠ ·) :=
    map_destutter fun _ _ _ _ => Iff.rfl
  have hkey : ((l.map Match.pair).destutter (· ≠ ·)).map toLex = (l.map Match.key).destutter (· ≠ ·) := by
    rw [map_destutter_ne _ toLex.injective, List.map_map]
    rfl
  refine ⟨?_, fun p => ?_⟩
  · have hsorted : (l.map Match.key).Pairwise (· ≤ ·) := by
      refine pairwise_map.mpr ((pairwise_map.mp h).imp fun hnot => ?_)
      exact not_lt.mp fun hlt => hnot (key_lt_iff.mp hlt)
    have hlt := (Repeats.pairwise_lt_destutter_iff _).mpr hsorted
    rw [← hkey] at hlt
    rw [hmap]
    exact (pairwise_map.mp hlt).imp Prod.Lex.toLex_lt_toLex.mp
  · rw [hmap, Repeats.mem_destutter]

/-! `Setop(Complement)` -/

def positions (l : MatchVectors) : List ℤ := l.items.map Match.start

theorem length_positions (l : MatchVectors) : l.positions.length = l.tabsize := by
  rw [positions, length_map, items, length_firstItems]

theorem drop_positions {j : ℕ} (h : j < l.tabsize) :
    l.positions.drop j = l.startAt j :: l.positions.drop (j + 1) := by
  rw [positions, ← map_drop, drop_items h, map_cons, map_drop]
  rfl

/-- The initial list of the given positions. -/
theorem positions_ofStart (l : List ℤ) (b : Bool) :
    ({ start := some l, tabsize := l.length, matchesWholeCorpus := b } : MatchVectors).positions = l := by
  refine ext_getElem (length_positions _) fun i h1 h2 => ?_
  simp [positions, items, firstItems, item, startAt, valueAt, h2]

theorem aligned_ofStart (l : List ℤ) (b : Bool) :
    ({ start := some l, tabsize := l.length, matchesWholeCorpus := b } : MatchVectors).Aligned :=
  ⟨fun n hn => by simpa [lengths] using hn, fun h => absurd h (by simp)⟩

/-- One position written, and the rest of the loop. -/
theorem write_position {k : ℤ} {out tmp : List ℤ} {rest : List ℤ → Option (ℕ × List ℤ)} {t : ℕ}
    (hroom : t + (k :: out).length ≤ tmp.length)
    (hrest : ∃ tmp', rest (tmp.set t k) = some (t + 1 + out.length, tmp') ∧ tmp'.length = (tmp.set t k).length ∧
      tmp'.take (t + 1 + out.length) = (tmp.set t k).take (t + 1) ++ out) :
    ∃ tmp', (if t < tmp.length then rest (tmp.set t k) else none) = some (t + (k :: out).length, tmp') ∧
      tmp'.length = tmp.length ∧ tmp'.take (t + (k :: out).length) = tmp.take t ++ k :: out := by
  obtain ⟨tmp', hres, hlen, htake⟩ := hrest
  have ht : t < tmp.length := by
    rw [length_cons] at hroom
    omega
  have hcount : t + (k :: out).length = t + 1 + out.length := by
    rw [length_cons]
    omega
  rw [if_pos ht, hcount]
  refine ⟨tmp', hres, by rw [hlen, length_set], ?_⟩
  rw [htake, UnionVectors.take_set_succ ht, append_assoc]
  rfl

/-- The loop on vectors writes what the one on lists returns. -/
theorem complementLoop_writes (l : MatchVectors) (n : ℕ) (k : ℤ) (j t : ℕ) (tmp out : List ℤ)
    (h : CWB.complementLoop n k (l.positions.drop j) = some out) (hroom : t + out.length ≤ tmp.length) :
    ∃ tmp', l.complementLoop n k j t tmp = some (t + out.length, tmp') ∧ tmp'.length = tmp.length ∧
      tmp'.take (t + out.length) = tmp.take t ++ out := by
  induction n generalizing k j t tmp out with
  | zero =>
    obtain rfl := some.inj h
    exact ⟨tmp, rfl, rfl, (append_nil _).symm⟩
  | succ n ih =>
    have hset : ∀ {out' : List ℤ}, t + (k :: out').length ≤ tmp.length → t + 1 + out'.length ≤ (tmp.set t k).length := by
      intro out' h
      rw [length_cons] at h
      rw [length_set]
      omega
    rw [complementLoop]
    by_cases hj : j < l.tabsize
    · rw [drop_positions hj, CWB.complementLoop] at h
      split_ifs at h with hlt heq
      · obtain ⟨out', hout, heq⟩ := bind_eq_some_iff.mp h
        obtain rfl := some.inj heq
        rw [if_pos (.inr hlt)]
        rw [← drop_positions hj] at hout
        exact write_position hroom (ih (k + 1) j (t + 1) (tmp.set t k) out' hout (hset hroom))
      · rw [if_neg (by omega), if_pos heq]
        exact ih (k + 1) (j + 1) t tmp out h hroom
    · have hnil : l.positions.drop j = [] := drop_eq_nil_of_le (by rw [length_positions]; omega)
      rw [hnil, CWB.complementLoop] at h
      obtain ⟨out', hout, heq⟩ := bind_eq_some_iff.mp h
      obtain rfl := some.inj heq
      rw [if_pos (.inl (not_lt.mp hj))]
      rw [← hnil] at hout
      exact write_position hroom (ih (k + 1) j (t + 1) (tmp.set t k) out' hout (hset hroom))

/-- The list holds all positions of the corpus that are not in `l`, and nothing else. -/
structure ComplementOf (c l : MatchVectors) (n : ℕ) : Prop where
  aligned : c.Aligned
  isInverted : c.isInverted = false
  initial : c.stop = none ∧ c.targetPositions = none ∧ c.keywordPositions = none
  ascending : c.positions.Pairwise (· < ·)
  mem : ∀ p, p ∈ c.positions ↔ (0 ≤ p ∧ p < n) ∧ p ∉ l.positions

theorem complement_exact {n : ℕ} (hstop : l.stop = none) (hi : l.isInverted = false)
    (hs : l.positions.Pairwise (· < ·)) (hr : ∀ p ∈ l.positions, 0 ≤ p ∧ p < n) :
    ∃ c, l.complement (some n) = some (true, c) ∧ c.ComplementOf l n := by
  obtain ⟨out, hout, hsorted, hmem, hlen⟩ := complementLoop_spec n 0 l.positions hs (by simpa using hr)
  rw [length_positions] at hlen
  have hmem' : ∀ p, p ∈ out ↔ (0 ≤ p ∧ p < n) ∧ p ∉ l.positions := by
    intro p
    rw [hmem, zero_add, and_assoc]
  unfold complement
  rw [if_neg (by simp [hstop]), if_neg (by simp [hi])]
  dsimp only
  split_ifs with hzero hfull
  · obtain rfl : out = [] := length_eq_zero_iff.mp (by omega)
    exact ⟨{}, rfl, ⟨⟨fun n hn => absurd hn (by simp [lengths]), fun _ => rfl⟩, rfl, ⟨rfl, rfl, rfl⟩, List.Pairwise.nil, hmem'⟩⟩
  · have hnil : l.positions = [] := length_eq_zero_iff.mp (by rw [length_positions]; omega)
    have hlength : (allPositions n).length = n := by rw [allPositions, length_map, length_range]
    have hpositions := positions_ofStart (allPositions n) true
    have haligned := aligned_ofStart (allPositions n) true
    rw [hlength] at hpositions haligned
    refine ⟨_, rfl, haligned, rfl, ⟨rfl, rfl, rfl⟩, ?_, fun p => ?_⟩
    · rw [hpositions]
      exact sorted_allPositions n
    · rw [hpositions, mem_allPositions, hnil]
      simp
  · obtain ⟨tmp, hres, hlength, htake⟩ := complementLoop_writes l n 0 0 0
      (replicate ((n : ℤ) - l.tabsize).toNat 0) out (by rwa [drop_zero]) (by rw [length_replicate]; omega)
    have htmp : tmp = out := by
      rw [length_replicate] at hlength
      rw [take_of_length_le (by omega), take_zero, nil_append] at htake
      exact htake
    subst htmp
    rw [Nat.zero_add] at hres
    refine ⟨{ start := some tmp, tabsize := tmp.length }, ?_, aligned_ofStart tmp false, rfl, ⟨rfl, rfl, rfl⟩, ?_, fun p => ?_⟩
    · rw [hres, bind_eq_bind, bind_some]
      exact if_pos (by omega)
    · rw [positions_ofStart tmp false]
      exact hsorted
    · rw [positions_ofStart tmp false]
      exact hmem' p

/-- `Setop` on lists that are not inverted. The union of two lists of one kind merges their unmarked items;
with an empty operand it is the other one as it is, marked items included. -/
theorem setop_exact (size : Option ℕ) (l l' : MatchVectors) (h : l.Aligned) (h' : l'.Aligned)
    (hi : l.isInverted = false) (hi' : l'.isInverted = false) :
    (l.start ≠ none → l'.start ≠ none → l.stop.isSome = l'.stop.isSome → l.Ascending → l'.Ascending →
      ∃ u, l.setop size .union l' = some (true, u) ∧ u.UnionOf l l') ∧
    (l'.start = none → l.setop size .union l' = some (true, l)) ∧
    (l.start = none → l'.start ≠ none → l.setop size .union l' = some (true, l')) ∧
    (∀ n, size = some n → l.stop = none → l.positions.Pairwise (· < ·) → (∀ p ∈ l.positions, 0 ≤ p ∧ p < n) →
      ∃ c, l.setop size .complement l' = some (true, c) ∧ c.ComplementOf l n) ∧
    (∃ r, l.setop size .reduce l' = some (true, r) ∧ r.Aligned ∧ r.isInverted = false ∧
      r.items = unmarked l.items ∧ (r.items ≠ [] → r.SameVectors l)) ∧
    (∃ u, l.setop size .uniq l' = some (true, u) ∧ u.Aligned ∧ u.isInverted = false ∧
      u.items = (l.items.destutter fun a b => a.pair ≠ b.pair) ∧ (u.items ≠ [] → u.SameVectors l) ∧
      ((l.items.map Match.pair).Pairwise (fun p q => ¬PairLt q p) → (u.items.map Match.pair).Pairwise PairLt ∧
        ∀ p, p ∈ u.items.map Match.pair ↔ p ∈ l.items.map Match.pair)) := by
  refine ⟨fun hn hn' hkind hs hs' => ?_, fun hn' => ?_, fun hn hn' => ?_, fun n hsize hstop hs hr => ?_, ?_, ?_⟩
  · obtain ⟨u, hu, hexact⟩ := unionItems_exact hkind hs hs'
    refine ⟨u, ?_, hexact⟩
    change l.union size l' = _
    unfold union materialise
    rw [if_neg hn', if_neg hn, if_neg (by simp [hi]), if_neg (by simp [hi]), if_neg (by simp [hi']), bind_eq_bind,
      bind_some, bind_some, hu]
    rfl
  · change l.union size l' = _
    unfold union
    rw [if_pos hn', if_neg (by simp [hi'])]
  · change l.union size l' = _
    unfold union
    rw [if_neg hn', if_pos hn, if_neg (by simp [hi]), h'.identity]
  · subst hsize
    exact complement_exact hstop hi hs hr
  · exact reduce_spec h hi
  · obtain ⟨u, hu, haligned, hinv, hitems, hsame⟩ := uniq_spec h hi
    refine ⟨u, hu, haligned, hinv, hitems, hsame, fun hs => ?_⟩
    rw [hitems]
    exact destutter_ascending hs

theorem setop_exact_initial :
    (∃ u, ({ start := some [1, 4], tabsize := 2 } : MatchVectors).setop (some 6) .union
        { start := some [-1, 4, 5], tabsize := 3 } = some (true, u) ∧
      u.UnionOf { start := some [1, 4], tabsize := 2 } { start := some [-1, 4, 5], tabsize := 3 }) ∧
    ∃ c, ({ start := some [1, 4], tabsize := 2 } : MatchVectors).setop (some 6) .complement
        { start := some [-1, 4, 5], tabsize := 3 } = some (true, c) ∧
      c.ComplementOf { start := some [1, 4], tabsize := 2 } 6 := by
  have hexact := setop_exact (some 6) { start := some [1, 4], tabsize := 2 } { start := some [-1, 4, 5], tabsize := 3 }
    (aligned_ofStart [1, 4] false) (aligned_ofStart [-1, 4, 5] false) rfl rfl
  refine ⟨hexact.1 (by simp) (by simp) rfl ?_ ?_, hexact.2.2.2.1 6 rfl rfl (by decide) (by decide)⟩
  · exact pairwise_map.mpr (by unfold PairLt; decide)
  · exact pairwise_map.mpr (by unfold PairLt; decide)

/-- An initial list is merged with the starts of a full one, which may repeat. -/
theorem union_mixed : ∃ u, ({ start := some [5], tabsize := 1 } : MatchVectors).setop none .union
    { start := some [5, 5], stop := some [6, 7], tabsize := 2 } = some (true, u) ∧ u.positions = [5, 5] := by
  obtain ⟨u, hu, -, -, hitems, -⟩ := unionItems_spec { start := some [5], tabsize := 1 }
    { start := some [5, 5], stop := some [6, 7], tabsize := 2 }
  refine ⟨u, ?_, ?_⟩
  · change (unionItems _ _).bind _ = _
    rw [hu]
    rfl
  · change u.items = (setopUnionLoop false [⟨5, 5, -1, -1⟩] [⟨5, 6, -1, -1⟩, ⟨5, 7, -1, -1⟩]).map _ at hitems
    rw [setopUnionLoop, if_neg (by decide), if_neg (by decide), if_neg (by decide), if_neg (by decide),
      if_pos (by decide), setopUnionLoop, if_neg (by decide), setopUnionLoop] at hitems
    rw [positions, hitems]
    rfl

/-- With an empty operand the union is the other list as it is, marked items included, and lists of
different kinds do not give an ascending one. -/
theorem setop_union_marked :
    (¬∀ (size : Option ℕ) (l l' : MatchVectors), l.Aligned → l'.Aligned → l.isInverted = false → l'.isInverted = false →
      l.stop.isSome = l'.stop.isSome → l.Ascending → l'.Ascending →
      ∃ u, l.setop size .union l' = some (true, u) ∧ ∀ m, m ∈ u.items → m.start ≠ -1) ∧
    ∃ u, ({ start := some [5], tabsize := 1 } : MatchVectors).setop none .union
      { start := some [5, 5], stop := some [6, 7], tabsize := 2 } = some (true, u) ∧ u.positions = [5, 5] := by
  refine ⟨fun h => ?_, union_mixed⟩
  obtain ⟨u, hu, hmem⟩ := h none { start := some [-1, 5], tabsize := 2 } {} (aligned_ofStart [-1, 5] false)
    ⟨fun n hn => absurd hn (by simp [lengths]), fun _ => rfl⟩ rfl rfl rfl
    (pairwise_map.mpr (by unfold PairLt; decide)) List.Pairwise.nil
  obtain rfl : { start := some [-1, 5], tabsize := 2 } = u := congrArg Prod.snd (some.inj hu)
  exact hmem ⟨-1, -1, -1, -1⟩ (by decide) rfl

end MatchVectors

end CWB
