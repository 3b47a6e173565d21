import Mathlib.Data.Prod.Lex
import CWB.Library.SortedMerge
import CWB.Proofs.Session

/-! The set operations of `RangeSetop` on results whose ranges ascend strictly by start and end. The
loops are then walks over two ascending lists, and the vectors of the result are those of the lines
that are left. -/

namespace CWB

open Function Option List

/-! The loops. -/

/-- The position of a line in the order by start and end. -/
def Match.key (m : Match) : ℤ ×ₗ ℤ := toLex m.pair

variable {a b : Match}

theorem key_lt_iff : a.key < b.key ↔ PairLt a.pair b.pair := Prod.Lex.toLex_lt_toLex

theorem key_lt_of_start (h : a.start < b.start) : a.key < b.key := key_lt_iff.mpr (.inl h)

theorem key_not_lt_of_start (h : a.start > b.start) : ¬a.key < b.key := not_lt.mpr (key_lt_of_start h).le

/-- Of two lines with one start the ends decide. -/
theorem key_lt_of_stop (h1 : ¬a.start < b.start) (h2 : ¬a.start > b.start) :
    a.key < b.key ↔ a.stop < b.stop := by
  rw [key_lt_iff]
  unfold PairLt Match.pair
  omega

theorem key_not_lt_of_eq (h1 : ¬a.start < b.start) (h2 : ¬a.start > b.start) (h3 : a.stop = b.stop) :
    ¬a.key < b.key ∧ ¬b.key < a.key := by
  rw [key_lt_of_stop h1 h2, key_lt_of_stop h2 h1]
  omega

theorem key_lt_of_stop_lt (h1 : ¬a.start < b.start) (h2 : ¬a.start > b.start) (h3 : ¬a.stop = b.stop)
    (h4 : ¬a.stop < b.stop) : ¬a.key < b.key ∧ b.key < a.key := by
  rw [key_lt_of_stop h1 h2, key_lt_of_stop h2 h1]
  omega

theorem unionLoop_eq (as : List Match) (bs : List (Match × Bool)) :
    unionLoop id id as bs = SortedMerge.union Match.key as bs := by
  induction as, bs using unionLoop.induct with
  | case1 => rw [unionLoop, SortedMerge.union]; rfl
  | case2 a as ih =>
    rw [unionLoop, ih, SortedMerge.union]
    cases as <;> rw [SortedMerge.union] <;> rfl
  | case3 b bs ih => rw [unionLoop, if_pos rfl, ih, SortedMerge.union, SortedMerge.union]; rfl
  | case4 b bit bs hbit ih =>
    rw [unionLoop, if_neg hbit, ih, SortedMerge.union, SortedMerge.union, filter_cons_of_neg hbit]
  | case5 a as b bit bs hlt ih =>
    rw [unionLoop, if_pos hlt, ih, SortedMerge.union, if_pos (key_lt_of_start hlt)]
    rfl
  | case6 a as b bs hlt hgt ih =>
    rw [unionLoop, if_neg hlt, if_pos hgt, if_pos rfl, ih, SortedMerge.union, if_neg (key_not_lt_of_start hgt),
      if_pos (key_lt_of_start hgt), if_pos rfl]
    rfl
  | case7 a as b bit bs hlt hgt hbit ih =>
    rw [unionLoop, if_neg hlt, if_pos hgt, if_neg hbit, ih, SortedMerge.union, if_neg (key_not_lt_of_start hgt),
      if_pos (key_lt_of_start hgt), if_neg hbit]
  | case8 a as b bit bs hlt hgt heq ih =>
    have hkey := key_not_lt_of_eq hlt hgt heq
    rw [unionLoop, if_neg hlt, if_neg hgt, if_pos heq, ih, SortedMerge.union, if_neg hkey.1, if_neg hkey.2]
    rfl
  | case9 a as b bit bs hlt hgt heq hstop ih =>
    rw [unionLoop, if_neg hlt, if_neg hgt, if_neg heq, if_pos hstop, ih, SortedMerge.union,
      if_pos ((key_lt_of_stop hlt hgt).mpr hstop)]
    rfl
  | case10 a as b bs hlt hgt heq hstop ih =>
    have hkey := key_lt_of_stop_lt hlt hgt heq hstop
    rw [unionLoop, if_neg hlt, if_neg hgt, if_neg heq, if_neg hstop, if_pos rfl, ih, SortedMerge.union, if_neg hkey.1,
      if_pos hkey.2, if_pos rfl]
    rfl
  | case11 a as b bit bs hlt hgt heq hstop hbit ih =>
    have hkey := key_lt_of_stop_lt hlt hgt heq hstop
    rw [unionLoop, if_neg hlt, if_neg hgt, if_neg heq, if_neg hstop, if_neg hbit, ih, SortedMerge.union, if_neg hkey.1,
      if_pos hkey.2, if_neg hbit]

theorem intersectionLoop_eq (as bs : List Match) : intersectionLoop as bs =
    zipWith (fun a both => if both then a else a.mark) as (SortedMerge.common Match.key as bs) := by
  induction as, bs using intersectionLoop.induct with
  | case1 bs => rw [intersectionLoop, SortedMerge.common]; rfl
  | case2 a as ih => rw [intersectionLoop, ih, SortedMerge.common]; rfl
  | case3 a as b bs hlt ih =>
    rw [intersectionLoop, if_pos hlt, ih, SortedMerge.common, if_pos (key_lt_of_start hlt)]
    rfl
  | case4 a as b bs hlt hgt ih =>
    rw [intersectionLoop, if_neg hlt, if_pos hgt, ih, SortedMerge.common, if_neg (key_not_lt_of_start hgt),
      if_pos (key_lt_of_start hgt)]
  | case5 a as b bs hlt hgt heq ih =>
    have hkey := key_not_lt_of_eq hlt hgt heq
    rw [intersectionLoop, if_neg hlt, if_neg hgt, if_pos heq, ih, SortedMerge.common, if_neg hkey.1, if_neg hkey.2]
    rfl
  | case6 a as b bs hlt hgt heq hstop ih =>
    rw [intersectionLoop, if_neg hlt, if_neg hgt, if_neg heq, if_pos hstop, ih, SortedMerge.common,
      if_pos ((key_lt_of_stop hlt hgt).mpr hstop)]
    rfl
  | case7 a as b bs hlt hgt heq hstop ih =>
    have hkey := key_lt_of_stop_lt hlt hgt heq hstop
    rw [intersectionLoop, if_neg hlt, if_neg hgt, if_neg heq, if_neg hstop, ih, SortedMerge.common, if_neg hkey.1,
      if_pos hkey.2]

theorem diffLoop_eq (as bs : List Match) : diffLoop as bs =
    zipWith (fun a both => if both then a.mark else a) as (SortedMerge.common Match.key as bs) := by
  have hnil : ∀ as : List Match,
      as = zipWith (fun a both => if both then a.mark else a) as (SortedMerge.common Match.key as []) := by
    intro as
    induction as with
    | nil => rfl
    | cons a as ih =>
      rw [SortedMerge.common, zipWith_cons_cons, ← ih]
      rfl
  induction as, bs using diffLoop.induct with
  | case1 bs => rw [diffLoop, SortedMerge.common]; rfl
  | case2 a as =>
    rw [diffLoop]
    exact hnil (a :: as)
  | case3 a as b bs hlt ih =>
    rw [diffLoop, if_pos hlt, ih, SortedMerge.common, if_pos (key_lt_of_start hlt)]
    rfl
  | case4 a as b bs hlt hgt ih =>
    rw [diffLoop, if_neg hlt, if_pos hgt, ih, SortedMerge.common, if_neg (key_not_lt_of_start hgt),
      if_pos (key_lt_of_start hgt)]
  | case5 a as b bs hlt hgt heq ih =>
    have hkey := key_not_lt_of_eq hlt hgt heq
    rw [diffLoop, if_neg hlt, if_neg hgt, if_pos heq, ih, SortedMerge.common, if_neg hkey.1, if_neg hkey.2]
    rfl
  | case6 a as b bs hlt hgt heq hstop ih =>
    rw [diffLoop, if_neg hlt, if_neg hgt, if_neg heq, if_pos hstop, ih, SortedMerge.common,
      if_pos ((key_lt_of_stop hlt hgt).mpr hstop)]
    rfl
  | case7 a as b bs hlt hgt heq hstop ih =>
    have hkey := key_lt_of_stop_lt hlt hgt heq hstop
    rw [diffLoop, if_neg hlt, if_neg hgt, if_neg heq, if_neg hstop, ih, SortedMerge.common, if_neg hkey.1,
      if_pos hkey.2]

/-! The vectors of the union. -/

namespace UnionVectors

/-- All vectors have `n` entries or more. -/
structure Room (v : UnionVectors) (n : ℕ) : Prop where
  tmp : n ≤ v.tmp.length
  target : ∀ t, v.tmpTarget = some t → n ≤ t.length
  keyword : ∀ t, v.tmpKeyword = some t → n ≤ t.length

theorem Room.mono {v : UnionVectors} {m n : ℕ} (h : Room v n) (hle : m ≤ n) : Room v m :=
  ⟨hle.trans h.tmp, fun t ht => hle.trans (h.target t ht), fun t ht => hle.trans (h.keyword t ht)⟩

/-- The entries before the insertion point. -/
def filled (v : UnionVectors) (ins : ℕ) : UnionVectors where
  tmp := v.tmp.take ins
  tmpTarget := v.tmpTarget.map (·.take ins)
  tmpKeyword := v.tmpKeyword.map (·.take ins)

def extend (v : UnionVectors) (ls : List Match) : UnionVectors where
  tmp := v.tmp ++ ls.map Match.pair
  tmpTarget := v.tmpTarget.map (· ++ ls.map Match.target)
  tmpKeyword := v.tmpKeyword.map (· ++ ls.map Match.keyword)

theorem extend_nil (v : UnionVectors) : v.extend [] = v := by
  simp [extend]

theorem extend_extend (v : UnionVectors) (ls ls' : List Match) : (v.extend ls).extend ls' = v.extend (ls ++ ls') := by
  simp [extend, comp_def]

theorem take_set_succ {α : Type} {l : List α} {ins : ℕ} (h : ins < l.length) (x : α) :
    (l.set ins x).take (ins + 1) = l.take ins ++ [x] := by
  rw [take_succ_eq_append_getElem (by simpa using h), getElem_set_self, take_set_of_le le_rfl]

/-- A write inside the vectors is appended to what is filled. -/
theorem rsCpRange_spec {v : UnionVectors} {ins : ℕ} (h : Room v (ins + 1)) (c : QueryResult) (k : ℕ) :
    ∃ v', v.rsCpRange ins c k = some v' ∧ v'.filled (ins + 1) = (v.filled ins).extend [c.line k] ∧
      ∀ n, Room v n → Room v' n := by
  have hroom : v.hasRoom ins = true := by
    simp only [hasRoom, Bool.and_eq_true, decide_eq_true_eq, Option.all_eq_true]
    exact ⟨⟨h.tmp, h.target⟩, h.keyword⟩
  refine ⟨_, if_pos hroom, ?_, fun n hn => ⟨by simpa using hn.tmp, fun t ht => ?_, fun t ht => ?_⟩⟩
  · unfold filled extend
    simp only [UnionVectors.mk.injEq]
    refine ⟨take_set_succ h.tmp _, ?_, ?_⟩
    · cases ht : v.tmpTarget with
      | none => rfl
      | some t => exact congrArg some (take_set_succ (h.target t ht) _)
    · cases ht : v.tmpKeyword with
      | none => rfl
      | some t => exact congrArg some (take_set_succ (h.keyword t ht) _)
  · obtain ⟨t', ht', rfl⟩ := map_eq_some_iff.mp ht
    simpa using hn.target t' ht'
  · obtain ⟨t', ht', rfl⟩ := map_eq_some_iff.mp ht
    simpa using hn.keyword t' ht'

end UnionVectors

variable {c : QueryResult}

namespace QueryResult

variable {c1 c2 : QueryResult} {restrictor : Option (ℕ → Bool)}

/-- The lines of the right operand with their bits. -/
def unionBits (c2 : QueryResult) (restrictor : Option (ℕ → Bool)) : List (Match × Bool) :=
  c2.lines.zipIdx.map fun p => (p.1, selects restrictor p.2)

theorem drop_lines (c : QueryResult) {k : ℕ} (h : k < c.size) : c.lines.drop k = c.line k :: c.lines.drop (k + 1) := by
  rw [drop_eq_getElem_cons (by simpa using h)]
  simp [lines]

theorem drop_lines_nil (c : QueryResult) {k : ℕ} (h : c.size ≤ k) : c.lines.drop k = [] :=
  drop_eq_nil_of_le (by simpa using h)

theorem drop_unionBits {k : ℕ} (h : k < c2.size) :
    (unionBits c2 restrictor).drop k = (c2.line k, selects restrictor k) :: (unionBits c2 restrictor).drop (k + 1) := by
  rw [drop_eq_getElem_cons (by simpa [unionBits] using h)]
  simp [unionBits, lines]

theorem drop_unionBits_nil {k : ℕ} (h : c2.size ≤ k) : (unionBits c2 restrictor).drop k = [] :=
  drop_eq_nil_of_le (by simpa [unionBits] using h)

/-- What is still to be copied at the positions `i` and `j`. -/
def unionRest (c1 c2 : QueryResult) (restrictor : Option (ℕ → Bool)) (i j : ℕ) : List Match :=
  unionLoop id id (c1.lines.drop i) ((unionBits c2 restrictor).drop j)

theorem same_start {i j : ℕ} (hleft : ¬(j ≥ c2.size ∨ i < c1.size ∧ (c1.rangeAt i).1 < (c2.rangeAt j).1))
    (hright : ¬(i ≥ c1.size ∨ (c1.rangeAt i).1 > (c2.rangeAt j).1)) :
    i < c1.size ∧ j < c2.size ∧ ¬(c1.line i).start < (c2.line j).start ∧ ¬(c1.line i).start > (c2.line j).start := by
  have hi : i < c1.size := by omega
  exact ⟨hi, by omega, fun h => hleft (.inr ⟨hi, h⟩), fun h => hright (.inr h)⟩

/-- One copy, and the rest of the loop. -/
theorem copy_spec {k ins : ℕ} {v : UnionVectors} {ls : List Match} {rest : UnionVectors → Option (ℕ × UnionVectors)}
    (hroom : v.Room (ins + (c.line k :: ls).length))
    (ih : ∀ v : UnionVectors, v.Room (ins + 1 + ls.length) →
      ∃ v', rest v = some (ins + 1 + ls.length, v') ∧ v'.filled (ins + 1 + ls.length) = (v.filled (ins + 1)).extend ls) :
    ∃ v', (v.rsCpRange ins c k).bind rest = some (ins + (c.line k :: ls).length, v') ∧
      v'.filled (ins + (c.line k :: ls).length) = (v.filled ins).extend (c.line k :: ls) := by
  have hlen : ins + (c.line k :: ls).length = ins + 1 + ls.length := by
    rw [length_cons]
    omega
  rw [hlen] at hroom ⊢
  obtain ⟨v1, hv1, hfilled, hkeeps⟩ := UnionVectors.rsCpRange_spec (hroom.mono (Nat.le_add_right _ _)) c k
  obtain ⟨v', hv', hfilled'⟩ := ih v1 (hkeeps _ hroom)
  refine ⟨v', by rw [hv1, bind_some, hv'], ?_⟩
  rw [hfilled', hfilled, UnionVectors.extend_extend]
  rfl

theorem unionVectorsLoop_spec (c1 c2 : QueryResult) (restrictor : Option (ℕ → Bool)) (i j ins : ℕ) (v : UnionVectors)
    (hroom : v.Room (ins + (unionRest c1 c2 restrictor i j).length)) :
    ∃ v', unionVectorsLoop c1 c2 restrictor i j ins v = some (ins + (unionRest c1 c2 restrictor i j).length, v') ∧
      v'.filled (ins + (unionRest c1 c2 restrictor i j).length) = (v.filled ins).extend (unionRest c1 c2 restrictor i j) := by
  induction i, j, ins, v using unionVectorsLoop.induct c1 c2 restrictor with
  | case1 i j ins v hgo hleft ih =>
    -- a line of the left operand comes first
    have hi : i < c1.size := by omega
    have hrest : unionRest c1 c2 restrictor i j = c1.line i :: unionRest c1 c2 restrictor (i + 1) j := by
      unfold unionRest
      rw [drop_lines c1 hi]
      by_cases hj : j < c2.size
      · have hlt : (c1.line i).start < (c2.line j).start := (hleft.resolve_left (by omega)).2
        rw [drop_unionBits hj, unionLoop, if_pos hlt]
        rfl
      · rw [drop_unionBits_nil (not_lt.mp hj), unionLoop]
        rfl
    rw [unionVectorsLoop, if_pos hgo, if_pos hleft]
    rw [hrest] at hroom ⊢
    exact copy_spec hroom ih
  | case2 i j ins v hgo hleft hright hbit ih =>
    -- a selected line of the right operand comes first
    have hj : j < c2.size := by omega
    have hrest : unionRest c1 c2 restrictor i j = c2.line j :: unionRest c1 c2 restrictor i (j + 1) := by
      unfold unionRest
      rw [drop_unionBits hj, hbit]
      by_cases hi : i < c1.size
      · have hgt : (c1.line i).start > (c2.line j).start := hright.resolve_left (by omega)
        rw [drop_lines c1 hi, unionLoop, if_neg (by omega), if_pos hgt, if_pos rfl]
        rfl
      · rw [drop_lines_nil c1 (not_lt.mp hi), unionLoop, if_pos rfl]
        rfl
    rw [unionVectorsLoop, if_pos hgo, if_neg hleft, if_pos hright, if_pos hbit]
    rw [hrest] at hroom ⊢
    exact copy_spec hroom ih
  | case3 i j ins v hgo hleft hright hbit ih =>
    have hj : j < c2.size := by omega
    have hrest : unionRest c1 c2 restrictor i j = unionRest c1 c2 restrictor i (j + 1) := by
      unfold unionRest
      rw [drop_unionBits hj]
      by_cases hi : i < c1.size
      · have hgt : (c1.line i).start > (c2.line j).start := hright.resolve_left (by omega)
        rw [drop_lines c1 hi, unionLoop, if_neg (by omega), if_pos hgt, if_neg hbit]
      · rw [drop_lines_nil c1 (not_lt.mp hi), unionLoop, if_neg hbit]
    rw [unionVectorsLoop, if_pos hgo, if_neg hleft, if_pos hright, if_neg hbit]
    rw [hrest] at hroom ⊢
    exact ih hroom
  | case4 i j ins v hgo hleft hright heq ih =>
    -- the same range in both operands
    obtain ⟨hi, hj, hlt, hgt⟩ := same_start hleft hright
    have hrest : unionRest c1 c2 restrictor i j = c1.line i :: unionRest c1 c2 restrictor (i + 1) (j + 1) := by
      unfold unionRest
      rw [drop_unionBits hj, drop_lines c1 hi, unionLoop, if_neg hlt, if_neg hgt,
        if_pos (show (c1.line i).stop = (c2.line j).stop from heq)]
      rfl
    rw [unionVectorsLoop, if_pos hgo, if_neg hleft, if_neg hright, if_pos heq]
    rw [hrest] at hroom ⊢
    exact copy_spec hroom ih
  | case5 i j ins v hgo hleft hright heq hstop ih =>
    obtain ⟨hi, hj, hlt, hgt⟩ := same_start hleft hright
    have hrest : unionRest c1 c2 restrictor i j = c1.line i :: unionRest c1 c2 restrictor (i + 1) j := by
      unfold unionRest
      rw [drop_unionBits hj, drop_lines c1 hi, unionLoop, if_neg hlt, if_neg hgt,
        if_neg (show ¬(c1.line i).stop = (c2.line j).stop from heq),
        if_pos (show (c1.line i).stop < (c2.line j).stop from hstop)]
      rfl
    rw [unionVectorsLoop, if_pos hgo, if_neg hleft, if_neg hright, if_neg heq, if_pos hstop]
    rw [hrest] at hroom ⊢
    exact copy_spec hroom ih
  | case6 i j ins v hgo hleft hright heq hstop hbit ih =>
    obtain ⟨hi, hj, hlt, hgt⟩ := same_start hleft hright
    have hrest : unionRest c1 c2 restrictor i j = c2.line j :: unionRest c1 c2 restrictor i (j + 1) := by
      unfold unionRest
      rw [drop_unionBits hj, hbit, drop_lines c1 hi, unionLoop, if_neg hlt, if_neg hgt,
        if_neg (show ¬(c1.line i).stop = (c2.line j).stop from heq),
        if_neg (show ¬(c1.line i).stop < (c2.line j).stop from hstop), if_pos rfl]
      rfl
    rw [unionVectorsLoop, if_pos hgo, if_neg hleft, if_neg hright, if_neg heq, if_neg hstop, if_pos hbit]
    rw [hrest] at hroom ⊢
    exact copy_spec hroom ih
  | case7 i j ins v hgo hleft hright heq hstop hbit ih =>
    obtain ⟨hi, hj, hlt, hgt⟩ := same_start hleft hright
    have hrest : unionRest c1 c2 restrictor i j = unionRest c1 c2 restrictor i (j + 1) := by
      unfold unionRest
      rw [drop_unionBits hj, drop_lines c1 hi, unionLoop, if_neg hlt, if_neg hgt,
        if_neg (show ¬(c1.line i).stop = (c2.line j).stop from heq),
        if_neg (show ¬(c1.line i).stop < (c2.line j).stop from hstop), if_neg hbit]
    rw [unionVectorsLoop, if_pos hgo, if_neg hleft, if_neg hright, if_neg heq, if_neg hstop, if_neg hbit]
    rw [hrest] at hroom ⊢
    exact ih hroom
  | case8 i j ins v hstop =>
    have hrest : unionRest c1 c2 restrictor i j = [] := by
      rw [unionRest, drop_lines_nil c1 (by omega), drop_unionBits_nil (by omega), unionLoop]
    refine ⟨v, ?_, ?_⟩
    · rw [unionVectorsLoop, if_neg hstop, hrest]
      rfl
    · rw [hrest, UnionVectors.extend_nil]
      rfl

theorem length_filter_unionBits (c2 : QueryResult) (restrictor : Option (ℕ → Bool)) :
    ((unionBits c2 restrictor).filter Prod.snd).length = intervalsToCopy c2 restrictor := by
  have hbits : (unionBits c2 restrictor).map Prod.snd = (List.range c2.size).map (selects restrictor) := by
    refine ext_getElem (by simp [unionBits]) fun k h1 h2 => ?_
    simp [unionBits]
  have hlen : ((unionBits c2 restrictor).filter Prod.snd).length =
      ((List.range c2.size).filter (selects restrictor)).length := by
    have hcount := congrArg (fun l => (l.filter id).length) hbits
    simpa [List.filter_map, comp_def] using hcount
  rw [hlen]
  cases restrictor with
  | none =>
    have hall : (List.range c2.size).filter (selects none) = List.range c2.size :=
      filter_eq_self.mpr fun _ _ => rfl
    rw [hall, length_range]
    rfl
  | some bits => rfl

/-- The union is written inside its vectors, whatever the operands are. -/
theorem rUnionVectors_eq (c1 c2 : QueryResult) (restrictor : Option (ℕ → Bool)) :
    rUnionVectors c1 c2 restrictor = some (c1.rangeSetop .union c2 restrictor) := by
  show _ = some (c1.rUnion c2 restrictor)
  unfold rUnionVectors rUnion
  by_cases h0 : c2.size = 0
  · rw [if_pos h0, if_pos h0]
  rw [if_neg h0, if_neg h0]
  have hrest : unionRest c1 c2 restrictor 0 0 = unionLoop id id c1.lines
      (c2.lines.zipIdx.map fun p => (p.1, (restrictor.map (· p.2)).getD true)) := rfl
  -- the size computed in advance is enough
  have hlen : (unionRest c1 c2 restrictor 0 0).length ≤ c1.size + intervalsToCopy c2 restrictor := by
    rw [unionRest, drop_zero, drop_zero, unionLoop_eq, ← length_filter_unionBits, ← lines_length c1]
    exact SortedMerge.length_union _ _ _
  generalize unionLoop id id c1.lines (c2.lines.zipIdx.map fun p => (p.1, (restrictor.map (· p.2)).getD true)) = out at hrest
  dsimp only
  generalize hv : UnionVectors.mk (replicate (c1.size + intervalsToCopy c2 restrictor) (0, 0))
    (if c1.targets.isSome || c2.targets.isSome then some (replicate (c1.size + intervalsToCopy c2 restrictor) 0) else none)
    (if c1.keywords.isSome || c2.keywords.isSome then some (replicate (c1.size + intervalsToCopy c2 restrictor) 0)
      else none) = v
  have hroom : v.Room (0 + (unionRest c1 c2 restrictor 0 0).length) := by
    rw [Nat.zero_add, ← hv]
    refine ⟨by simpa using hlen, fun t ht => ?_, fun t ht => ?_⟩
    · obtain ⟨-, ht⟩ := ite_none_right_eq_some.mp ht
      obtain rfl := some.inj ht
      simpa using hlen
    · obtain ⟨-, ht⟩ := ite_none_right_eq_some.mp ht
      obtain rfl := some.inj ht
      simpa using hlen
  obtain ⟨v', hloop, hfilled⟩ := unionVectorsLoop_spec c1 c2 restrictor 0 0 0 v hroom
  rw [hloop, map_some]
  rw [hrest] at hfilled ⊢
  have htmp : v'.tmp.take (0 + out.length) = out.map Match.pair := by
    have h := congrArg UnionVectors.tmp hfilled
    simpa [UnionVectors.filled, UnionVectors.extend] using h
  have htarget : v'.tmpTarget.map (·.take (0 + out.length)) =
      if c1.targets.isSome ∨ c2.targets.isSome then some (out.map Match.target) else none := by
    have h := congrArg UnionVectors.tmpTarget hfilled
    rw [← hv] at h
    simp only [UnionVectors.filled, UnionVectors.extend, take_zero, nil_append, Bool.or_eq_true] at h
    rw [h]
    split_ifs <;> rfl
  have hkeyword : v'.tmpKeyword.map (·.take (0 + out.length)) =
      if c1.keywords.isSome ∨ c2.keywords.isSome then some (out.map Match.keyword) else none := by
    have h := congrArg UnionVectors.tmpKeyword hfilled
    rw [← hv] at h
    simp only [UnionVectors.filled, UnionVectors.extend, take_zero, nil_append, Bool.or_eq_true] at h
    rw [h]
    split_ifs <;> rfl
  simp only [htmp, htarget, hkeyword]

/-! The lines that are left. -/

/-- Canonically ordered: the ranges ascend strictly, hold corpus positions, and have an entry in each
other vector that there is. -/
structure Canonical (c : QueryResult) : Prop where
  ascending : c.range.Pairwise PairLt
  positions : ∀ p ∈ c.range, 0 ≤ p.1 ∧ 0 ≤ p.2
  targets : ∀ v, c.targets = some v → v.length = c.size
  keywords : ∀ v, c.keywords = some v → v.length = c.size

/-- Target and keyword of a range, -1 without the vector. -/
def anchors (c : QueryResult) (p : ℤ × ℤ) : ℤ × ℤ := (c.targetAt (c.range.idxOf p), c.keywordAt (c.range.idxOf p))

/-- The ranges of `res` are those of the set, and each is taken from the left operand if it is there. -/
structure Represents (c1 c2 res : QueryResult) (S : Set (ℤ × ℤ)) : Prop where
  canonical : res.Canonical
  mem : ∀ p, p ∈ res.range ↔ p ∈ S
  anchors : ∀ p ∈ res.range, res.anchors p = if p ∈ c1.range then c1.anchors p else c2.anchors p

theorem Canonical.lines (h : c1.Canonical) : SortedMerge.Ascending Match.key c1.lines := by
  have hpairs := h.ascending
  rw [← lines_pair] at hpairs
  exact (pairwise_map.mp hpairs).imp key_lt_iff.mpr

theorem nodup_of_ascending {l : List (ℤ × ℤ)} (h : l.Pairwise PairLt) : l.Nodup :=
  h.imp fun hlt heq => by
    subst heq
    unfold PairLt at hlt
    omega

theorem mem_range_iff {p : ℤ × ℤ} : p ∈ c.range ↔ ∃ m ∈ c.lines, m.pair = p := by
  rw [← lines_pair, List.mem_map]

theorem anchors_of_mem (h : c.range.Pairwise PairLt) {m : Match} (hm : m ∈ c.lines) :
    c.anchors m.pair = (m.target, m.keyword) := by
  obtain ⟨k, hk, rfl⟩ := mem_lines.mp hm
  have hpair : (c.line k).pair = c.range[k] := getD_eq_getElem _ _ hk
  have hidx : c.range.idxOf (c.line k).pair = k := by
    rw [hpair]
    exact (nodup_of_ascending h).idxOf_getElem k hk
  rw [anchors, hidx]
  rfl

/-- A result is known by its lines. -/
theorem represents_of_lines {res : QueryResult} {ls : List Match} {S : Set (ℤ × ℤ)} (h1 : c1.Canonical) (h2 : c2.Canonical)
    (hlines : res.lines = ls) (htargets : ∀ v, res.targets = some v → v.length = res.size)
    (hkeywords : ∀ v, res.keywords = some v → v.length = res.size) (hasc : SortedMerge.Ascending Match.key ls)
    (hfrom : ∀ m ∈ ls, m ∈ c1.lines ∨ (m ∈ c2.lines ∧ m.pair ∉ c1.range))
    (hset : ∀ p, p ∈ S ↔ ∃ m ∈ ls, m.pair = p) :
    Represents c1 c2 res S := by
  have hascending : res.range.Pairwise PairLt := by
    rw [← lines_pair, hlines]
    exact pairwise_map.mpr (hasc.imp key_lt_iff.mp)
  refine ⟨⟨hascending, fun p hp => ?_, htargets, hkeywords⟩, fun p => ?_, fun p hp => ?_⟩
  · obtain ⟨m, hm, rfl⟩ := mem_range_iff.mp hp
    rcases hfrom m (hlines ▸ hm) with h | h
    · exact h1.positions _ (mem_range_iff.mpr ⟨m, h, rfl⟩)
    · exact h2.positions _ (mem_range_iff.mpr ⟨m, h.1, rfl⟩)
  · rw [mem_range_iff, hset, hlines]
  · obtain ⟨m, hm, rfl⟩ := mem_range_iff.mp hp
    rw [anchors_of_mem hascending hm]
    rcases hfrom m (hlines ▸ hm) with h | h
    · rw [if_pos (mem_range_iff.mpr ⟨m, h, rfl⟩), anchors_of_mem h1.ascending h]
    · rw [if_neg h.2, anchors_of_mem h2.ascending h.1]

theorem mem_unionBits {m : Match} :
    (m, true) ∈ unionBits c2 restrictor ↔ ∃ j < c2.size, selects restrictor j = true ∧ c2.line j = m := by
  unfold unionBits
  simp only [List.mem_map, Prod.exists, Prod.mk.injEq, mem_zipIdx_iff_getElem?]
  refine ⟨?_, ?_⟩
  · rintro ⟨m', j, hget, rfl, hbit⟩
    obtain ⟨hj, hline⟩ := List.getElem?_eq_some_iff.mp hget
    rw [lines_length] at hj
    exact ⟨j, hj, hbit, by simpa [lines] using hline⟩
  · rintro ⟨j, hj, hbit, rfl⟩
    exact ⟨c2.line j, j, by simp [lines, hj], rfl, hbit⟩

theorem map_fst_unionBits : (unionBits c2 restrictor).map Prod.fst = c2.lines := by
  rw [unionBits, List.map_map]
  exact zipIdx_map_fst 0 c2.lines

/-- The selected ranges of the right operand. -/
def selected (c2 : QueryResult) (restrictor : Option (ℕ → Bool)) : Set (ℤ × ℤ) :=
  {p | ∃ j < c2.size, selects restrictor j = true ∧ c2.rangeAt j = p}

theorem union_represents (h1 : c1.Canonical) (h2 : c2.Canonical) (restrictor : Option (ℕ → Bool)) :
    Represents c1 c2 (c1.rangeSetop .union c2 restrictor) {p | p ∈ c1.range ∨ p ∈ selected c2 restrictor} := by
  have hb : SortedMerge.Ascending Match.key ((unionBits c2 restrictor).map Prod.fst) := by
    rw [map_fst_unionBits]
    exact h2.lines
  have hls : unionLines c1 c2 restrictor = SortedMerge.union Match.key c1.lines (unionBits c2 restrictor) := unionLoop_eq _ _
  have hmem : ∀ m, m ∈ unionLines c1 c2 restrictor ↔
      m ∈ c1.lines ∨ ((m, true) ∈ unionBits c2 restrictor ∧ m.pair ∉ c1.range) := by
    intro m
    rw [hls, SortedMerge.mem_union h1.lines hb, mem_range_iff]
    refine or_congr_right (and_congr_right fun _ => ⟨?_, ?_⟩)
    · rintro h ⟨m', hm', heq⟩
      exact h m' hm' (congrArg toLex heq)
    · intro h y hy heq
      exact h ⟨y, hy, toLex.injective heq⟩
  obtain ⟨hlines, htargets, hkeywords⟩ : (c1.rUnion c2 restrictor).lines = unionLines c1 c2 restrictor ∧
      (∀ v, (c1.rUnion c2 restrictor).targets = some v → v.length = (c1.rUnion c2 restrictor).size) ∧
      (∀ v, (c1.rUnion c2 restrictor).keywords = some v → v.length = (c1.rUnion c2 restrictor).size) := by
    by_cases h0 : c2.size = 0
    · have hnil : unionBits c2 restrictor = [] := map_eq_nil_iff.mp (map_fst_unionBits.trans (length_eq_zero_iff.mp
        (by rw [lines_length, h0])))
      have hall : unionLines c1 c2 restrictor = c1.lines := by
        rw [hls, hnil]
        cases c1.lines with
        | nil => rw [SortedMerge.union]; rfl
        | cons m ms => rw [SortedMerge.union]
      rw [hall, QueryResult.rUnion, if_pos h0]
      exact ⟨rfl, h1.targets, h1.keywords⟩
    · obtain ⟨hr, ht, hk⟩ := @rUnion_vectors c1 c2 h0 restrictor
      have hsize : (c1.rUnion c2 restrictor).size = (unionLines c1 c2 restrictor).length := by
        rw [size, hr, length_map]
      refine ⟨lines_of_vectors hr ht hk, fun v hv => ?_, fun v hv => ?_⟩
      · rcases ht with ht | ht
        · rw [ht, some_inj] at hv
          rw [← hv, length_map, hsize]
        · rw [ht.1] at hv
          cases hv
      · rcases hk with hk | hk
        · rw [hk, some_inj] at hv
          rw [← hv, length_map, hsize]
        · rw [hk.1] at hv
          cases hv
  refine represents_of_lines h1 h2 hlines htargets hkeywords ?_ (fun m hm => ?_) fun p => ?_
  · rw [hls]
    exact SortedMerge.ascending_union h1.lines hb
  · refine ((hmem m).mp hm).imp_right fun h => ⟨?_, h.2⟩
    obtain ⟨j, hj, -, rfl⟩ := mem_unionBits.mp h.1
    exact mem_lines.mpr ⟨j, hj, rfl⟩
  · refine ⟨?_, ?_⟩
    · rintro (hp | ⟨j, hj, hbit, rfl⟩)
      · obtain ⟨m, hm, rfl⟩ := mem_range_iff.mp hp
        exact ⟨m, (hmem m).mpr (.inl hm), rfl⟩
      · by_cases hp : c2.rangeAt j ∈ c1.range
        · obtain ⟨m, hm, heq⟩ := mem_range_iff.mp hp
          exact ⟨m, (hmem m).mpr (.inl hm), heq⟩
        · exact ⟨c2.line j, (hmem _).mpr (.inr ⟨mem_unionBits.mpr ⟨j, hj, hbit, rfl⟩, hp⟩), rfl⟩
    · rintro ⟨m, hm, rfl⟩
      rcases (hmem m).mp hm with h | h
      · exact .inl (mem_range_iff.mpr ⟨m, h, rfl⟩)
      · obtain ⟨j, hj, hbit, rfl⟩ := mem_unionBits.mp h.1
        exact .inr ⟨j, hj, hbit, rfl⟩

/-- `RReduce` without a look at the sort index. -/
theorem rReduce_lines (ht : ∀ v, c.targets = some v → v.length = c.size)
    (hk : ∀ v, c.keywords = some v → v.length = c.size) :
    c.rReduce.lines = c.lines.filter Match.kept ∧ (∀ v, c.rReduce.targets = some v → v.length = c.rReduce.size) ∧
      ∀ v, c.rReduce.keywords = some v → v.length = c.rReduce.size := by
  have hdrop : ({ c with sortidx := none } : QueryResult).rReduce = { c.rReduce with sortidx := none } := by
    unfold rReduce
    dsimp only
    have hsize : ({ c with sortidx := none } : QueryResult).size = c.size := rfl
    rw [hsize]
    split_ifs <;> rfl
  have hsound : ({ c with sortidx := none } : QueryResult).Sound := ⟨ht, hk, fun idx hidx => by simp at hidx⟩
  obtain ⟨hred, hlines⟩ := rReduce_spec hsound
  rw [hdrop] at hred hlines
  exact ⟨hlines, hred.targets, hred.keywords⟩

/-- A loop that marks the ranges without the property, and what `RReduce` leaves. -/
theorem markReduce_represents (h1 : c1.Canonical) (h2 : c2.Canonical) {loop : List Match → List Match}
    (P : ℤ × ℤ → Prop) [DecidablePred P]
    (hloop : loop (c1.range.map Match.ofRange) = (c1.range.map Match.ofRange).map fun a => if P a.pair then a else a.mark) :
    Represents c1 c2 (c1.markReduce loop) {p | p ∈ c1.range ∧ P p} := by
  have hrange : (loop (c1.range.map Match.ofRange)).map Match.pair = c1.range.map fun p => if P p then p else (-1, p.2) := by
    rw [hloop, List.map_map, List.map_map]
    refine map_congr_left fun p _ => ?_
    have hpair : (Match.ofRange p).pair = p := rfl
    simp only [comp_apply, hpair]
    split_ifs <;> rfl
  have hsize : ({ c1 with range := c1.range.map fun p => if P p then p else (-1, p.2) } : QueryResult).size = c1.size := by
    simp [size]
  obtain ⟨hlines, htargets, hkeywords⟩ := @rReduce_lines
    { c1 with range := c1.range.map fun p => if P p then p else (-1, p.2) }
    (fun v hv => hsize ▸ h1.targets v hv) fun v hv => hsize ▸ h1.keywords v hv
  have hmarked : ({ c1 with range := c1.range.map fun p => if P p then p else (-1, p.2) } : QueryResult).lines =
      c1.lines.map fun m => if P m.pair then m else m.mark := by
    rw [lines, hsize, lines, List.map_map]
    refine map_congr_left fun k hk => ?_
    have hk : k < c1.range.length := mem_range.mp hk
    have hget : ({ c1 with range := c1.range.map fun p => if P p then p else (-1, p.2) } : QueryResult).rangeAt k =
        if P (c1.rangeAt k) then c1.rangeAt k else (-1, (c1.rangeAt k).2) := by
      unfold rangeAt
      rw [getD_eq_getElem _ _ (by simpa using hk), getD_eq_getElem _ _ hk, getElem_map]
    have hpair : (c1.line k).pair = c1.rangeAt k := rfl
    rw [line, hget, comp_apply, hpair]
    split_ifs <;> rfl
  have hleft : (c1.lines.map fun m => if P m.pair then m else m.mark).filter Match.kept =
      c1.lines.filter fun m => P m.pair := by
    rw [List.filter_map]
    have hkept : c1.lines.filter (Match.kept ∘ fun m => if P m.pair then m else m.mark) =
        c1.lines.filter fun m => P m.pair := by
      refine filter_congr fun m hm => ?_
      obtain ⟨hstart, hstop⟩ := h1.positions _ (mem_range_iff.mpr ⟨m, hm, rfl⟩)
      by_cases hP : P m.pair
      · simp only [comp_apply, if_pos hP, decide_eq_true hP]
        simpa [Match.kept, Match.pair] using ⟨hstart, hstop⟩
      · simp [Match.kept, Match.mark, hP]
    rw [hkept]
    refine (map_congr_left fun m hm => ?_).trans (map_id _)
    exact if_pos (by simpa using (mem_filter.mp hm).2)
  rw [markReduce, hrange]
  refine represents_of_lines h1 h2 (hlines.trans (hmarked ▸ hleft)) htargets hkeywords (h1.lines.sublist filter_sublist)
    (fun m hm => .inl (mem_of_mem_filter hm)) fun p => ?_
  refine ⟨?_, ?_⟩
  · rintro ⟨hp, hP⟩
    obtain ⟨m, hm, rfl⟩ := mem_range_iff.mp hp
    exact ⟨m, mem_filter.mpr ⟨hm, decide_eq_true hP⟩, rfl⟩
  · rintro ⟨m, hm, rfl⟩
    obtain ⟨hm, hP⟩ := mem_filter.mp hm
    exact ⟨mem_range_iff.mpr ⟨m, hm, rfl⟩, of_decide_eq_true hP⟩

/-- The lines that are the walk's left and right list. -/
theorem common_ranges (h1 : c1.Canonical) (h2 : c2.Canonical) :
    SortedMerge.common Match.key (c1.range.map Match.ofRange) (c2.range.map Match.ofRange) =
      (c1.range.map Match.ofRange).map fun a => decide (a.pair ∈ c2.range) := by
  have hasc : ∀ {c : QueryResult}, c.Canonical → SortedMerge.Ascending Match.key (c.range.map Match.ofRange) :=
    fun h => pairwise_map.mpr (h.ascending.imp key_lt_iff.mpr)
  rw [SortedMerge.common_eq (hasc h1) (hasc h2)]
  refine map_congr_left fun a _ => decide_eq_decide.mpr ?_
  rw [List.map_map, List.mem_map]
  refine ⟨?_, fun h => ⟨a.pair, h, rfl⟩⟩
  rintro ⟨p, hp, heq⟩
  rwa [← toLex.injective heq]

theorem intersection_represents (h1 : c1.Canonical) (h2 : c2.Canonical) :
    Represents c1 c2 (c1.rangeSetop .intersection c2 none) {p | p ∈ c1.range ∧ p ∈ c2.range} := by
  show Represents c1 c2 (c1.markReduce (intersectionLoop · (c2.range.map Match.ofRange))) _
  refine markReduce_represents h1 h2 (· ∈ c2.range) ?_
  rw [intersectionLoop_eq, common_ranges h1 h2, zipWith_map_right, zipWith_self]
  simp only [decide_eq_true_eq]

theorem diff_represents (h1 : c1.Canonical) (h2 : c2.Canonical) :
    Represents c1 c2 (c1.rangeSetop .diff c2 none) {p | p ∈ c1.range ∧ p ∉ c2.range} := by
  show Represents c1 c2 (c1.markReduce (diffLoop · (c2.range.map Match.ofRange))) _
  refine markReduce_represents h1 h2 (· ∉ c2.range) ?_
  rw [diffLoop_eq, common_ranges h1 h2, zipWith_map_right, zipWith_self]
  simp only [decide_eq_true_eq, ite_not]

end QueryResult

/-- The set operations on canonically ordered results; the union stays inside the vectors that were
allocated for it. -/
theorem rangeSetop_represents {c1 c2 : QueryResult} (h1 : c1.Canonical) (h2 : c2.Canonical)
    (restrictor : Option (ℕ → Bool)) :
    (∃ res, QueryResult.rUnionVectors c1 c2 restrictor = some res ∧ res = c1.rangeSetop .union c2 restrictor ∧
      QueryResult.Represents c1 c2 res {p | p ∈ c1.range ∨ p ∈ QueryResult.selected c2 restrictor}) ∧
    QueryResult.Represents c1 c2 (c1.rangeSetop .intersection c2 none) {p | p ∈ c1.range ∧ p ∈ c2.range} ∧
    QueryResult.Represents c1 c2 (c1.rangeSetop .diff c2 none) {p | p ∈ c1.range ∧ p ∉ c2.range} :=
  ⟨⟨_, QueryResult.rUnionVectors_eq c1 c2 restrictor, rfl, QueryResult.union_represents h1 h2 restrictor⟩,
    QueryResult.intersection_represents h1 h2, QueryResult.diff_represents h1 h2⟩

/-- Nested ranges without anchors, and ranges with targets. -/
def plainResult : QueryResult := { range := [(0, 1), (0, 3), (4, 5)] }

def targetResult : QueryResult := { range := [(0, 1), (0, 2), (6, 6)], targets := some [1, 2, 6] }

theorem plainResult_canonical : plainResult.Canonical :=
  ⟨by unfold PairLt; decide, by decide, fun v hv => (by cases hv), fun v hv => (by cases hv)⟩

theorem targetResult_canonical : targetResult.Canonical :=
  ⟨by unfold PairLt; decide, by decide, fun v hv => (by cases hv; rfl), fun v hv => (by cases hv)⟩

theorem rangeSetop_represents_nested :
    (∃ res, plainResult.rUnionVectors targetResult (some (· ≠ 2)) = some res ∧
      res = plainResult.rangeSetop .union targetResult (some (· ≠ 2)) ∧
      QueryResult.Represents plainResult targetResult res
        {p | p ∈ plainResult.range ∨ p ∈ QueryResult.selected targetResult (some (· ≠ 2))}) ∧
    QueryResult.Represents plainResult targetResult (plainResult.rangeSetop .intersection targetResult none)
      {p | p ∈ plainResult.range ∧ p ∈ targetResult.range} ∧
    QueryResult.Represents plainResult targetResult (plainResult.rangeSetop .diff targetResult none)
      {p | p ∈ plainResult.range ∧ p ∉ targetResult.range} :=
  rangeSetop_represents plainResult_canonical targetResult_canonical (some (· ≠ 2))

/-- The range that both have keeps the missing target of the left operand. -/
example : (plainResult.rUnionVectors targetResult (some (· ≠ 2))).map (fun c => (c.range, c.targets)) =
    some ([(0, 1), (0, 2), (0, 3), (4, 5)], some [-1, 2, -1, -1]) := by
  decide +kernel

end CWB
