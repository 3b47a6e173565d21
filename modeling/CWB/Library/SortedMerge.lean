import Mathlib.Data.List.Basic
import Mathlib.Order.Lattice

/-! Two walks over a pair of lists with strictly ascending keys: the union, in which an element of the
left list displaces one of the right list, and the search for the keys that both have. -/

namespace SortedMerge

open List

variable {α κ : Type*} [LinearOrder κ] (key : α → κ)

/-- Elements of the right list are copied if their bit is set. -/
def union : List α → List (α × Bool) → List α
  | [], bs => (bs.filter Prod.snd).map Prod.fst
  | a :: as, [] => a :: as
  | a :: as, b :: bs =>
    if key a < key b.1 then a :: union as (b :: bs)
    else if key b.1 < key a then
      if b.2 then b.1 :: union (a :: as) bs else union (a :: as) bs
    else a :: union as bs
termination_by as bs => as.length + bs.length

/-- Which elements of the left list have a key that the walk meets in the right one. -/
def common : List α → List α → List Bool
  | [], _ => []
  | _ :: as, [] => false :: common as []
  | a :: as, b :: bs =>
    if key a < key b then false :: common as (b :: bs)
    else if key b < key a then common (a :: as) bs
    else true :: common as bs
termination_by as bs => as.length + bs.length

def Ascending (l : List α) : Prop := l.Pairwise fun a b => key a < key b

variable {key} {as : List α} {bs : List (α × Bool)} {a : α} {b : α × Bool}

theorem Ascending.ne (h : Ascending key (a :: as)) {x : α} (hx : x ∈ as) : key x ≠ key a :=
  ne_of_gt ((pairwise_cons.mp h).1 x hx)

/-- What comes before the head comes before the list. -/
theorem Ascending.lt_of_lt (h : Ascending key (a :: as)) {k : κ} (hk : k < key a) {x : α} (hx : x ∈ a :: as) :
    k < key x := by
  rcases mem_cons.mp hx with rfl | hx
  · exact hk
  · exact hk.trans ((pairwise_cons.mp h).1 x hx)

theorem Ascending.tail (h : Ascending key (a :: as)) : Ascending key as := (pairwise_cons.mp h).2

theorem mem_union (ha : Ascending key as) (hb : Ascending key (bs.map Prod.fst)) (x : α) :
    x ∈ union key as bs ↔ x ∈ as ∨ ((x, true) ∈ bs ∧ ∀ y ∈ as, key y ≠ key x) := by
  induction as, bs using union.induct key with
  | case1 bs =>
    rw [union]
    simp
  | case2 a as =>
    rw [union]
    simp
  | case3 a as b bs hlt ih =>
    have hne : (x, true) ∈ b :: bs → key a ≠ key x := fun hx =>
      (hb.lt_of_lt hlt (mem_map_of_mem hx : x ∈ (b :: bs).map Prod.fst)).ne
    have hrest : ((x, true) ∈ b :: bs ∧ ∀ y ∈ a :: as, key y ≠ key x) ↔
        (x, true) ∈ b :: bs ∧ ∀ y ∈ as, key y ≠ key x := by
      rw [forall_mem_cons]
      exact and_congr_right fun hx => and_iff_right (hne hx)
    rw [union, if_pos hlt, mem_cons, ih ha.tail hb, hrest, ← or_assoc, ← mem_cons]
  | case4 a as b bs hlt hgt hbit ih =>
    have hfirst : ∀ y ∈ a :: as, key y ≠ key b.1 := fun y hy => (ha.lt_of_lt hgt hy).ne'
    have hb' : (x, true) ∈ b :: bs ↔ x = b.1 ∨ (x, true) ∈ bs := by
      rw [mem_cons, ← hbit]
      exact or_congr_left ⟨fun h => congrArg Prod.fst h, fun h => Prod.ext h rfl⟩
    rw [union, if_neg hlt, if_pos hgt, if_pos hbit, mem_cons, ih ha hb.tail, hb', or_and_right]
    refine ⟨?_, ?_⟩
    · rintro (rfl | h | h)
      · exact .inr (.inl ⟨rfl, hfirst⟩)
      · exact .inl h
      · exact .inr (.inr h)
    · rintro (h | ⟨rfl, -⟩ | h)
      · exact .inr (.inl h)
      · exact .inl rfl
      · exact .inr (.inr h)
  | case5 a as b bs hlt hgt hbit ih =>
    have hb' : (x, true) ∈ b :: bs ↔ (x, true) ∈ bs := by
      rw [mem_cons]
      exact or_iff_right fun h => hbit (congrArg Prod.snd h).symm
    rw [union, if_neg hlt, if_pos hgt, if_neg hbit, ih ha hb.tail, hb']
  | case6 a as b bs hlt hgt ih =>
    have heq : key a = key b.1 := le_antisymm (not_lt.mp hgt) (not_lt.mp hlt)
    have hne : (x, true) ∈ bs → key a ≠ key x := fun hx => by
      rw [heq]
      exact (hb.ne (mem_map_of_mem hx : x ∈ bs.map Prod.fst)).symm
    have hrest : ((x, true) ∈ b :: bs ∧ ∀ y ∈ a :: as, key y ≠ key x) ↔
        (x, true) ∈ bs ∧ ∀ y ∈ as, key y ≠ key x := by
      rw [forall_mem_cons]
      refine ⟨fun h => ⟨(mem_cons.mp h.1).resolve_left fun hx => h.2.1 ?_, h.2.2⟩, fun h =>
        ⟨mem_cons_of_mem b h.1, hne h.1, h.2⟩⟩
      rw [heq, ← hx]
    rw [union, if_neg hlt, if_neg hgt, mem_cons, ih ha.tail hb.tail, hrest, ← or_assoc, ← mem_cons]

theorem ascending_union (ha : Ascending key as) (hb : Ascending key (bs.map Prod.fst)) : Ascending key (union key as bs) := by
  induction as, bs using union.induct key with
  | case1 bs =>
    rw [union]
    exact hb.sublist (filter_sublist.map _)
  | case2 a as =>
    rw [union]
    exact ha
  | case3 a as b bs hlt ih =>
    rw [union, if_pos hlt]
    refine pairwise_cons.mpr ⟨fun x hx => ?_, ih ha.tail hb⟩
    rcases (mem_union ha.tail hb x).mp hx with h | h
    · exact (pairwise_cons.mp ha).1 x h
    · exact hb.lt_of_lt hlt (mem_map_of_mem h.1 : x ∈ (b :: bs).map Prod.fst)
  | case4 a as b bs hlt hgt hbit ih =>
    rw [union, if_neg hlt, if_pos hgt, if_pos hbit]
    refine pairwise_cons.mpr ⟨fun x hx => ?_, ih ha hb.tail⟩
    rcases (mem_union ha hb.tail x).mp hx with h | h
    · exact ha.lt_of_lt hgt h
    · exact (pairwise_cons.mp hb).1 x (mem_map_of_mem h.1 : x ∈ bs.map Prod.fst)
  | case5 a as b bs hlt hgt hbit ih =>
    rw [union, if_neg hlt, if_pos hgt, if_neg hbit]
    exact ih ha hb.tail
  | case6 a as b bs hlt hgt ih =>
    have heq : key a = key b.1 := le_antisymm (not_lt.mp hgt) (not_lt.mp hlt)
    rw [union, if_neg hlt, if_neg hgt]
    refine pairwise_cons.mpr ⟨fun x hx => ?_, ih ha.tail hb.tail⟩
    rcases (mem_union ha.tail hb.tail x).mp hx with h | h
    · exact (pairwise_cons.mp ha).1 x h
    · rw [heq]
      exact (pairwise_cons.mp hb).1 x (mem_map_of_mem h.1 : x ∈ bs.map Prod.fst)

theorem union_nil_right (key : α → κ) (as : List α) : union key as [] = as := by
  cases as <;> rw [union]
  rfl

theorem union_nil_left (key : α → κ) (bs : List α) : union key [] (bs.map (·, true)) = bs := by
  rw [union, filter_map, map_map]
  simp [Function.comp_def]

/-- If every bit is set, the union has the keys of both lists, in whatever order they are. -/
theorem mem_keys_union (key : α → κ) (as bs : List α) (k : κ) :
    k ∈ (union key as (bs.map (·, true))).map key ↔ k ∈ as.map key ∨ k ∈ bs.map key := by
  induction as generalizing bs with
  | nil => simp [union_nil_left]
  | cons a as iha =>
    induction bs with
    | nil => simp [union_nil_right]
    | cons b bs ihb =>
      have hnext := iha (b :: bs)
      rw [map_cons] at hnext
      simp only [map_cons, union, if_true]
      split_ifs with hlt hgt
      · rw [map_cons, mem_cons, hnext, mem_cons, or_assoc]
        rfl
      · rw [map_cons, mem_cons, ihb, mem_cons (l := bs.map key)]
        exact or_left_comm
      · have heq : key a = key b := le_antisymm (not_lt.mp hgt) (not_lt.mp hlt)
        rw [map_cons, mem_cons, iha bs, mem_cons, mem_cons, ← heq]
        tauto

/-- The union is ordered as both lists are, strictly or not. -/
theorem pairwise_keys_union {R : κ → κ → Prop} (hlt : ∀ x y, x < y → R x y) (hle : ∀ x y, R x y → x ≤ y) (key : α → κ)
    {as bs : List α} (ha : (as.map key).Pairwise R) (hb : (bs.map key).Pairwise R) :
    ((union key as (bs.map (·, true))).map key).Pairwise R := by
  have hbefore : ∀ {x y : α} {l : List α}, ((y :: l).map key).Pairwise R → key x < key y → ∀ k ∈ (y :: l).map key, R (key x) k := by
    intro x y l h hxy k hk
    rcases mem_cons.mp hk with rfl | hk
    · exact hlt _ _ hxy
    · exact hlt _ _ (hxy.trans_le (hle _ _ ((pairwise_cons.mp h).1 k hk)))
  -- the first element comes before the keys of both lists
  have hcons : ∀ {x : α} {as bs : List α}, (∀ k ∈ as.map key, R (key x) k) → (∀ k ∈ bs.map key, R (key x) k) →
      ((union key as (bs.map (·, true))).map key).Pairwise R →
      ((x :: union key as (bs.map (·, true))).map key).Pairwise R := by
    intro x as bs hxa hxb h
    refine pairwise_cons.mpr ⟨fun k hk => ?_, h⟩
    rcases (mem_keys_union key as bs k).mp hk with hk | hk
    · exact hxa k hk
    · exact hxb k hk
  induction as generalizing bs with
  | nil => rwa [union_nil_left]
  | cons a as iha =>
    induction bs with
    | nil => rwa [map_nil, union_nil_right]
    | cons b bs ihb =>
      have ha' := pairwise_cons.mp ha
      have hb' := pairwise_cons.mp hb
      simp only [map_cons, union, if_true]
      split_ifs with hab hba
      · exact hcons ha'.1 (hbefore hb hab) (iha ha'.2 hb)
      · exact hcons (hbefore ha hba) hb'.1 (ihb hb'.2)
      · have heq : key a = key b := le_antisymm (not_lt.mp hba) (not_lt.mp hab)
        exact hcons ha'.1 (heq ▸ hb'.1) (iha ha'.2 hb'.2)

/-- The room that the union needs can be computed in advance. -/
theorem length_union (key : α → κ) (as : List α) (bs : List (α × Bool)) :
    (union key as bs).length ≤ as.length + (bs.filter Prod.snd).length := by
  induction as, bs using union.induct key with
  | case1 bs =>
    rw [union, length_map]
    exact Nat.le_add_left _ _
  | case2 a as =>
    rw [union]
    exact Nat.le_add_right _ _
  | case3 a as b bs hlt ih =>
    rw [union, if_pos hlt]
    simp only [length_cons]
    omega
  | case4 a as b bs hlt hgt hbit ih =>
    rw [union, if_neg hlt, if_pos hgt, if_pos hbit, filter_cons_of_pos hbit]
    simp only [length_cons] at ih ⊢
    omega
  | case5 a as b bs hlt hgt hbit ih =>
    rw [union, if_neg hlt, if_pos hgt, if_neg hbit, filter_cons_of_neg hbit]
    exact ih
  | case6 a as b bs hlt hgt ih =>
    rw [union, if_neg hlt, if_neg hgt]
    have := (sublist_cons_self b bs).filter Prod.snd |>.length_le
    simp only [length_cons] at ih ⊢
    omega

/-- The walk meets exactly the keys of the right list. -/
theorem common_eq {bs : List α} (ha : Ascending key as) (hb : Ascending key bs) :
    common key as bs = as.map fun a => decide (key a ∈ bs.map key) := by
  induction as, bs using common.induct key with
  | case1 bs => rw [common, map_nil]
  | case2 a as ih =>
    rw [common, ih ha.tail List.Pairwise.nil]
    rfl
  | case3 a as b bs hlt ih =>
    have hnot : key a ∉ (b :: bs).map key := by
      intro h
      obtain ⟨x, hx, heq⟩ := mem_map.mp h
      exact (hb.lt_of_lt hlt hx).ne' heq
    rw [common, if_pos hlt, ih ha.tail hb, map_cons (a := a), decide_eq_false hnot]
  | case4 a as b bs hlt hgt ih =>
    rw [common, if_neg hlt, if_pos hgt, ih ha hb.tail]
    refine map_congr_left fun x hx => ?_
    refine decide_eq_decide.mpr ?_
    rw [map_cons, mem_cons, or_iff_right (ha.lt_of_lt hgt hx).ne']
  | case5 a as b bs hlt hgt ih =>
    have heq : key a = key b := le_antisymm (not_lt.mp hgt) (not_lt.mp hlt)
    have hmem : key a ∈ (b :: bs).map key := by
      rw [heq]
      exact mem_map_of_mem mem_cons_self
    rw [common, if_neg hlt, if_neg hgt, ih ha.tail hb.tail, map_cons (a := a), decide_eq_true hmem]
    refine congrArg _ (map_congr_left fun x hx => decide_eq_decide.mpr ?_)
    rw [map_cons, mem_cons, or_iff_right (heq ▸ ha.ne hx)]

end SortedMerge
