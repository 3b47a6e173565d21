import Mathlib.Algebra.Order.BigOperators.Group.Multiset
import Mathlib.Data.Finset.Max
import Mathlib.Data.Nat.Fib.Basic
import Mathlib.InformationTheory.Coding.KraftMcMillan
import Mathlib.Tactic.Linarith
import Mathlib.Tactic.FieldSimp

/-! Huffman trees. Merging the two lightest trees of a forest again and again gives a
tree of the least cost: no assignment of code lengths that satisfies Kraft's inequality,
and so no prefix code, does better. The exchange argument is made on multisets of pairs
of a weight and a length. -/

namespace Huffman

open List

inductive Tree (α : Type*) where
  | leaf (a : α)
  | node (l r : Tree α)

namespace Tree

variable {α : Type*} (w : α → ℕ)

def leaves : Tree α → List α
  | leaf a => [a]
  | node l r => l.leaves ++ r.leaves

/-- The leaves with their depths. -/
def depths : Tree α → List (α × ℕ)
  | leaf a => [(a, 0)]
  | node l r => (l.depths ++ r.depths).map fun p => (p.1, p.2 + 1)

def weight : Tree α → ℕ
  | leaf a => w a
  | node l r => l.weight + r.weight

/-- The sum of the weights of the inner nodes. -/
def cost : Tree α → ℕ
  | leaf _ => 0
  | node l r => l.cost + r.cost + (l.weight w + r.weight w)

theorem depths_fst (t : Tree α) : t.depths.map Prod.fst = t.leaves := by
  induction t with
  | leaf a => rfl
  | node l r ihl ihr =>
    rw [depths, map_map, leaves, ← ihl, ← ihr, ← map_append]
    rfl

theorem weight_eq (t : Tree α) : t.weight w = (t.depths.map fun p => w p.1).sum := by
  induction t with
  | leaf a => simp [weight, depths]
  | node l r ihl ihr => simp [weight, depths, ihl, ihr, Function.comp_def]

theorem cost_eq (t : Tree α) : t.cost w = (t.depths.map fun p => w p.1 * p.2).sum := by
  induction t with
  | leaf a => simp [cost, depths]
  | node l r ihl ihr =>
    have hshift : ∀ ps : List (α × ℕ), (ps.map fun p => w p.1 * (p.2 + 1)).sum =
        (ps.map fun p => w p.1 * p.2).sum + (ps.map fun p => w p.1).sum := by
      intro ps
      induction ps with
      | nil => rfl
      | cons p ps ih => simp only [map_cons, sum_cons, ih]; ring
    rw [cost, depths, map_map, map_append, sum_append, weight_eq, weight_eq, ihl, ihr]
    simp only [Function.comp_def]
    rw [hshift, hshift]
    ring

theorem kraft_eq_one (t : Tree α) : (t.depths.map fun p => (1 / 2 : ℚ) ^ p.2).sum = 1 := by
  induction t with
  | leaf a => simp [depths]
  | node l r ihl ihr =>
    have hhalf : ∀ ps : List (α × ℕ), (ps.map fun p => (1 / 2 : ℚ) ^ (p.2 + 1)).sum =
        (ps.map fun p => (1 / 2 : ℚ) ^ p.2).sum / 2 := by
      intro ps
      induction ps with
      | nil => simp
      | cons p ps ih => rw [map_cons, sum_cons, ih, map_cons, sum_cons, pow_succ]; ring
    rw [depths, map_map, map_append, sum_append]
    simp only [Function.comp_def]
    rw [hhalf, hhalf, ihl, ihr]
    norm_num

end Tree

/-! Weights with lengths. -/

def kraft (S : Multiset (ℕ × ℕ)) : ℚ := (S.map fun p => (1 / 2 : ℚ) ^ p.2).sum

def total (S : Multiset (ℕ × ℕ)) : ℕ := (S.map fun p => p.1 * p.2).sum

@[simp] theorem kraft_cons (p : ℕ × ℕ) (S : Multiset (ℕ × ℕ)) : kraft (p ::ₘ S) = (1 / 2) ^ p.2 + kraft S := by
  simp [kraft]

@[simp] theorem total_cons (p : ℕ × ℕ) (S : Multiset (ℕ × ℕ)) : total (p ::ₘ S) = p.1 * p.2 + total S := by
  simp [total]

/-- The least weight can have the greatest length. -/
theorem exists_longest (b l : ℕ) (R : Multiset (ℕ × ℕ)) (hb : ∀ p ∈ R, b ≤ p.1) :
    ∃ l' R', R'.map Prod.fst = R.map Prod.fst ∧ kraft ((b, l') ::ₘ R') = kraft ((b, l) ::ₘ R) ∧
      total ((b, l') ::ₘ R') ≤ total ((b, l) ::ₘ R) ∧ (∀ p ∈ R', p.2 ≤ l') ∧ (l' = l ∨ ∃ p ∈ R, l' = p.2) := by
  by_cases h : ∀ p ∈ R, p.2 ≤ l
  · exact ⟨l, R, rfl, rfl, le_rfl, h, .inl rfl⟩
  push Not at h
  obtain ⟨q, hq, hlq⟩ := h
  obtain ⟨m, hm, hmax⟩ := Finset.exists_max_image R.toFinset Prod.snd ⟨q, Multiset.mem_toFinset.mpr hq⟩
  obtain ⟨R0, rfl⟩ := Multiset.exists_cons_of_mem (Multiset.mem_toFinset.mp hm)
  have hle : ∀ p ∈ m ::ₘ R0, p.2 ≤ m.2 := fun p hp => hmax p (Multiset.mem_toFinset.mpr hp)
  have hlm : l < m.2 := lt_of_lt_of_le hlq (hle q hq)
  have hbm := hb m (Multiset.mem_cons_self m R0)
  refine ⟨m.2, (m.1, l) ::ₘ R0, by simp, by simp only [kraft_cons]; ring, ?_, ?_,
    .inr ⟨m, Multiset.mem_cons_self m R0, rfl⟩⟩
  · obtain ⟨d, hd⟩ := Nat.exists_eq_add_of_le hlm.le
    obtain ⟨e, he⟩ := Nat.exists_eq_add_of_le hbm
    simp only [total_cons, hd, he]
    ring_nf
    omega
  · intro p hp
    rcases Multiset.mem_cons.mp hp with rfl | hp
    · exact hlm.le
    · exact hle p (Multiset.mem_cons_of_mem hp)

theorem kraft_eq_div (R : Multiset (ℕ × ℕ)) {l : ℕ} (h : ∀ p ∈ R, p.2 ≤ l) : ∃ m : ℕ, kraft R = m / 2 ^ l := by
  induction R using Multiset.induction_on with
  | empty => exact ⟨0, by simp [kraft]⟩
  | cons p R ih =>
    obtain ⟨m, hm⟩ := ih fun q hq => h q (Multiset.mem_cons_of_mem hq)
    obtain ⟨d, hd⟩ := Nat.exists_eq_add_of_le (h p (Multiset.mem_cons_self p R))
    refine ⟨2 ^ d + m, ?_⟩
    rw [kraft_cons, hm, hd, one_div, inv_pow]
    push_cast
    rw [pow_add]
    field_simp

/-- A Kraft sum below 1 has room for one more word of the greatest length. -/
theorem kraft_room {R : Multiset (ℕ × ℕ)} {l : ℕ} (h : ∀ p ∈ R, p.2 ≤ l) (hlt : kraft R < 1) :
    (1 / 2 : ℚ) ^ l + kraft R ≤ 1 := by
  obtain ⟨m, hm⟩ := kraft_eq_div R h
  have hpos : (0 : ℚ) < 2 ^ l := by positivity
  rw [hm, div_lt_one hpos] at hlt
  have hm1 : m + 1 ≤ 2 ^ l := by exact_mod_cast hlt
  have : ((m + 1 : ℕ) : ℚ) ≤ 2 ^ l := by exact_mod_cast hm1
  rw [hm, one_div, inv_pow, inv_eq_one_div, ← add_div, div_le_one hpos]
  push_cast at this
  linarith

/-- Merging the two least weights costs what it saves, whatever the lengths were. -/
theorem exists_merge {a b : ℕ} {W : Multiset ℕ} {S : Multiset (ℕ × ℕ)} (hab : a ≤ b) (hb : ∀ c ∈ W, b ≤ c)
    (hS : S.map Prod.fst = a ::ₘ b ::ₘ W) (hk : kraft S ≤ 1) :
    ∃ S', S'.map Prod.fst = (a + b) ::ₘ W ∧ kraft S' ≤ 1 ∧ total S' + (a + b) ≤ total S := by
  -- `a` first gets the greatest length, then `b` the greatest of the others
  obtain ⟨⟨a', la⟩, hmem, ha'⟩ := Multiset.mem_map.mp (hS ▸ Multiset.mem_cons_self a _)
  simp only at ha'
  subst ha'
  obtain ⟨Q, rfl⟩ := Multiset.exists_cons_of_mem hmem
  rw [Multiset.map_cons, Multiset.cons_inj_right] at hS
  have hmin : ∀ p ∈ Q, a' ≤ p.1 := by
    intro p hp
    have : p.1 ∈ b ::ₘ W := hS ▸ Multiset.mem_map_of_mem Prod.fst hp
    rcases Multiset.mem_cons.mp this with h | h
    · exact h ▸ hab
    · exact hab.trans (hb _ h)
  obtain ⟨l1, Q1, hQ1, hk1, ht1, hmax1, -⟩ := exists_longest a' la Q hmin
  rw [hS] at hQ1
  obtain ⟨⟨b', lb⟩, hmemb, hb'⟩ := Multiset.mem_map.mp (hQ1 ▸ Multiset.mem_cons_self b _)
  simp only at hb'
  subst hb'
  obtain ⟨R, rfl⟩ := Multiset.exists_cons_of_mem hmemb
  rw [Multiset.map_cons, Multiset.cons_inj_right] at hQ1
  obtain ⟨l2, R2, hR2, hk2, ht2, hmax2, hl2⟩ := exists_longest b' lb R
    fun p hp => hb _ (hQ1 ▸ Multiset.mem_map_of_mem Prod.fst hp)
  have hle : l2 ≤ l1 := by
    rcases hl2 with rfl | ⟨p, hp, rfl⟩
    · exact hmax1 _ (Multiset.mem_cons_self _ _)
    · exact hmax1 _ (Multiset.mem_cons_of_mem hp)
  -- `a` is then shortened to the length of `b`
  have hroom : (1 / 2 : ℚ) ^ l2 + ((1 / 2) ^ l2 + kraft R2) ≤ 1 := by
    rw [← hk1, kraft_cons, ← hk2] at hk
    have hpos : (0 : ℚ) < (1 / 2) ^ l1 := by positivity
    have := kraft_room (R := (b', l2) ::ₘ R2) (l := l2) (by
      intro p hp
      rcases Multiset.mem_cons.mp hp with rfl | hp
      · exact le_rfl
      · exact hmax2 p hp) (by linarith)
    rwa [kraft_cons] at this
  have hkR : 0 ≤ kraft R2 := Multiset.sum_nonneg fun x hx => by
    obtain ⟨p, -, rfl⟩ := Multiset.mem_map.mp hx
    positivity
  obtain ⟨l, rfl⟩ : ∃ l, l2 = l + 1 := by
    cases l2 with
    | zero => norm_num at hroom; linarith
    | succ l => exact ⟨l, rfl⟩
  refine ⟨(a' + b', l) ::ₘ R2, by rw [Multiset.map_cons, hR2, hQ1], ?_, ?_⟩
  · rw [kraft_cons]
    rw [pow_succ] at hroom
    linarith
  · simp only [total_cons] at ht1 ht2 ⊢
    have : a' * (l + 1) ≤ a' * l1 := Nat.mul_le_mul_left _ hle
    linarith [Nat.add_mul a' b' l, Nat.mul_succ a' l, Nat.mul_succ b' l]

/-! Forests. -/

variable {α : Type*} (w : α → ℕ)

/-- Two trees that no other tree of the forest is lighter than are made one. -/
inductive Merges : Multiset (Tree α) → Multiset (Tree α) → Prop
  | merge {s t : Tree α} {F : Multiset (Tree α)} (hst : s.weight w ≤ t.weight w)
      (ht : ∀ u ∈ F, t.weight w ≤ u.weight w) : Merges (s ::ₘ t ::ₘ F) (.node s t ::ₘ F)

/-- Along a run of merges the cost of the last tree stays below any assignment of
lengths to the trees of the forest. -/
theorem cost_le_of_merges {F : Multiset (Tree α)} {t : Tree α} (h : Relation.ReflTransGen (Merges w) F {t})
    {S : Multiset (ℕ × ℕ)} (hS : S.map Prod.fst = F.map (Tree.weight w)) (hk : kraft S ≤ 1) :
    t.cost w ≤ (F.map (Tree.cost w)).sum + total S := by
  induction h using Relation.ReflTransGen.head_induction_on generalizing S with
  | refl => simp
  | head hm _ ih =>
    obtain ⟨hst, ht⟩ := hm
    rw [Multiset.map_cons, Multiset.map_cons] at hS
    obtain ⟨S', hS', hk', htot⟩ := exists_merge hst (by simpa using ht) hS hk
    have := ih (S := S') (by rw [Multiset.map_cons, hS']; rfl) hk'
    simp only [Multiset.map_cons, Multiset.sum_cons, Tree.cost] at this ⊢
    omega

/-! Heights. -/

/-- The length of the longest path to a leaf. -/
def Tree.height : Tree α → ℕ
  | .leaf _ => 0
  | .node l r => max l.height r.height + 1

theorem Tree.depth_le_height (t : Tree α) : ∀ p ∈ t.depths, p.2 ≤ t.height := by
  induction t with
  | leaf a => simp [depths, height]
  | node l r ihl ihr =>
    intro p hp
    obtain ⟨q, hq, rfl⟩ := mem_map.mp hp
    rw [height]
    rcases mem_append.mp hq with hq | hq
    · have := ihl q hq
      omega
    · have := ihr q hq
      omega

theorem Tree.exists_deepest (t : Tree α) : ∃ p ∈ t.depths, p.2 = t.height := by
  induction t with
  | leaf a => exact ⟨(a, 0), by simp [depths], rfl⟩
  | node l r ihl ihr =>
    obtain ⟨p, hp, hl⟩ := ihl
    obtain ⟨q, hq, hr⟩ := ihr
    rcases le_total l.height r.height with hle | hle
    · refine ⟨(q.1, q.2 + 1), mem_map_of_mem (mem_append_right _ hq), ?_⟩
      rw [height, max_eq_right hle, hr]
    · refine ⟨(p.1, p.2 + 1), mem_map_of_mem (mem_append_left _ hp), ?_⟩
      rw [height, max_eq_left hle, hl]

/-- High trees are heavy: with `m` the least weight of a leaf, the weights grow like the Fibonacci
numbers, and no tree of the forest is lighter than the children of another one. -/
def Heavy (m : ℕ) (F : Multiset (Tree α)) : Prop := ∀ x ∈ F,
  m * Nat.fib (x.height + 2) ≤ x.weight w ∧ ∀ y ∈ F, m * Nat.fib (x.height + 1) ≤ y.weight w

theorem Heavy.merge {m : ℕ} {F F' : Multiset (Tree α)} (h : Heavy w m F) (hm : Merges w F F') : Heavy w m F' := by
  obtain @⟨s, t, F, hst, ht⟩ := hm
  obtain ⟨hs, hs'⟩ := h s (by simp)
  obtain ⟨htt, ht'⟩ := h t (by simp)
  have hgrow : ∀ {a b : ℕ}, a ≤ b → m * Nat.fib a ≤ m * Nat.fib b := fun hab => Nat.mul_le_mul_left m (Nat.fib_mono hab)
  have hnode : m * Nat.fib (max s.height t.height + 3) ≤ s.weight w + t.weight w := by
    have hfib : ∀ n, m * Nat.fib (n + 3) = m * Nat.fib (n + 1) + m * Nat.fib (n + 2) := fun n => by
      rw [← Nat.mul_add, ← Nat.fib_add_two]
    rw [hfib]
    rcases le_total s.height t.height with hle | hle
    · rw [max_eq_right hle]
      have := ht' s (by simp)
      omega
    · rw [max_eq_left hle]
      have := hs' t (by simp)
      omega
  -- both merged trees are at most as heavy as `t`
  have hchild : m * Nat.fib (max s.height t.height + 2) ≤ t.weight w := by
    rcases le_total s.height t.height with hle | hle
    · rwa [max_eq_right hle]
    · rw [max_eq_left hle]
      omega
  intro x hx
  rcases Multiset.mem_cons.mp hx with rfl | hx
  · refine ⟨by simpa [Tree.height, Tree.weight] using hnode, fun y hy => ?_⟩
    rcases Multiset.mem_cons.mp hy with rfl | hy
    · have := hgrow (show max s.height t.height + 2 ≤ max s.height t.height + 3 by omega)
      simp only [Tree.height, Tree.weight]
      exact this.trans hnode
    · exact hchild.trans (ht y hy)
  · obtain ⟨hweight, hother⟩ := h x (by simp [hx])
    refine ⟨hweight, fun y hy => ?_⟩
    rcases Multiset.mem_cons.mp hy with rfl | hy
    · have := hother t (by simp)
      rw [Tree.weight]
      omega
    · exact hother y (by simp [hy])

/-- A tree of a given height needs a total weight that grows like the Fibonacci numbers. -/
theorem fib_height_le {m : ℕ} {as : Multiset α} {t : Tree α} (h : Relation.ReflTransGen (Merges w) (as.map Tree.leaf) {t})
    (hm : ∀ a ∈ as, m ≤ w a) : m * Nat.fib (t.height + 2) ≤ t.weight w := by
  have hstart : Heavy w m (as.map Tree.leaf) := by
    intro x hx
    obtain ⟨a, ha, rfl⟩ := Multiset.mem_map.mp hx
    refine ⟨by simpa [Tree.height, Tree.weight] using hm a ha, fun y hy => ?_⟩
    obtain ⟨b, hb, rfl⟩ := Multiset.mem_map.mp hy
    simpa [Tree.height, Tree.weight] using hm b hb
  have hend : ∀ {F : Multiset (Tree α)}, Relation.ReflTransGen (Merges w) (as.map Tree.leaf) F → Heavy w m F := fun h => by
    induction h with
    | refl => exact hstart
    | tail _ hstep ih => exact ih.merge w hstep
  exact (hend h t (Multiset.mem_singleton_self t)).1

/-- Each further weight is larger than the one before and than all before it that are merged. -/
def Chained : ℕ → List α → Prop
  | _, [] => True
  | total, a :: as => (∀ b ∈ as, total < w b ∧ w a < w b) ∧ Chained (total + w a) as

theorem lightest_unique {x y : Tree α} {G M : Multiset (Tree α)} (h : x ::ₘ G = y ::ₘ M)
    (hG : ∀ u ∈ G, x.weight w ≤ u.weight w) (hM : ∀ u ∈ M, y.weight w < u.weight w) : x = y ∧ G = M := by
  have hx : x ∈ y ::ₘ M := h ▸ Multiset.mem_cons_self x G
  have hy : y ∈ x ::ₘ G := h ▸ Multiset.mem_cons_self y M
  have hxy : x = y := by
    by_contra hne
    have hlt := hM x ((Multiset.mem_cons.mp hx).resolve_left hne)
    have hle := hG y ((Multiset.mem_cons.mp hy).resolve_left (Ne.symm hne))
    omega
  rw [hxy] at h
  exact ⟨hxy, (Multiset.cons_inj_right y).mp h⟩

/-- If all other trees are heavier than `x` and `y`, these are merged. -/
theorem Merges.lightest {x y : Tree α} {M F' : Multiset (Tree α)} (h : Merges w (x ::ₘ y ::ₘ M) F')
    (hM : ∀ u ∈ M, x.weight w < u.weight w ∧ y.weight w < u.weight w) :
    F' = .node x y ::ₘ M ∨ F' = .node y x ::ₘ M := by
  generalize hF : x ::ₘ y ::ₘ M = F at h
  obtain @⟨s, t, G, hst, ht⟩ := h
  have hs : s ∈ x ::ₘ y ::ₘ M := hF ▸ Multiset.mem_cons_self s _
  rcases Multiset.mem_cons.mp hs with rfl | hs
  · have htail := (Multiset.cons_inj_right s).mp hF
    obtain ⟨rfl, rfl⟩ := lightest_unique w htail.symm ht fun u hu => (hM u hu).2
    exact .inl rfl
  rcases Multiset.mem_cons.mp hs with rfl | hs
  · rw [Multiset.cons_swap] at hF
    have htail := (Multiset.cons_inj_right s).mp hF
    obtain ⟨rfl, rfl⟩ := lightest_unique w htail.symm ht fun u hu => (hM u hu).1
    exact .inr rfl
  · -- then `x` would be lighter than the lightest tree
    have hlt := (hM s hs).1
    have hx : x ∈ s ::ₘ t ::ₘ G := hF ▸ Multiset.mem_cons_self x _
    rcases Multiset.mem_cons.mp hx with rfl | hx
    · omega
    · have hle : t.weight w ≤ x.weight w := by
        rcases Multiset.mem_cons.mp hx with rfl | hx
        · exact le_rfl
        · exact ht x hx
      omega

/-- Such weights make a tree with one leaf on each level. -/
theorem height_of_chained {x t : Tree α} {as : List α} (hchain : Chained w (x.weight w) as)
    (h : Relation.ReflTransGen (Merges w) (x ::ₘ (as.map Tree.leaf : List (Tree α))) {t}) : t.height = x.height + as.length := by
  induction as generalizing x with
  | nil =>
    rcases Relation.ReflTransGen.cases_head h with heq | ⟨F, hstep, -⟩
    · obtain rfl := Multiset.singleton_inj.mp heq
      simp
    · have hcard : ∀ {F F' : Multiset (Tree α)}, Merges w F F' → 2 ≤ F.card := fun hm => by
        obtain ⟨-, -⟩ := hm
        simp
      have := hcard hstep
      simp at this
  | cons a as ih =>
    obtain ⟨hlight, hchain⟩ := hchain
    rw [map_cons, ← Multiset.cons_coe] at h
    rcases Relation.ReflTransGen.cases_head h with heq | ⟨F, hstep, h⟩
    · have := congrArg Multiset.card heq
      simp at this
    · have hM : ∀ u ∈ ((as.map Tree.leaf : List (Tree α)) : Multiset (Tree α)),
          x.weight w < u.weight w ∧ (Tree.leaf a).weight w < u.weight w := fun u hu => by
        obtain ⟨b, hb, rfl⟩ := mem_map.mp (Multiset.mem_coe.mp hu)
        exact hlight b hb
      rcases hstep.lightest w hM with rfl | rfl
      · rw [ih (by simpa [Tree.weight] using hchain) h]
        simp [Tree.height, Nat.add_assoc, Nat.add_comm 1]
      · rw [ih (by simpa [Tree.weight, Nat.add_comm] using hchain) h]
        simp [Tree.height, Nat.add_assoc, Nat.add_comm 1]

/-! Prefix codes. -/

/-- None of the first `n` code words begins another. -/
def PrefixCode (n : ℕ) (code : ℕ → List Bool) : Prop := ∀ i < n, ∀ j < n, i ≠ j → ¬ code i <+: code j

theorem uniquelyDecodable_of_prefixFree {β : Type*} {S : Set (List β)} (h0 : [] ∉ S)
    (h : ∀ u ∈ S, ∀ v ∈ S, u <+: v → u = v) : InformationTheory.UniquelyDecodable S := by
  intro L1
  induction L1 with
  | nil =>
    intro L2 _ h2 heq
    cases L2 with
    | nil => rfl
    | cons v L2 =>
      rw [flatten_nil, flatten_cons, eq_comm, append_eq_nil_iff] at heq
      exact absurd (heq.1 ▸ h2 v mem_cons_self) h0
  | cons u L1 ih =>
    intro L2 h1 h2 heq
    cases L2 with
    | nil =>
      rw [flatten_nil, flatten_cons, append_eq_nil_iff] at heq
      exact absurd (heq.1 ▸ h1 u mem_cons_self) h0
    | cons v L2 =>
      rw [flatten_cons, flatten_cons] at heq
      have hu := h1 u mem_cons_self
      have hv := h2 v mem_cons_self
      have huv : u = v := by
        rcases prefix_or_prefix_of_prefix (prefix_append u L1.flatten)
          (heq ▸ prefix_append v L2.flatten) with hp | hp
        · exact h u hu v hv hp
        · exact (h v hv u hu hp).symm
      subst huv
      rw [ih L2 (fun x hx => h1 x (mem_cons_of_mem _ hx)) (fun x hx => h2 x (mem_cons_of_mem _ hx))
        (append_cancel_left heq)]

theorem PrefixCode.kraft_le {n : ℕ} {code : ℕ → List Bool} (h : PrefixCode n code) (hn : 2 ≤ n) :
    ∑ i ∈ Finset.range n, (1 / 2 : ℚ) ^ (code i).length ≤ 1 := by
  have hinj : Set.InjOn code (Finset.range n : Set ℕ) := by
    intro i hi j hj hij
    by_contra hne
    exact h i (by simpa using hi) j (by simpa using hj) hne (hij ▸ prefix_refl _)
  have hud : InformationTheory.UniquelyDecodable (((Finset.range n).image code : Finset _) : Set (List Bool)) := by
    refine uniquelyDecodable_of_prefixFree ?_ ?_
    · intro hnil
      obtain ⟨i, hi, hnil⟩ := by simpa using hnil
      obtain ⟨j, hj, hne⟩ : ∃ j < n, i ≠ j := by
        by_cases h0 : i = 0
        · exact ⟨1, by omega, by omega⟩
        · exact ⟨0, by omega, h0⟩
      exact h i hi j hj hne (hnil ▸ nil_prefix)
    · intro u hu v hv huv
      obtain ⟨i, hi, rfl⟩ := by simpa using hu
      obtain ⟨j, hj, rfl⟩ := by simpa using hv
      by_contra hne
      exact h i hi j hj (fun hij => hne (hij ▸ rfl)) huv
  have := InformationTheory.kraft_mcmillan_inequality hud
  rw [Finset.sum_image hinj] at this
  have hcast : ((∑ i ∈ Finset.range n, (1 / 2 : ℚ) ^ (code i).length : ℚ) : ℝ) ≤ 1 := by
    push_cast
    simpa using this
  exact_mod_cast hcast

end Huffman
