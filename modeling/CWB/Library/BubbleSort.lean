import Mathlib.Data.List.Chain
import Mathlib.Data.List.Perm.Basic
import Mathlib.Data.List.Count
import Mathlib.Tactic.Ring

/-! Bubble sort: passes over the list that exchange neighbours, until a pass exchanges none. Neighbours
that need not be exchanged stay, so the sort is stable. -/

namespace BubbleSort

open List

variable {α : Type*} (swap : α → α → Bool)

/-- One pass over `a :: l`, and whether it has exchanged any neighbours. -/
def pass : α → List α → List α × Bool
  | a, [] => ([a], false)
  | a, b :: l =>
    if swap a b then (b :: (pass a l).1, true)
    else (a :: (pass b l).1, (pass b l).2)

/-- The passes; `none` if they are not enough. -/
def sortLoop : ℕ → List α → Option (List α)
  | 0, _ => none
  | _ + 1, [] => some []
  | passes + 1, a :: l => if (pass swap a l).2 then sortLoop passes (pass swap a l).1 else some (pass swap a l).1

def sort (l : List α) : Option (List α) := sortLoop swap (l.length * l.length + 1) l

variable {swap} {a b : α} {l l' : List α}

theorem pass_cons : pass swap a (b :: l) =
    if swap a b then (b :: (pass swap a l).1, true) else (a :: (pass swap b l).1, (pass swap b l).2) :=
  rfl

theorem sortLoop_cons {passes : ℕ} : sortLoop swap (passes + 1) (a :: l) =
    if (pass swap a l).2 then sortLoop swap passes (pass swap a l).1 else some (pass swap a l).1 :=
  rfl

theorem pass_perm (a : α) (l : List α) : (pass swap a l).1.Perm (a :: l) := by
  induction l generalizing a with
  | nil => exact .refl _
  | cons b l ih =>
    rw [pass_cons]
    split_ifs
    · exact ((ih a).cons b).trans (.swap a b l)
    · exact (ih b).cons a

variable {R : α → α → Prop}

/-- A relation that holds along the list is kept, if it holds between neighbours after their exchange. -/
theorem pass_pairwise (hR : ∀ a b, swap a b = true → R b a) (h : (a :: l).Pairwise R) :
    (pass swap a l).1.Pairwise R := by
  induction l generalizing a with
  | nil => exact h
  | cons b l ih =>
    obtain ⟨ha, hb, hl⟩ : (∀ x ∈ b :: l, R a x) ∧ (∀ x ∈ l, R b x) ∧ l.Pairwise R := by
      rw [pairwise_cons, pairwise_cons] at h
      exact h
    rw [pass_cons]
    split_ifs with hswap
    · have hrest := ih (pairwise_cons.mpr ⟨fun x hx => ha x (mem_cons_of_mem b hx), hl⟩)
      refine pairwise_cons.mpr ⟨fun x hx => ?_, hrest⟩
      obtain rfl | hx := mem_cons.mp ((pass_perm a l).mem_iff.mp hx)
      · exact hR _ b hswap
      · exact hb x hx
    · have hrest := ih (pairwise_cons.mpr ⟨hb, hl⟩)
      exact pairwise_cons.mpr ⟨fun x hx => ha x ((pass_perm b l).mem_iff.mp hx), hrest⟩

/-- A pass without an exchange leaves the list as it is, with its neighbours in order. -/
theorem pass_unchanged (h : (pass swap a l).2 = false) :
    (pass swap a l).1 = a :: l ∧ (a :: l).IsChain fun x y => swap x y = false := by
  induction l generalizing a with
  | nil => exact ⟨rfl, .singleton a⟩
  | cons b l ih =>
    rw [pass_cons] at h ⊢
    split_ifs at h ⊢ with hswap
    obtain ⟨heq, hchain⟩ := ih h
    rw [heq]
    exact ⟨rfl, isChain_cons_cons.mpr ⟨by simpa using hswap, hchain⟩⟩

/-- The pairs that stand the wrong way round. -/
def inversions (swap : α → α → Bool) : List α → ℕ
  | [] => 0
  | a :: l => l.countP (swap a) + inversions swap l

theorem inversions_cons : inversions swap (a :: l) = l.countP (swap a) + inversions swap l := rfl

theorem pass_inversions (hasymm : ∀ a b, swap a b = true → swap b a = false) (a : α) (l : List α) :
    inversions swap (pass swap a l).1 + (if (pass swap a l).2 then 1 else 0) ≤ inversions swap (a :: l) := by
  induction l generalizing a with
  | nil => exact le_rfl
  | cons b l ih =>
    rw [pass_cons]
    by_cases hswap : swap a b = true
    · have hcount : (pass swap a l).1.countP (swap b) = l.countP (swap b) := by
        rw [(pass_perm a l).countP_eq, countP_cons_of_neg (by rw [hasymm a b hswap]; simp)]
      have hrest := ih a
      rw [if_pos hswap]
      simp only [inversions_cons, if_true] at hrest ⊢
      rw [hcount, countP_cons_of_pos hswap]
      omega
    · have hrest := ih b
      rw [if_neg hswap]
      simp only [inversions_cons] at hrest ⊢
      rw [(pass_perm b l).countP_eq]
      omega

theorem inversions_le (l : List α) : inversions swap l ≤ l.length * l.length := by
  induction l with
  | nil => exact le_rfl
  | cons a l ih =>
    have hcount := countP_le_length (p := swap a) (l := l)
    have hsquare : (l.length + 1) * (l.length + 1) = l.length * l.length + 2 * l.length + 1 := by ring
    rw [inversions_cons, length_cons, hsquare]
    omega

/-- The passes are enough. -/
theorem sortLoop_isSome (hasymm : ∀ a b, swap a b = true → swap b a = false) {passes : ℕ}
    (h : inversions swap l < passes) : (sortLoop swap passes l).isSome := by
  induction passes generalizing l with
  | zero => exact absurd h (Nat.not_lt_zero _)
  | succ passes ih =>
    cases l with
    | nil => rfl
    | cons a l =>
      rw [sortLoop_cons]
      split_ifs with hchanged
      · have hless := pass_inversions hasymm a l
        rw [if_pos hchanged] at hless
        exact ih (by omega)
      · rfl

theorem sort_isSome (hasymm : ∀ a b, swap a b = true → swap b a = false) (l : List α) : (sort swap l).isSome :=
  sortLoop_isSome hasymm (Nat.lt_succ_of_le (inversions_le l))

theorem sortLoop_spec {passes : ℕ} (hR : ∀ a b, swap a b = true → R b a) (h : l.Pairwise R)
    (hsort : sortLoop swap passes l = some l') :
    l'.Perm l ∧ l'.Pairwise R ∧ l'.IsChain fun x y => swap x y = false := by
  induction passes generalizing l with
  | zero => cases hsort
  | succ passes ih =>
    cases l with
    | nil =>
      cases hsort
      exact ⟨.refl _, .nil, .nil⟩
    | cons a l =>
      rw [sortLoop] at hsort
      split_ifs at hsort with hchanged
      · obtain ⟨hperm, hpairwise, hchain⟩ := ih (pass_pairwise hR h) hsort
        exact ⟨hperm.trans (pass_perm a l), hpairwise, hchain⟩
      · obtain rfl := Option.some.inj hsort
        obtain ⟨heq, hchain⟩ := pass_unchanged (by simpa using hchanged)
        rw [heq]
        exact ⟨.refl _, h, hchain⟩

theorem pairwise_of_isChain (htrans : ∀ a ∈ l, ∀ b ∈ l, ∀ c ∈ l, R a b → R b c → R a c)
    (h : l.IsChain R) : l.Pairwise R := by
  induction l with
  | nil => exact .nil
  | cons a l ih =>
    have hl := ih (fun x hx y hy z hz => htrans x (mem_cons_of_mem a hx) y (mem_cons_of_mem a hy) z
      (mem_cons_of_mem a hz)) h.tail
    refine pairwise_cons.mpr ⟨fun c hc => ?_, hl⟩
    cases l with
    | nil => cases hc
    | cons b l =>
      have hab := (isChain_cons_cons.mp h).1
      obtain rfl | hc' := mem_cons.mp hc
      · exact hab
      · exact htrans a (by simp) b (by simp) c (by simp [hc']) hab (rel_of_pairwise_cons hl hc')

/-- The result has the same elements, no pair that is the wrong way round, and keeps what is kept by each exchange. -/
theorem sort_spec (hR : ∀ a b, swap a b = true → R b a)
    (htrans : ∀ a ∈ l, ∀ b ∈ l, ∀ c ∈ l, swap a b = false → swap b c = false → swap a c = false)
    (h : l.Pairwise R)
    (hsort : sort swap l = some l') : l'.Perm l ∧ l'.Pairwise R ∧ l'.Pairwise fun x y => swap x y = false := by
  obtain ⟨hperm, hpairwise, hchain⟩ := sortLoop_spec hR h hsort
  exact ⟨hperm, hpairwise, pairwise_of_isChain (fun a ha b hb c hc => htrans a (hperm.mem_iff.mp ha) b (hperm.mem_iff.mp hb) c
    (hperm.mem_iff.mp hc)) hchain⟩

end BubbleSort
