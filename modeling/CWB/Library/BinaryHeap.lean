import Mathlib.Logic.Equiv.Basic
import Mathlib.Order.Lattice

/-! Implicit binary heaps: the nodes are numbered from 1, node `i` has the children
`2 * i` and `2 * i + 1`, and `k i` is the key at node `i`. Sifting is described by the
exchanges it makes. -/

namespace BinaryHeap

open Function

variable {K : Type*} [LinearOrder K] {k : ℕ → K} {n lo node child : ℕ}

/-- Heap order in all subtrees with a root from `lo` on. -/
def Ordered (k : ℕ → K) (n lo : ℕ) : Prop := ∀ i, 2 ≤ i → i ≤ n → lo ≤ i / 2 → k (i / 2) ≤ k i

/-- Heap order but for `node`, which may be too large for its place. -/
structure DownOrder (k : ℕ → K) (n lo node : ℕ) : Prop where
  others : ∀ i, 2 ≤ i → i ≤ n → lo ≤ i / 2 → i / 2 ≠ node → k (i / 2) ≤ k i
  grand : ∀ i, i ≤ n → i / 2 = node → 1 ≤ node / 2 → lo ≤ node / 2 → k (node / 2) ≤ k i

/-- Heap order but for `node`, which may be too small for its place. -/
structure UpOrder (k : ℕ → K) (n node : ℕ) : Prop where
  others : ∀ i, 2 ≤ i → i ≤ n → i ≠ node → k (i / 2) ≤ k i
  grand : ∀ i, i ≤ n → i / 2 = node → 1 ≤ node / 2 → k (node / 2) ≤ k i

theorem root_le (h : Ordered k n 1) {i : ℕ} (h1 : 1 ≤ i) (hn : i ≤ n) : k 1 ≤ k i := by
  induction i using Nat.strong_induction_on with
  | _ i ih =>
    by_cases hi : i = 1
    · rw [hi]
    · exact (ih (i / 2) (by omega) (by omega) (by omega)).trans (h i (by omega) hn (by omega))

theorem DownOrder.congr {k' : ℕ → K} (h : DownOrder k n lo node) (hlo : 1 ≤ lo) (hnode : 1 ≤ node)
    (hk : ∀ i, 1 ≤ i → i ≤ n → k' i = k i) : DownOrder k' n lo node := by
  constructor
  · intro i h2 hn hi hne
    rw [hk _ (by omega) (by omega), hk i (by omega) hn]
    exact h.others i h2 hn hi hne
  · intro i hn hi h1 hlow
    rw [hk _ (by omega) (by omega), hk i (by omega) hn]
    exact h.grand i hn hi h1 hlow

theorem UpOrder.congr {k' : ℕ → K} (h : UpOrder k n node) (hnode : 1 ≤ node) (hk : ∀ i, 1 ≤ i → i ≤ n → k' i = k i) :
    UpOrder k' n node := by
  constructor
  · intro i h2 hn hne
    rw [hk _ (by omega) (by omega), hk i (by omega) hn]
    exact h.others i h2 hn hne
  · intro i hn hi h1
    rw [hk _ (by omega) (by omega), hk i (by omega) hn]
    exact h.grand i hn hi h1

theorem DownOrder.finish (h : DownOrder k n lo node) (hle : ∀ i, 2 ≤ i → i ≤ n → i / 2 = node → k node ≤ k i) :
    Ordered k n lo := by
  intro i h2 hn hlo
  by_cases hi : i / 2 = node
  · rw [hi]; exact hle i h2 hn hi
  · exact h.others i h2 hn hlo hi

/-- Exchanging the node with its smallest child moves the fault down. -/
theorem DownOrder.exchange (h : DownOrder k n lo node) (hnode : 1 ≤ node) (hc : child / 2 = node) (hcn : child ≤ n)
    (hmin : ∀ i, 2 ≤ i → i ≤ n → i / 2 = node → k child ≤ k i) (hlt : k child < k node) :
    DownOrder (k ∘ Equiv.swap child node) n lo child := by
  have hne : child ≠ node := by omega
  have hother : ∀ i, i ≠ child → i ≠ node → (k ∘ Equiv.swap child node) i = k i := fun i h1 h2 => by
    rw [comp_apply, Equiv.swap_apply_of_ne_of_ne h1 h2]
  have hself : (k ∘ Equiv.swap child node) node = k child := by
    rw [comp_apply, Equiv.swap_apply_right]
  have hchild : (k ∘ Equiv.swap child node) child = k node := by
    rw [comp_apply, Equiv.swap_apply_left]
  constructor
  · intro i h2 hn hlo hi
    by_cases hin : i / 2 = node
    · rw [hin, hself]
      by_cases hic : i = child
      · rw [hic, hchild]; exact hlt.le
      · rw [hother i hic (by omega)]; exact hmin i h2 hn hin
    · by_cases hii : i = node
      · -- the node itself: its new key is that of a child of the old one
        rw [hii, hself, hother _ (by omega) (by omega)]
        exact h.grand child hcn hc (by omega) (by omega)
      · rw [hother i (by omega) hii, hother _ hi hin]
        exact h.others i h2 hn hlo hin
  · intro i hn hi h1 hlo
    rw [hc, hself, hother i (by omega) (by omega), ← hi]
    exact h.others i (by omega) hn (by omega) (by omega)

theorem UpOrder.finish (h : UpOrder k n node) (hle : 2 ≤ node → k (node / 2) ≤ k node) : Ordered k n 1 := by
  intro i h2 hn _
  by_cases hi : i = node
  · rw [hi]; exact hle (hi ▸ h2)
  · exact h.others i h2 hn hi

/-- Exchanging the node with its parent moves the fault up. -/
theorem UpOrder.exchange (h : UpOrder k n node) (hnode : 2 ≤ node) (hlt : k node < k (node / 2)) :
    UpOrder (k ∘ Equiv.swap (node / 2) node) n (node / 2) := by
  have hother : ∀ i, i ≠ node / 2 → i ≠ node → (k ∘ Equiv.swap (node / 2) node) i = k i := fun i h1 h2 => by
    rw [comp_apply, Equiv.swap_apply_of_ne_of_ne h1 h2]
  have hself : (k ∘ Equiv.swap (node / 2) node) node = k (node / 2) := by
    rw [comp_apply, Equiv.swap_apply_right]
  have hparent : (k ∘ Equiv.swap (node / 2) node) (node / 2) = k node := by
    rw [comp_apply, Equiv.swap_apply_left]
  constructor
  · intro i h2 hn hi
    by_cases hin : i = node
    · rw [hin, hself, hparent]; exact hlt.le
    · rw [hother i hi hin]
      by_cases hp : i / 2 = node / 2
      · rw [hp, hparent]
        exact hlt.le.trans (hp ▸ h.others i h2 hn hin)
      · by_cases hpn : i / 2 = node
        · rw [hpn, hself]
          exact h.grand i hn hpn (by omega)
        · rw [hother _ hp hpn]
          exact h.others i h2 hn hin
  · intro i hn hi h1
    rw [hother _ (by omega) (by omega)]
    have hgp : 2 ≤ node / 2 → node / 2 ≤ n → k (node / 2 / 2) ≤ k (node / 2) := fun h2 hle =>
      h.others (node / 2) h2 hle (by omega)
    by_cases hin : i = node
    · rw [hin, hself]
      exact hgp (by omega) (by omega)
    · rw [hother i (by omega) hin]
      exact (hgp (by omega) (by omega)).trans (hi ▸ h.others i (by omega) hn hin)

end BinaryHeap
