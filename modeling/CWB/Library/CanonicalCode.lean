import Mathlib.Algebra.BigOperators.Intervals
import Mathlib.Algebra.BigOperators.Ring.Finset
import Mathlib.Algebra.Order.BigOperators.Group.Finset
import Mathlib.Data.Nat.Count
import Mathlib.Tactic.Ring

/-! Canonical prefix codes for the symbols below `n` with the code lengths `cl`. The code
words of one length are consecutive numbers, issued in the order of the symbols; `first l` is
the least of length `l`, and as many inner nodes stand before it on that level of the tree. -/

namespace CanonicalCode

open Finset

section Lengths

variable (n : ℕ) (cl : ℕ → ℕ)

/-- How many symbols have a code of length `l`. -/
def count (l : ℕ) : ℕ := Nat.count (fun i => cl i = l) n

/-- How many symbols before `i` have a code of the same length. -/
def rank (i : ℕ) : ℕ := Nat.count (fun j => cl j = cl i) i

/-- How many symbols have a shorter code than `l`. -/
def offset (l : ℕ) : ℕ := ∑ j ∈ range l, count n cl j

/-- The place of a symbol when the symbols are listed by the length of their codes. -/
def index (i : ℕ) : ℕ := offset n cl (cl i) + rank cl i

theorem rank_lt {i : ℕ} (hi : i < n) : rank cl i < count n cl (cl i) := Nat.count_strict_mono rfl hi

theorem offset_succ (l : ℕ) : offset n cl (l + 1) = offset n cl l + count n cl l := sum_range_succ _ _

theorem offset_mono {l m : ℕ} (h : l ≤ m) : offset n cl l ≤ offset n cl m :=
  sum_le_sum_of_subset (range_mono h)

theorem count_eq_card (l : ℕ) : count n cl l = ((range n).filter fun i => cl i = l).card :=
  Nat.count_eq_card_filter_range _ _

theorem offset_le (l : ℕ) : offset n cl l ≤ n := by
  have hfiber : offset n cl l = ((range n).filter fun i => cl i < l).card := by
    rw [card_eq_sum_card_fiberwise (f := cl) (t := range l)
      (fun i hi => mem_coe.mpr (mem_range.mpr (mem_filter.mp (mem_coe.mp hi)).2))]
    apply sum_congr rfl
    intro j hj
    rw [count_eq_card, filter_filter]
    congr 1
    apply filter_congr
    intro i _
    have := mem_range.mp hj
    omega
  rw [hfiber]
  exact (card_filter_le _ _).trans (card_range n).le

variable {n cl}

theorem index_lt {i : ℕ} (hi : i < n) : index n cl i < n := by
  have h := offset_le n cl (cl i + 1)
  rw [offset_succ] at h
  have := rank_lt n cl hi
  unfold index
  omega

/-- Different symbols have different places. -/
theorem index_inj {i j : ℕ} (hi : i < n) (hj : j < n) (h : index n cl i = index n cl j) : i = j := by
  have hlt : ∀ i j, i < n → cl i < cl j → index n cl i < index n cl j := by
    intro i j hi hij
    have h := offset_mono n cl hij
    rw [offset_succ] at h
    have := rank_lt n cl hi
    unfold index
    omega
  rcases lt_trichotomy (cl i) (cl j) with hc | hc | hc
  · exact absurd h (hlt i j hi hc).ne
  · unfold index rank at h
    rw [hc] at h
    exact Nat.count_injective (p := fun k => cl k = cl j) hc rfl (Nat.add_left_cancel h)
  · exact absurd h (hlt j i hj hc).ne'

end Lengths

/-- On every level below the first the inner nodes and the code words come in pairs. -/
structure Complete (count first : ℕ → ℕ) : Prop where
  root : first 1 + count 1 ≤ 2
  level : ∀ l, 1 ≤ l → first (l + 1) + count (l + 1) = 2 * first l

namespace Complete

variable {count first : ℕ → ℕ} {c l : ℕ}

/-- A proper beginning of a code word is an inner node. -/
theorem beginning_lt (h : Complete count first) (hl : 1 ≤ l) {d : ℕ} (hc : c < first (l + (d + 1)) + count (l + (d + 1))) :
    c / 2 ^ (d + 1) < first l := by
  induction d generalizing c with
  | zero =>
    rw [h.level l hl] at hc
    rw [zero_add, pow_one]
    omega
  | succ d ih =>
    rw [← add_assoc, h.level _ (by omega)] at hc
    rw [pow_succ', ← Nat.div_div_eq_div_mul]
    apply ih
    omega

theorem lt_two_pow (h : Complete count first) (hl : 1 ≤ l) (hc : c < first l + count l) : c < 2 ^ l := by
  induction l, hl using Nat.le_induction generalizing c with
  | base =>
    have := h.root
    omega
  | succ l hl ih =>
    rw [h.level l hl] at hc
    have := ih (show c / 2 < first l + count l by omega)
    rw [pow_succ]
    omega

end Complete

section Kraft

variable (n L : ℕ) (cl : ℕ → ℕ)

/-- The share of the code words from length `l` on in the `2 ^ L` words of length `L`. -/
def share (n L : ℕ) (cl : ℕ → ℕ) (l : ℕ) : ℕ := ∑ i ∈ (range n).filter fun i => l ≤ cl i, 2 ^ (L - cl i)

theorem share_succ (l : ℕ) : share n L cl l = count n cl l * 2 ^ (L - l) + share n L cl (l + 1) := by
  have hsplit := sum_filter_add_sum_filter_not ((range n).filter fun i => l ≤ cl i) (fun i => cl i = l)
    fun i => 2 ^ (L - cl i)
  rw [filter_filter, filter_filter] at hsplit
  unfold share
  rw [← hsplit, count_eq_card]
  congr 1
  · rw [filter_congr (q := fun i => cl i = l) fun i _ => by omega]
    apply sum_const_nat
    intro i hi
    rw [(mem_filter.mp hi).2]
  · exact sum_congr (filter_congr fun i _ => by omega) fun _ _ => rfl

variable {n L cl}

/-- What is left for the code words longer than `l` are whole subtrees of that level. -/
theorem dvd_share (hkraft : ∑ i ∈ range n, 2 ^ (L - cl i) = 2 ^ L) (l : ℕ) : 2 ^ (L - l) ∣ share n L cl (l + 1) := by
  have hsplit := sum_filter_add_sum_filter_not (range n) (fun i => cl i ≤ l) fun i => 2 ^ (L - cl i)
  rw [hkraft] at hsplit
  have hlong : (∑ i ∈ (range n).filter fun i => ¬ cl i ≤ l, 2 ^ (L - cl i)) = share n L cl (l + 1) :=
    sum_congr (filter_congr fun i _ => by omega) fun _ _ => rfl
  rw [hlong] at hsplit
  have hshort : 2 ^ (L - l) ∣ ∑ i ∈ (range n).filter fun i => cl i ≤ l, 2 ^ (L - cl i) := by
    apply dvd_sum
    intro i hi
    exact pow_dvd_pow 2 (Nat.sub_le_sub_left (mem_filter.mp hi).2 L)
  exact (Nat.dvd_add_right hshort).mp (hsplit ▸ pow_dvd_pow 2 (Nat.sub_le L l))

/-- The least code words of each length, computed from the longest on, when Kraft's equality holds. -/
theorem complete_of_kraft {first : ℕ → ℕ} (hL : 1 ≤ L) (hcl : ∀ i < n, 1 ≤ cl i ∧ cl i ≤ L)
    (hkraft : ∑ i ∈ range n, 2 ^ (L - cl i) = 2 ^ L) (habove : ∀ l, L ≤ l → first l = 0)
    (hfirst : ∀ l, 1 ≤ l → l < L → first l = (first (l + 1) + count n cl (l + 1)) / 2) :
    Complete (count n cl) first := by
  have hnone : ∀ l, L < l → count n cl l = 0 := by
    intro l hl
    rw [count_eq_card, card_eq_zero, filter_eq_empty_iff]
    intro i hi
    have := hcl i (mem_range.mp hi)
    omega
  have hshare : ∀ d l, l + d = L → 1 ≤ l → share n L cl (l + 1) = first l * 2 ^ (L - l) := by
    intro d
    induction d with
    | zero =>
      intro l hl _
      rw [habove l (by omega), Nat.zero_mul]
      apply sum_eq_zero
      intro i hi
      obtain ⟨hi, hlt⟩ := mem_filter.mp hi
      have := hcl i (mem_range.mp hi)
      omega
    | succ d ih =>
      intro l hl h1
      have hsucc : share n L cl (l + 1) = (first (l + 1) + count n cl (l + 1)) * 2 ^ (L - (l + 1)) := by
        rw [share_succ, ih (l + 1) (by omega) (by omega)]
        ring
      have hpow : 2 ^ (L - l) = 2 * 2 ^ (L - (l + 1)) := by
        rw [← pow_succ', show L - (l + 1) + 1 = L - l by omega]
      have hdvd := dvd_share hkraft l
      rw [hsucc, hpow] at hdvd
      have heven := Nat.dvd_of_mul_dvd_mul_right (Nat.two_pow_pos _) hdvd
      rw [hsucc, hpow, hfirst l h1 (by omega), ← mul_assoc, Nat.div_mul_cancel heven]
  have hlevel : ∀ l, 1 ≤ l → l < L → first (l + 1) + count n cl (l + 1) = 2 * first l := by
    intro l h1 hl
    have hpow : 2 ^ (L - l) = 2 * 2 ^ (L - (l + 1)) := by
      rw [← pow_succ', show L - (l + 1) + 1 = L - l by omega]
    have h := share_succ n L cl (l + 1)
    rw [hshare (L - l) l (by omega) h1, hshare (L - (l + 1)) (l + 1) (by omega) (by omega), hpow, ← mul_assoc,
      ← Nat.add_mul] at h
    have := Nat.eq_of_mul_eq_mul_right (Nat.two_pow_pos _) h
    omega
  constructor
  · have h := share_succ n L cl 1
    have hall : share n L cl 1 = 2 ^ L := by
      rw [← hkraft]
      apply sum_congr _ fun _ _ => rfl
      rw [filter_eq_self]
      intro i hi
      exact (hcl i (mem_range.mp hi)).1
    obtain ⟨k, rfl⟩ : ∃ k, L = k + 1 := ⟨L - 1, by omega⟩
    rw [hall, hshare k 1 (by omega) le_rfl, Nat.add_sub_cancel, ← Nat.add_mul, pow_succ'] at h
    have := Nat.eq_of_mul_eq_mul_right (Nat.two_pow_pos k) h
    omega
  · intro l h1
    by_cases hl : l < L
    · exact hlevel l h1 hl
    · rw [habove (l + 1) (by omega), hnone (l + 1) (by omega), habove l (by omega)]

end Kraft

end CanonicalCode
