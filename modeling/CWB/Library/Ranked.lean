import Mathlib.Data.Set.Card

/-! Beginnings of strictly sorted lists. The rank of an element among the elements with a
property is the number of those before it; the first `n` elements of a sorted list are those
of rank below `n`, and two sorted lists begin alike exactly if the first `n` elements of one
are in the other and what only the other one has comes behind `n` elements of the first. -/

namespace Ranked

open List

variable {α : Type*} (r : α → α → Prop)

noncomputable def rank (P : α → Prop) (x : α) : ℕ := {y | P y ∧ r y x}.ncard

variable {r} {P Q : α → Prop} {l l' : List α}

theorem finite_below (hP : ∀ y, y ∈ l ↔ P y) (x : α) : {y | P y ∧ r y x}.Finite :=
  (finite_toSet l).subset fun y hy => (hP y).mpr hy.1

theorem rank_mono (hP : ∀ y, y ∈ l ↔ P y) {x y : α} (h : ∀ z, r z x → r z y) :
    rank r P x ≤ rank r P y :=
  Set.ncard_le_ncard (fun _ hz => ⟨hz.1, h _ hz.2⟩) (finite_below hP y)

/-- `k` different elements before `x` give it a rank of at least `k`. -/
theorem length_le_rank (hP : ∀ y, y ∈ l ↔ P y) {m : List α} (hm : m.Nodup) {x : α}
    (h : ∀ y ∈ m, P y ∧ r y x) : m.length ≤ rank r P x := by
  classical
  have hsub : (m.toFinset : Set α) ⊆ {y | P y ∧ r y x} := fun y hy =>
    h y (mem_toFinset.mp hy)
  have hle := Set.ncard_le_ncard hsub (finite_below hP x)
  rwa [Set.ncard_coe_finset, toFinset_card_of_nodup hm] at hle

variable [IsStrictTotalOrder α r]

theorem rank_getElem (hs : l.Pairwise r) (hP : ∀ y, y ∈ l ↔ P y) {i : ℕ} (hi : i < l.length) :
    rank r P l[i] = i := by
  classical
  have hnodup : (l.take i).Nodup := (hs.sublist (take_sublist i l)).nodup
  have hset : {y | P y ∧ r y l[i]} = ((l.take i).toFinset : Set α) := by
    ext y
    rw [Set.mem_ofPred_eq, ← hP, Finset.mem_coe, mem_toFinset, mem_take_iff_getElem]
    constructor
    · rintro ⟨hy, hr⟩
      obtain ⟨j, hj, rfl⟩ := mem_iff_getElem.mp hy
      rcases Nat.lt_trichotomy j i with hlt | rfl | hgt
      · exact ⟨j, by omega, rfl⟩
      · exact absurd hr (irrefl _)
      · exact absurd (trans_of r hr (pairwise_iff_getElem.mp hs i j hi hj hgt)) (irrefl _)
    · rintro ⟨j, hj, rfl⟩
      exact ⟨getElem_mem _, pairwise_iff_getElem.mp hs j i (by omega) hi (by omega)⟩
  rw [rank, hset, Set.ncard_coe_finset, toFinset_card_of_nodup hnodup, length_take]
  omega

theorem mem_take_iff (hs : l.Pairwise r) (hP : ∀ y, y ∈ l ↔ P y) {n : ℕ} {x : α} :
    x ∈ l.take n ↔ P x ∧ rank r P x < n := by
  rw [mem_take_iff_getElem]
  constructor
  · rintro ⟨i, hi, rfl⟩
    rw [rank_getElem hs hP]
    exact ⟨(hP _).mp (getElem_mem _), by omega⟩
  · rintro ⟨hx, hn⟩
    obtain ⟨i, hi, rfl⟩ := mem_iff_getElem.mp ((hP x).mpr hx)
    rw [rank_getElem hs hP] at hn
    exact ⟨i, by omega, rfl⟩

/-- In front of an element of rank `n` or more stand the first `n` elements. -/
theorem take_before (hs : l.Pairwise r) (hP : ∀ y, y ∈ l ↔ P y) {n : ℕ} {x : α}
    (hn : n ≤ rank r P x) : (l.take n).length = n ∧ ∀ y ∈ l.take n, r y x := by
  classical
  refine ⟨?_, fun y hy => ?_⟩
  · have hsub : {y | P y ∧ r y x} ⊆ (l.toFinset : Set α) := fun y hy =>
      mem_toFinset.mpr ((hP y).mpr hy.1)
    have hle := Set.ncard_le_ncard hsub l.toFinset.finite_toSet
    rw [Set.ncard_coe_finset, toFinset_card_of_nodup hs.nodup] at hle
    rw [length_take]
    exact min_eq_left (hn.trans hle)
  · obtain ⟨-, hlt⟩ := (mem_take_iff hs hP).mp hy
    by_contra hyx
    have hle : rank r P x ≤ rank r P y := by
      refine rank_mono hP fun z hz => ?_
      rcases trichotomous_of r y x with h | rfl | h
      · exact absurd h hyx
      · exact hz
      · exact trans_of r hz h
    omega

theorem take_eq_take_iff (hs : l.Pairwise r) (hP : ∀ y, y ∈ l ↔ P y) (hs' : l'.Pairwise r)
    (hQ : ∀ y, y ∈ l' ↔ Q y) (n : ℕ) :
    l.take n = l'.take n ↔
      (∀ x, P x → rank r P x < n → Q x) ∧ ∀ x, Q x → ¬P x → n ≤ rank r P x := by
  have hmem := fun x => mem_take_iff hs hP (n := n) (x := x)
  have hmem' := fun x => mem_take_iff hs' hQ (n := n) (x := x)
  constructor
  · intro heq
    refine ⟨fun x hx hn => ?_, fun x hx hnx => ?_⟩
    · have h := (hmem x).mpr ⟨hx, hn⟩
      rw [heq, hmem'] at h
      exact h.1
    · -- the first `n` of `l'` stand before `x`, and they are the first `n` of `l`
      have hrank : n ≤ rank r Q x := by
        by_contra hlt
        have h := (hmem' x).mpr ⟨hx, not_le.mp hlt⟩
        rw [← heq, hmem] at h
        exact hnx h.1
      obtain ⟨hlen, hbefore⟩ := take_before hs' hQ hrank
      rw [← heq] at hlen hbefore
      have hle := length_le_rank hP (hs.sublist (take_sublist n l)).nodup fun y hy =>
        ⟨((hmem y).mp hy).1, hbefore y hy⟩
      omega
  · rintro ⟨hfirst, hlast⟩
    -- `n` elements of `l` before `x` are `n` elements of `l'` before `x`
    have hle : ∀ x, n ≤ rank r P x → n ≤ rank r Q x := by
      intro x hx
      obtain ⟨hlen, hbefore⟩ := take_before hs hP hx
      have h := length_le_rank hQ (hs.sublist (take_sublist n l)).nodup fun y hy =>
        ⟨hfirst y ((hmem y).mp hy).1 ((hmem y).mp hy).2, hbefore y hy⟩
      omega
    refine (hs.sublist (take_sublist n l)).eq_of_mem_iff
      (hs'.sublist (take_sublist n l')) fun x => ?_
    rw [hmem, hmem']
    constructor
    · rintro ⟨hx, hn⟩
      refine ⟨hfirst x hx hn, lt_of_le_of_lt (Set.ncard_le_ncard ?_ (finite_below hP x)) hn⟩
      rintro y ⟨hy, hyx⟩
      refine ⟨?_, hyx⟩
      by_contra hny
      have h1 := hlast y hy hny
      have h2 : rank r P y ≤ rank r P x := rank_mono hP fun z hz => trans_of r hz hyx
      omega
    · rintro ⟨hx, hn⟩
      have hPx : P x := by
        by_contra hnx
        have h := hle x (hlast x hx hnx)
        omega
      refine ⟨hPx, ?_⟩
      by_contra hge
      have h := hle x (not_lt.mp hge)
      omega

end Ranked
