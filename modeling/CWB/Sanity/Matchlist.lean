import Mathlib.Tactic
import CWB.Library.SortedMerge
import CWB.Spec.CorpusList

/-! Marked lines and `RReduce`: what is left of a list of ranges when the lines marked
for deletion are dropped. -/

namespace CWB

open List

def keptPairs (l : List Match) : List (ℤ × ℤ) := (l.filter Match.kept).map Match.pair

/-- No start or end is negative, as `RReduce` takes for granted. -/
def Valid (l : List Match) : Prop := ∀ m ∈ l, m.kept = true

@[simp] theorem kept_mark (m : Match) : m.mark.kept = false := by
  simp [Match.mark, Match.kept]

variable {m : Match}

theorem Match.start_ne_of_kept (h : m.kept = true) : m.start ≠ -1 := by
  intro hstart
  simp [Match.kept, hstart] at h

theorem keptPairs_cons_mark (m : Match) (l : List Match) :
    keptPairs (m.mark :: l) = keptPairs l := by
  simp [keptPairs]

theorem keptPairs_cons (m : Match) (l : List Match) (h : m.kept = true) :
    keptPairs (m :: l) = m.pair :: keptPairs l := by
  simp [keptPairs, h]

theorem keptPairs_of_valid (l : List Match) (h : Valid l) : keptPairs l = l.map Match.pair := by
  rw [keptPairs, filter_eq_self.mpr h]

theorem valid_cons {l : List Match} (h : Valid (m :: l)) : m.kept = true ∧ Valid l :=
  ⟨h m (by simp), fun x hx => h x (by simp [hx])⟩

theorem pairs_rReduce (c : CorpusList) : (rReduce c).pairs = keptPairs c.range := by
  simp only [rReduce]
  split_ifs with h
  · rfl
  · have hk : c.range.filter Match.kept = c.range :=
      filter_eq_self.mpr (length_filter_eq_length_iff.mp (not_not.mp h))
    rw [keptPairs, hk]
    rfl

theorem mark_of_start (h : m.start = -1) : m.mark = m := by
  cases m; simp_all [Match.mark]

theorem keptPairs_cons_of_start (l : List Match) (h : m.start = -1) :
    keptPairs (m :: l) = keptPairs l := by
  rw [← mark_of_start h, keptPairs_cons_mark]

@[simp] theorem stop_mark (m : Match) : m.mark.stop = m.stop := rfl

@[simp] theorem start_mark (m : Match) : m.mark.start = -1 := rfl

theorem mem_keptPairs {p : ℤ × ℤ} {l : List Match} :
    p ∈ keptPairs l ↔ ∃ m ∈ l, m.kept = true ∧ m.pair = p := by
  simp [keptPairs, and_assoc]

/-! `Setop(Union)` on lists without end positions, as the initial match lists and the ID
lists of constraints are: the starts are merged, and of two equal starts one is copied.
The order may be strict or not, so it is a parameter between `<` and `≤`. -/

variable {R : ℤ → ℤ → Prop}

/-- What is not marked is merged by a key that orders two items as the loop does. -/
theorem setopUnionLoop_merge {κ : Type} [LinearOrder κ] (key : Match → κ) (ends : Bool) (as bs : List Match)
    (hkey : ∀ a ∈ as, ∀ b ∈ bs,
      (key a < key b ↔ a.start < b.start ∨ a.start = b.start ∧ ends = true ∧ a.stop < b.stop) ∧
      (key b < key a ↔ b.start < a.start ∨ b.start = a.start ∧ ends = true ∧ b.stop < a.stop)) :
    setopUnionLoop ends as bs =
      SortedMerge.union key (as.filter fun m => m.start ≠ -1) ((bs.filter fun m => m.start ≠ -1).map (·, true)) := by
  have hmark : ∀ {m : Match} {l : List Match}, m.start = -1 →
      (m :: l).filter (fun m => m.start ≠ -1) = l.filter fun m => m.start ≠ -1 :=
    fun h => filter_cons_of_neg (by simp [h])
  have hkeep : ∀ {m : Match} {l : List Match}, ¬m.start = -1 →
      (m :: l).filter (fun m => m.start ≠ -1) = m :: l.filter fun m => m.start ≠ -1 :=
    fun h => filter_cons_of_pos (by simp [h])
  have hskip : ∀ {a b : Match} {as bs : List Match}, a.start ≠ -1 → b.start ≠ -1 →
      SortedMerge.union key ((a :: as).filter fun m => m.start ≠ -1) (((b :: bs).filter fun m => m.start ≠ -1).map (·, true)) =
        if key a < key b then
          a :: SortedMerge.union key (as.filter fun m => m.start ≠ -1) (((b :: bs).filter fun m => m.start ≠ -1).map (·, true))
        else if key b < key a then
          b :: SortedMerge.union key ((a :: as).filter fun m => m.start ≠ -1) ((bs.filter fun m => m.start ≠ -1).map (·, true))
        else a :: SortedMerge.union key (as.filter fun m => m.start ≠ -1) ((bs.filter fun m => m.start ≠ -1).map (·, true)) := by
    intro a b as bs ha hb
    rw [hkeep ha, hkeep hb, map_cons, SortedMerge.union]
    rfl
  induction as, bs using setopUnionLoop.induct ends with
  | case1 => rw [setopUnionLoop, filter_nil, SortedMerge.union_nil_left]
  | case2 a as h ih => rw [setopUnionLoop, if_pos h, ih (by simp), hmark h]
  | case3 a as h ih =>
    rw [setopUnionLoop, if_neg h, ih (by simp), hkeep h]
    exact (congrArg (a :: ·) (SortedMerge.union_nil_right key _)).trans (SortedMerge.union_nil_right key _).symm
  | case4 b bs h ih => rw [setopUnionLoop, if_pos h, ih (by simp), hmark h]
  | case5 b bs h ih =>
    rw [setopUnionLoop, if_neg h, ih (by simp), hkeep h]
    exact (congrArg _ (SortedMerge.union_nil_left key _)).trans (SortedMerge.union_nil_left key _).symm
  | case6 a as b bs h ih => rw [setopUnionLoop, if_pos h, ih fun x hx => hkey x (by simp [hx]), hmark h]
  | case7 a as b bs h h' ih =>
    rw [setopUnionLoop, if_neg h, if_pos h', ih fun x hx y hy => hkey x hx y (by simp [hy]), hmark h']
  | case8 a as b bs h h' hlt ih =>
    obtain ⟨hab, -⟩ := hkey a (by simp) b (by simp)
    rw [setopUnionLoop, if_neg h, if_neg h', if_pos hlt, ih fun x hx => hkey x (by simp [hx]), hskip h h',
      if_pos (hab.mpr (.inl hlt))]
  | case9 a as b bs h h' hlt hgt ih =>
    obtain ⟨-, hba⟩ := hkey a (by simp) b (by simp)
    have hkgt := hba.mpr (.inl hgt)
    rw [setopUnionLoop, if_neg h, if_neg h', if_neg hlt, if_pos hgt, ih fun x hx y hy => hkey x hx y (by simp [hy]), hskip h h',
      if_neg (not_lt.mpr hkgt.le), if_pos hkgt]
  | case10 a as b bs h h' hlt hgt he ih =>
    obtain ⟨hab, hba⟩ := hkey a (by simp) b (by simp)
    have hends : ends = true → a.stop = b.stop := fun hends => by simpa [hends] using he
    have hklt : ¬key a < key b := fun hk => by
      have := hab.mp hk
      grind
    have hkgt : ¬key b < key a := fun hk => by
      have := hba.mp hk
      grind
    rw [setopUnionLoop, if_neg h, if_neg h', if_neg hlt, if_neg hgt, if_pos he,
      ih fun x hx y hy => hkey x (by simp [hx]) y (by simp [hy]), hskip h h', if_neg hklt, if_neg hkgt]
  | case11 a as b bs h h' hlt hgt he hle ih =>
    obtain ⟨hab, -⟩ := hkey a (by simp) b (by simp)
    have hends : ends = true := by
      by_contra hends
      simp [hends] at he
    rw [setopUnionLoop, if_neg h, if_neg h', if_neg hlt, if_neg hgt, if_neg he, if_pos hle, ih fun x hx => hkey x (by simp [hx]),
      hskip h h', if_pos (hab.mpr (.inr ⟨by omega, hends, hle⟩))]
  | case12 a as b bs h h' hlt hgt he hle ih =>
    obtain ⟨-, hba⟩ := hkey a (by simp) b (by simp)
    have hends : ends = true := by
      by_contra hends
      simp [hends] at he
    have hne : a.stop ≠ b.stop := by simpa [hends] using he
    have hkgt := hba.mpr (.inr ⟨by omega, hends, by omega⟩)
    rw [setopUnionLoop, if_neg h, if_neg h', if_neg hlt, if_neg hgt, if_neg he, if_neg hle,
      ih fun x hx y hy => hkey x hx y (by simp [hy]), hskip h h', if_neg (not_lt.mpr hkgt.le), if_pos hkgt]

theorem filter_start_ne {l : List Match} (h : ∀ m ∈ l, m.start ≠ -1) : l.filter (fun m => m.start ≠ -1) = l :=
  filter_eq_self.mpr fun m hm => decide_eq_true (h m hm)

theorem tab_setopReduce (ml : Matchlist) : (setopReduce ml).tab = ml.tab.filter fun m => m.start ≠ -1 := by
  unfold setopReduce
  cases ml.tab.filter fun m => decide (m.start ≠ -1) <;> rfl

theorem mem_setopReduce {ml : Matchlist} : m ∈ (setopReduce ml).tab ↔ m ∈ ml.tab ∧ m.start ≠ -1 := by
  rw [tab_setopReduce, mem_filter, decide_eq_true_iff]

/-- The union needs no more room than both lists have. -/
theorem length_setopUnionLoop (ends : Bool) (as bs : List Match) :
    (setopUnionLoop ends as bs).length ≤ as.length + bs.length := by
  induction as, bs using setopUnionLoop.induct ends with
  | case1 => simp [setopUnionLoop]
  | case2 | case3 | case4 | case5 | case6 | case7 | case8 | case9 | case10 | case11 | case12 =>
    rw [setopUnionLoop]
    split_ifs
    simp only [length_cons] at *
    omega

@[simp] theorem Matchlist.starts_ofStarts (l : List ℤ) : (Matchlist.ofStarts l).starts = l := by
  simp only [Matchlist.starts, Matchlist.ofStarts, map_map]
  exact map_id' l

/-- The union of two ascending lists of starts: their union as sets, in the same order. -/
theorem setopUnion_starts (hlt : ∀ x y, x < y → R x y) (hle : ∀ x y, R x y → x ≤ y) {l l' : List ℤ}
    (hn : ∀ x ∈ l, 0 ≤ x) (hn' : ∀ x ∈ l', 0 ≤ x) (hs : l.Pairwise R) (hs' : l'.Pairwise R) :
    (∀ x, x ∈ (setopUnion (.ofStarts l) (.ofStarts l')).starts ↔ x ∈ l ∨ x ∈ l') ∧
      (setopUnion (.ofStarts l) (.ofStarts l')).starts.Pairwise R := by
  have hempty : ∀ {m : List ℤ}, (Matchlist.ofStarts m).tab = [] → m = [] := by
    intro m h
    simpa [Matchlist.ofStarts] using h
  unfold setopUnion
  split_ifs with h1 h2
  · have := hempty h1
    subst this
    simpa using hs
  · have := hempty h2
    subst this
    simpa using hs'
  · have hstart : ∀ {m : List ℤ}, (∀ x ∈ m, 0 ≤ x) → ∀ r ∈ (Matchlist.ofStarts m).tab, r.start ≠ -1 := by
      intro m hm r hr
      obtain ⟨x, hx, rfl⟩ := mem_map.mp hr
      have := hm x hx
      simp only [ne_eq]
      omega
    have hl : (Matchlist.ofStarts l).tab.map Match.start = l := Matchlist.starts_ofStarts l
    have hl' : (Matchlist.ofStarts l').tab.map Match.start = l' := Matchlist.starts_ofStarts l'
    have hmerge := setopUnionLoop_merge Match.start false (Matchlist.ofStarts l).tab (Matchlist.ofStarts l').tab
      fun a _ b _ => by simp
    rw [filter_start_ne (hstart hn), filter_start_ne (hstart hn')] at hmerge
    refine ⟨fun x => ?_, ?_⟩
    · have hmem := SortedMerge.mem_keys_union Match.start (Matchlist.ofStarts l).tab (Matchlist.ofStarts l').tab x
      rwa [← hmerge, hl, hl'] at hmem
    · change ((setopUnionLoop false _ _).map Match.start).Pairwise R
      rw [hmerge]
      exact SortedMerge.pairwise_keys_union hlt hle Match.start (by rwa [hl]) (by rwa [hl'])

end CWB
