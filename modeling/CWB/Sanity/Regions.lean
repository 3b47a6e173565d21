import Mathlib.Tactic
import CWB.Spec.Query

/-! The regions of a structural attribute, as the corpus library finds them. -/

namespace CWB

open List

namespace Corpus

variable {C A R : Type} {corpus : Corpus C A R} {attr : A}

/-- `cl_cpos2struc` finds the region around a position. -/
structure HasRegions (corpus : Corpus C A R) (attr : A) : Prop where
  found : ∀ cpos n, corpus.cpos2struc attr cpos = some n ↔
    n < corpus.maxStruc attr ∧ (corpus.struc2cpos attr n).1 ≤ cpos ∧ cpos ≤ (corpus.struc2cpos attr n).2
  nonempty : ∀ n < corpus.maxStruc attr, 0 ≤ (corpus.struc2cpos attr n).1 ∧
    (corpus.struc2cpos attr n).1 ≤ (corpus.struc2cpos attr n).2

/-- The regions are numbered from left to right. -/
structure AscendingRegions (corpus : Corpus C A R) (attr : A) : Prop extends HasRegions corpus attr where
  ascending : ∀ m n, m < n → n < corpus.maxStruc attr → (corpus.struc2cpos attr m).2 < (corpus.struc2cpos attr n).1

/-- A position lies in one region. -/
theorem HasRegions.unique (h : corpus.HasRegions attr) {m n : ℕ} (hm : m < corpus.maxStruc attr)
    (hn : n < corpus.maxStruc attr) {cpos : ℤ}
    (hmc : (corpus.struc2cpos attr m).1 ≤ cpos ∧ cpos ≤ (corpus.struc2cpos attr m).2)
    (hnc : (corpus.struc2cpos attr n).1 ≤ cpos ∧ cpos ≤ (corpus.struc2cpos attr n).2) : m = n :=
  Option.some.inj (((h.found cpos m).mpr ⟨hm, hmc⟩).symm.trans ((h.found cpos n).mpr ⟨hn, hnc⟩))

section Ascending

variable (h : corpus.AscendingRegions attr) {m n : ℕ}

include h

theorem AscendingRegions.start_lt_iff (hm : m < corpus.maxStruc attr) (hn : n < corpus.maxStruc attr) :
    (corpus.struc2cpos attr m).1 < (corpus.struc2cpos attr n).1 ↔ m < n := by
  have hlt : ∀ {i j}, i < j → j < corpus.maxStruc attr →
      (corpus.struc2cpos attr i).1 < (corpus.struc2cpos attr j).1 := fun hij hj =>
    (h.nonempty _ (hij.trans hj)).2.trans_lt (h.ascending _ _ hij hj)
  refine ⟨fun hs => ?_, fun hmn => hlt hmn hn⟩
  by_contra hle
  obtain heq | hgt := (not_lt.mp hle).eq_or_lt
  · exact hs.ne (by rw [heq])
  · exact lt_asymm hs (hlt hgt hm)

theorem AscendingRegions.stop_lt_iff (hm : m < corpus.maxStruc attr) (hn : n < corpus.maxStruc attr) :
    (corpus.struc2cpos attr m).2 < (corpus.struc2cpos attr n).2 ↔ m < n := by
  have hlt : ∀ {i j}, i < j → j < corpus.maxStruc attr →
      (corpus.struc2cpos attr i).2 < (corpus.struc2cpos attr j).2 := fun hij hj =>
    (h.ascending _ _ hij hj).trans_le (h.nonempty _ hj).2
  refine ⟨fun hs => ?_, fun hmn => hlt hmn hn⟩
  by_contra hle
  obtain heq | hgt := (not_lt.mp hle).eq_or_lt
  · exact hs.ne (by rw [heq])
  · exact lt_asymm hs (hlt hgt hm)

end Ascending

end Corpus

/-! The loops of `RangeSetop` do nothing but mark lines for deletion. -/

/-- The second list is the first, some of its lines being marked. -/
def Marks : List Match → List Match → Prop := Forall₂ fun m m' => m' = m ∨ m' = m.mark

theorem Marks.refl (l : List Match) : Marks l l := forall₂_same.mpr fun _ _ => .inl rfl

theorem Marks.trans {l l' l'' : List Match} (h : Marks l l') (h' : Marks l' l'') : Marks l l'' := by
  induction h generalizing l'' with
  | nil => exact h'
  | cons hm _ ih =>
    cases h' with
    | cons hm' htail =>
      refine List.Forall₂.cons ?_ (ih htail)
      obtain rfl | rfl := hm
      · exact hm'
      · exact .inr (by obtain rfl | rfl := hm' <;> rfl)

theorem Marks.length_eq {l l' : List Match} (h : Marks l l') : l'.length = l.length :=
  (List.Forall₂.length_eq h).symm

theorem marks_cons {m m' : Match} {l l' : List Match} (hm : m' = m ∨ m' = m.mark) (h : Marks l l') :
    Marks (m :: l) (m' :: l') := List.Forall₂.cons hm h

theorem marks_intersectionLoop (as bs : List Match) : Marks as (intersectionLoop as bs) := by
  induction as, bs using intersectionLoop.induct with
  | case1 bs => rw [intersectionLoop]; exact Marks.refl _
  | case2 a as ih => rw [intersectionLoop]; exact marks_cons (.inr rfl) ih
  | case3 a as b bs h ih => rw [intersectionLoop, if_pos h]; exact marks_cons (.inr rfl) ih
  | case4 a as b bs h1 h2 ih => rw [intersectionLoop, if_neg h1, if_pos h2]; exact ih
  | case5 a as b bs h1 h2 h3 ih =>
    rw [intersectionLoop, if_neg h1, if_neg h2, if_pos h3]; exact marks_cons (.inl rfl) ih
  | case6 a as b bs h1 h2 h3 h4 ih =>
    rw [intersectionLoop, if_neg h1, if_neg h2, if_neg h3, if_pos h4]; exact marks_cons (.inr rfl) ih
  | case7 a as b bs h1 h2 h3 h4 ih =>
    rw [intersectionLoop, if_neg h1, if_neg h2, if_neg h3, if_neg h4]; exact ih

theorem marks_diffLoop (as bs : List Match) : Marks as (diffLoop as bs) := by
  induction as, bs using diffLoop.induct with
  | case1 bs => rw [diffLoop]; exact Marks.refl _
  | case2 a as => rw [diffLoop]; exact Marks.refl _
  | case3 a as b bs h ih => rw [diffLoop, if_pos h]; exact marks_cons (.inl rfl) ih
  | case4 a as b bs h1 h2 ih => rw [diffLoop, if_neg h1, if_pos h2]; exact ih
  | case5 a as b bs h1 h2 h3 ih =>
    rw [diffLoop, if_neg h1, if_neg h2, if_pos h3]; exact marks_cons (.inr rfl) ih
  | case6 a as b bs h1 h2 h3 h4 ih =>
    rw [diffLoop, if_neg h1, if_neg h2, if_neg h3, if_pos h4]; exact marks_cons (.inl rfl) ih
  | case7 a as b bs h1 h2 h3 h4 ih =>
    rw [diffLoop, if_neg h1, if_neg h2, if_neg h3, if_neg h4]; exact ih

theorem marks_keepRanges (rs ms : List Match) : Marks rs (EvalEnv.keepRanges rs ms) := by
  induction rs, ms using EvalEnv.keepRanges.induct with
  | case1 ms => rw [EvalEnv.keepRanges]; exact Marks.refl _
  | case2 r rs ih => rw [EvalEnv.keepRanges]; exact marks_cons (.inr rfl) ih
  | case3 r rs m ms h ih =>
    rw [EvalEnv.keepRanges, if_pos h]
    refine marks_cons ?_ ih
    split_ifs
    · exact .inr rfl
    · exact .inl rfl
  | case4 r rs m ms h ih => rw [EvalEnv.keepRanges, if_neg h]; exact ih

theorem marks_minimalScan (start : ℤ) (ri : Match) (l : List Match) :
    Marks (ri :: l) ((minimalScan start ri l).1 :: (minimalScan start ri l).2) := by
  induction l with
  | nil => exact Marks.refl _
  | cons rj rest ih =>
    obtain ⟨h1, h2⟩ := forall₂_cons.mp ih
    unfold minimalScan
    split_ifs
    · exact marks_cons (.inr rfl) (Marks.refl _)
    · exact marks_cons h1 (marks_cons (.inr rfl) h2)
    · exact marks_cons h1 (marks_cons (.inl rfl) h2)
    · exact Marks.refl _

theorem marks_maximalScan (start : ℤ) (ri : Match) (l : List Match) :
    Marks (ri :: l) ((maximalScan start ri l).1 :: (maximalScan start ri l).2) := by
  induction l generalizing ri with
  | nil => exact Marks.refl _
  | cons rj rest ih =>
    obtain ⟨h1, h2⟩ := forall₂_cons.mp (ih ri)
    obtain ⟨h3, h4⟩ := forall₂_cons.mp (ih ri.mark)
    unfold maximalScan
    split_ifs
    · exact marks_cons h1 (marks_cons (.inr rfl) h2)
    · exact marks_cons (.inr (h3.elim id id)) (marks_cons (.inl rfl) h4)
    · exact marks_cons h1 (marks_cons (.inl rfl) h2)
    · exact Marks.refl _

theorem marks_minimalLoop (l : List Match) : Marks l (minimalLoop l) := by
  induction l using minimalLoop.induct with
  | case1 => rw [minimalLoop]; exact Marks.refl _
  | case2 ri rest h ih =>
    rw [minimalLoop, if_pos h]
    exact (marks_minimalScan ri.start ri rest).trans (marks_cons (.inl rfl) ih)
  | case3 ri rest h ih => rw [minimalLoop, if_neg h]; exact marks_cons (.inl rfl) ih

theorem marks_maximalLoop (l : List Match) : Marks l (maximalLoop l) := by
  induction l using maximalLoop.induct with
  | case1 => rw [maximalLoop]; exact Marks.refl _
  | case2 ri rest h ih =>
    rw [maximalLoop, if_pos h]
    exact (marks_maximalScan ri.start ri rest).trans (marks_cons (.inl rfl) ih)
  | case3 ri rest h ih => rw [maximalLoop, if_neg h]; exact marks_cons (.inl rfl) ih

theorem marks_markWhile (run del : Match → Bool) (l : List Match) : Marks l (markWhile run del l) := by
  induction l with
  | nil => exact Marks.refl _
  | cons rj rest ih =>
    unfold markWhile
    split_ifs
    · exact marks_cons (.inr rfl) ih
    · exact marks_cons (.inl rfl) ih
    · exact Marks.refl _

theorem marks_markLoop (run del : Match → Match → Bool) (l : List Match) : Marks l (markLoop run del l) := by
  induction l using markLoop.induct run del with
  | case1 => rw [markLoop]; exact Marks.refl _
  | case2 ri rest h ih =>
    rw [markLoop, if_pos h]
    exact marks_cons (.inl rfl) ((marks_markWhile (run ri) (del ri) rest).trans ih)
  | case3 ri rest h ih => rw [markLoop, if_neg h]; exact marks_cons (.inl rfl) ih

end CWB
