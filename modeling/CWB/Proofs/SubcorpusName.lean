import CWB.Spec.QueryStore

/-! The names that `valid_subcorpus_name` accepts: after the first character it only counts the colons. -/

namespace CWB.SubcorpusName

open List Split

variable {s corpusname motherName : CorpusName} {first : Char} {i mark : ℕ}

theorem nameChar_of_nameStart (h : nameStart first = true) : nameChar first = true := by
  simp only [nameStart, Bool.or_eq_true] at h
  simp only [nameChar, Bool.or_eq_true]
  tauto

theorem colon_not_nameChar : nameChar ':' = false := by decide

theorem splitLoop_afterColon (h : nameChar first = true) : splitLoop corpusname first s i true motherName mark =
    if ':' ∈ s then none else some (motherName, mark) := by
  induction s generalizing i with
  | nil => rfl
  | cons c s ih =>
    rw [splitLoop]
    by_cases hc : c = ':'
    · rw [if_pos hc, if_pos rfl, if_pos (by simp [hc])]
    · rw [if_neg hc, if_pos h, ih]
      simp only [mem_cons, Ne.symm hc, false_or]

theorem splitLoop_eq (h : nameChar first = true) : splitLoop corpusname first s i false motherName mark =
    match splitAtFirst ':' s with
    | none => some (motherName, mark)
    | some (a, b) => if ':' ∈ b then none else some (corpusname.take (i + a.length), i + a.length + 1) := by
  induction s generalizing i with
  | nil => rfl
  | cons c s ih =>
    rw [splitLoop]
    by_cases hc : c = ':'
    · subst hc
      rw [if_pos rfl, if_neg (by decide), splitLoop_afterColon h, splitAtFirst_cons_self]
      rfl
    · rw [if_neg hc, if_pos h, ih, splitAtFirst_cons_of_ne hc]
      cases splitAtFirst ':' s with
      | none => rfl
      | some p =>
        simp only [Option.map_some, length_cons]
        rw [show i + (p.1.length + 1) = i + 1 + p.1.length by omega]

/-- Apart from the first one, only the colons matter. -/
theorem splitSubcorpusName_eq (s : CorpusName) : splitSubcorpusName s = CWB.splitSubcorpusName s := by
  cases s with
  | nil => rfl
  | cons first rest =>
    rw [splitSubcorpusName, CWB.splitSubcorpusName, head?_cons, Option.any_some]
    by_cases hstart : nameStart first
    · have hcolon : first ≠ ':' := fun h => by
        rw [h] at hstart
        exact absurd hstart (by decide)
      rw [if_pos hstart, if_pos hstart, splitLoop_eq (nameChar_of_nameStart hstart), splitAtFirst_cons_of_ne hcolon]
      cases hs : splitAtFirst ':' rest with
      | none => rfl
      | some p =>
        obtain ⟨a, b⟩ := p
        obtain ⟨rfl, -⟩ := splitAtFirst_some hs
        simp only [Option.map_some, isQualified, decide_eq_true_eq]
        split_ifs
        · rfl
        · simp [Nat.add_comm 1]
    · rw [if_neg hstart, if_neg hstart]

/-- The parts that are split off are the name. -/
theorem splitSubcorpusName_some {mother name : CorpusName} (h : splitSubcorpusName s = some (mother, name)) :
    (mother = [] ∧ name = s ∧ ':' ∉ s) ∨ s = mother ++ ':' :: name := by
  rw [splitSubcorpusName_eq, CWB.splitSubcorpusName] at h
  split_ifs at h
  cases hs : splitAtFirst ':' s with
  | none =>
    rw [hs] at h
    obtain ⟨rfl, rfl⟩ := Prod.mk.inj (Option.some.inj h)
    exact .inl ⟨rfl, rfl, splitAtFirst_eq_none.mp hs⟩
  | some p =>
    obtain ⟨a, b⟩ := p
    simp only [hs] at h
    split_ifs at h
    obtain ⟨rfl, rfl⟩ := Prod.mk.inj (Option.some.inj h)
    exact .inr (splitAtFirst_some hs).1

theorem validSubcorpusName_eq : validSubcorpusName s = true ↔ s.head?.any nameStart = true ∧ s.count ':' ≤ 1 := by
  rw [validSubcorpusName, splitSubcorpusName_eq, CWB.splitSubcorpusName]
  by_cases hstart : s.head?.any nameStart
  · simp only [hstart, true_and]
    cases hs : splitAtFirst ':' s with
    | none => simp [count_eq_zero.mpr (splitAtFirst_eq_none.mp hs)]
    | some p =>
      obtain ⟨a, b⟩ := p
      obtain ⟨rfl, ha⟩ := splitAtFirst_some hs
      simp only [isQualified, decide_eq_true_eq, count_append, count_eq_zero.mpr ha, count_cons_self]
      by_cases hb : ':' ∈ b
      · have := count_pos_iff.mpr hb
        simp [hb]
        omega
      · simp [hb, count_eq_zero.mpr hb]
  · simp [hstart]

/-- An optional qualifier with a colon, and a query name, of the allowed characters throughout. -/
def QueryName (s : CorpusName) : Prop :=
  s.head?.any nameStart = true ∧ ((s ≠ [] ∧ ∀ c ∈ s, nameChar c = true) ∨
    ∃ mother name, s = mother ++ ':' :: name ∧ name ≠ [] ∧ (∀ c ∈ mother, nameChar c = true) ∧ ∀ c ∈ name, nameChar c = true)

/-- No character is left unchecked that is not allowed, and the name does not end in a colon. -/
def WellSpelled (s : CorpusName) : Prop := (∀ c ∈ s, c = ':' ∨ nameChar c = true) ∧ ∀ c ∈ s.getLast?, c ≠ ':'

theorem queryName_iff : QueryName s ↔ (s.head?.any nameStart = true ∧ s.count ':' ≤ 1) ∧ WellSpelled s := by
  have hne : ∀ {l : CorpusName}, (∀ c ∈ l, nameChar c = true) → ':' ∉ l := fun hall hmem => by
    have := hall ':' hmem
    rw [colon_not_nameChar] at this
    exact absurd this (by decide)
  refine ⟨fun ⟨hstart, h⟩ => ?_, fun ⟨⟨hstart, hcount⟩, hall, hlast⟩ => ⟨hstart, ?_⟩⟩
  · rcases h with ⟨-, hall⟩ | ⟨mother, name, rfl, hname, hmother, hlocal⟩
    · refine ⟨⟨hstart, ?_⟩, fun c hc => .inr (hall c hc), fun c hc heq => ?_⟩
      · simp [count_eq_zero.mpr (hne hall)]
      · exact hne hall (heq ▸ mem_of_getLast? hc)
    · refine ⟨⟨hstart, ?_⟩, fun c hc => ?_, fun c hc heq => ?_⟩
      · simp [count_append, count_eq_zero.mpr (hne hmother), count_eq_zero.mpr (hne hlocal)]
      · rcases mem_append.mp hc with hc | hc
        · exact .inr (hmother c hc)
        · exact (mem_cons.mp hc).imp_right (hlocal c)
      · obtain ⟨c', name, rfl⟩ := exists_cons_of_ne_nil hname
        rw [getLast?_append, getLast?_cons_cons] at hc
        cases hl : (c' :: name).getLast? with
        | none => simp at hl
        | some x =>
          rw [hl] at hc
          obtain rfl := Option.some.inj hc
          exact hne hlocal (heq ▸ mem_of_getLast? hl)
  · cases hs : splitAtFirst ':' s with
    | none =>
      have hcolon := splitAtFirst_eq_none.mp hs
      refine .inl ⟨fun h0 => by simp [h0] at hstart, fun c hc => (hall c hc).resolve_left fun heq => hcolon (heq ▸ hc)⟩
    | some p =>
      obtain ⟨a, b⟩ := p
      obtain ⟨rfl, ha⟩ := splitAtFirst_some hs
      have hb : ':' ∉ b := fun hmem => by
        have := count_pos_iff.mpr hmem
        simp only [count_append, count_cons_self] at hcount
        omega
      refine .inr ⟨a, b, rfl, fun h0 => ?_, fun c hc => ?_, fun c hc => ?_⟩
      · exact hlast ':' (by simp [h0]) rfl
      · exact (hall c (by simp [hc])).resolve_left fun heq => ha (heq ▸ hc)
      · exact (hall c (by simp [hc])).resolve_left fun heq => hb (heq ▸ hc)

/-- The accepted strings are the query names exactly among the strings that are rejected for their first
character or a second colon, or well spelled. -/
theorem validSubcorpusName_iff (s : CorpusName) :
    (∀ mother name, splitSubcorpusName s = some (mother, name) →
      (mother = [] ∧ name = s ∧ ':' ∉ s) ∨ s = mother ++ ':' :: name) ∧
      ((validSubcorpusName s = true ↔ QueryName s) ↔ (s.head?.any nameStart = true ∧ s.count ':' ≤ 1 → WellSpelled s)) := by
  refine ⟨fun mother name h => splitSubcorpusName_some h, ?_⟩
  rw [validSubcorpusName_eq, queryName_iff]
  tauto

/-- A name with a blank and a slash in it is accepted. -/
theorem validSubcorpusName_any :
    ¬∀ s : CorpusName, (validSubcorpusName s = true ↔ QueryName s) := by
  intro h
  have hquery := (h ['A', ' ', '/']).mp (by decide)
  exact absurd ((queryName_iff.mp hquery).2.1 ' ' (by decide)) (by decide)

end CWB.SubcorpusName
