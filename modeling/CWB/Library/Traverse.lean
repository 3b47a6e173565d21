import Mathlib.Data.List.Forall2

/-! Lists traversed with a function that can fail. -/

namespace Traverse

open Option List

variable {α β : Type*} {f : α → Option β} {l : List α}

theorem forall₂_mapM {l' : List β} (h : l.mapM f = some l') : Forall₂ (fun a b => f a = some b) l l' := by
  induction l generalizing l' with
  | nil =>
    cases h
    exact .nil
  | cons a l ih =>
    rw [mapM_cons] at h
    obtain ⟨b, hb, h⟩ := bind_eq_some_iff.mp h
    obtain ⟨bs, hbs, h⟩ := bind_eq_some_iff.mp h
    cases h
    exact .cons hb (ih hbs)

theorem forall_of_mapM {l' : List β} (h : l.mapM f = some l') {P : β → Prop} (hf : ∀ a b, f a = some b → P b) :
    ∀ b ∈ l', P b := by
  intro b hb
  obtain ⟨i, hi, rfl⟩ := mem_iff_getElem.mp hb
  have hall := forall₂_mapM h
  exact hf _ _ (hall.get (hall.length_eq ▸ hi) hi)

theorem mapM_some {P : β → Prop} (h : ∀ a ∈ l, ∃ b, f a = some b ∧ P b) :
    ∃ l', l.mapM f = some l' ∧ ∀ b ∈ l', P b := by
  induction l with
  | nil => exact ⟨[], rfl, fun b hb => by cases hb⟩
  | cons a l ih =>
    obtain ⟨b, hb, hPb⟩ := h a mem_cons_self
    obtain ⟨bs, hbs, hPbs⟩ := ih fun x hx => h x (mem_cons_of_mem a hx)
    refine ⟨b :: bs, by rw [mapM_cons, hb, hbs]; rfl, fun x hx => ?_⟩
    obtain rfl | hx := mem_cons.mp hx
    · exact hPb
    · exact hPbs x hx

theorem mapM_congr {g : α → Option β} (h : ∀ a ∈ l, f a = g a) : l.mapM f = l.mapM g := by
  induction l with
  | nil => rfl
  | cons a l ih =>
    obtain ⟨ha, hl⟩ := forall_mem_cons.mp h
    rw [mapM_cons, mapM_cons, ha, ih hl]

theorem mapM_none {a : α} (ha : a ∈ l) (h : f a = none) : l.mapM f = none := by
  by_contra hsome
  obtain ⟨l', hl'⟩ := ne_none_iff_exists'.mp hsome
  obtain ⟨i, hi, rfl⟩ := mem_iff_getElem.mp ha
  have hall := forall₂_mapM hl'
  have := hall.get hi (hall.length_eq ▸ hi)
  rw [get_eq_getElem, h] at this
  cases this

theorem mapM_isSome_iff : (l.mapM f).isSome ↔ ∀ a ∈ l, (f a).isSome := by
  refine ⟨fun h a ha => ?_, fun h => ?_⟩
  · by_contra hnone
    rw [mapM_none ha (by simpa using hnone)] at h
    cases h
  · obtain ⟨l', hl', -⟩ := mapM_some (f := f) (P := fun _ => True) fun a ha => by
      obtain ⟨b, hb⟩ := isSome_iff_exists.mp (h a ha)
      exact ⟨b, hb, trivial⟩
    rw [hl']
    rfl

/-- What each result has of its argument, the list of results has of the list. -/
theorem map_of_mapM {γ : Type*} {g : β → γ} {h : α → γ} {l' : List β}
    (hfun : ∀ a ∈ l, ∀ b, f a = some b → g b = h a) (hl : l.mapM f = some l') : l'.map g = l.map h := by
  induction l generalizing l' with
  | nil =>
    cases hl
    rfl
  | cons a l ih =>
    obtain ⟨ha, hrest⟩ := forall_mem_cons.mp hfun
    rw [mapM_cons] at hl
    obtain ⟨b, hb, hl⟩ := bind_eq_some_iff.mp hl
    obtain ⟨bs, hbs, hl⟩ := bind_eq_some_iff.mp hl
    cases hl
    rw [map_cons, map_cons, ha b hb, ih hrest hbs]

end Traverse
