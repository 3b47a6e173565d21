import Mathlib

/-! Words that contain a word of a language, at their start or end where it is anchored there. -/

namespace Anchored

variable {α : Type*} {K K' L : Language α} {s s' e e' : Bool}

/-- What may stand beside the word. -/
def margin (anchored : Bool) : Language α := if anchored then 1 else ⊤

def words (G : List (List α)) : Language α := {w | w ∈ G}

def framed (K : Language α) (s e : Bool) : Language α := margin s * K * margin e

theorem one_le_margin (s : Bool) : 1 ≤ (margin s : Language α) := by
  cases s with
  | true => exact le_rfl
  | false => exact le_top

theorem margin_le (h : s' = true → s = true) : (margin s : Language α) ≤ margin s' := by
  cases s' with
  | true =>
    rw [h rfl]
  | false => exact le_top

theorem framed_mono (hK : K ≤ K') (hs : s' = true → s = true) (he : e' = true → e = true) : framed K s e ≤ framed K' s' e' :=
  mul_le_mul' (mul_le_mul' (margin_le hs) hK) (margin_le he)

theorem le_framed (K : Language α) (s e : Bool) : K ≤ framed K s e := by
  calc K = 1 * K * 1 := by rw [one_mul, mul_one]
    _ ≤ framed K s e := mul_le_mul' (mul_le_mul' (one_le_margin s) le_rfl) (one_le_margin e)

/-- More text in front. -/
theorem mul_framed_le (L K : Language α) (s e : Bool) : L * framed K s e ≤ framed K false e := by
  rw [framed, ← mul_assoc, ← mul_assoc]
  exact mul_le_mul' (mul_le_mul' le_top le_rfl) le_rfl

/-- More text behind. -/
theorem framed_mul_le (K L : Language α) (s e : Bool) : framed K s e * L ≤ framed K s false := by
  rw [framed, mul_assoc]
  exact mul_le_mul' le_rfl le_top

theorem mem_framed {w : List α} :
    w ∈ framed K s e ↔ ∃ a, ∃ t ∈ K, ∃ b, w = a ++ t ++ b ∧ (s = true → a = []) ∧ (e = true → b = []) := by
  have hmargin : ∀ (s : Bool) (a : List α), a ∈ (margin s : Language α) ↔ (s = true → a = []) := by
    intro s a
    cases s with
    | true => simp [margin, Language.mem_one]
    | false => simp [margin, show a ∈ (⊤ : Language α) from Set.mem_univ a]
  refine ⟨?_, ?_⟩
  · rintro ⟨_, ⟨a, ha, t, ht, rfl⟩, b, hb, rfl⟩
    exact ⟨a, t, ht, b, rfl, (hmargin s a).mp ha, (hmargin e b).mp hb⟩
  · rintro ⟨a, t, ht, b, rfl, ha, hb⟩
    exact ⟨a ++ t, ⟨a, (hmargin s a).mpr ha, t, ht, rfl⟩, b, (hmargin e b).mpr hb, rfl⟩

/-- A word in another one, anchored where that is. -/
theorem framed_framed_le (hs : s' = true → s = true) (he : e' = true → e = true) :
    framed (framed K s' e') s e ≤ framed K s' e' := by
  intro w hw
  obtain ⟨a, t, ht, b, rfl, ha, hb⟩ := mem_framed.mp hw
  obtain ⟨a', t', ht', b', rfl, ha', hb'⟩ := mem_framed.mp ht
  refine mem_framed.mpr ⟨a ++ a', t', ht', b' ++ b, by simp only [List.append_assoc], fun h => ?_, fun h => ?_⟩
  · rw [ha (hs h), ha' h]
    rfl
  · rw [hb (he h), hb' h]
    rfl

/-- Words letter by letter in another alphabet. -/
theorem flatMap_mem_framed {β : Type*} {f : α → List β} {H : Language β} (hf : ∀ t ∈ K, t.flatMap f ∈ H) {w : List α}
    (h : w ∈ framed K s e) : w.flatMap f ∈ framed H s e := by
  obtain ⟨a, t, ht, b, rfl, ha, hb⟩ := mem_framed.mp h
  refine mem_framed.mpr ⟨a.flatMap f, _, hf t ht, b.flatMap f, by simp only [List.flatMap_append], fun hs => ?_, fun he => ?_⟩
  · rw [ha hs]
    rfl
  · rw [hb he]
    rfl

end Anchored
