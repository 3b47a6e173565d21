import Mathlib.Control.Monad.Basic

/-! Programs with a state that may go wrong instead of returning. A run either returns, which the
rules of `Returns` reduce to its parts, or not; what it returns is the subject of `Yields`. -/

namespace Faulting

variable {σ ε α β : Type}

/-- The program returns when it is started in a state. -/
def Returns (x : StateT σ (Except ε) α) (s : σ) : Prop := ∃ r, x s = .ok r

/-- Whatever the program returns satisfies a condition. -/
def Yields (x : StateT σ (Except ε) α) (post : α → Prop) : Prop :=
  ∀ s a s', x s = .ok (a, s') → post a

variable {f : α → StateT σ (Except ε) β} {x : StateT σ (Except ε) α}

theorem bind_ok {s : σ} {r : β × σ} :
    (x >>= f) s = .ok r ↔ ∃ a s', x s = .ok (a, s') ∧ f a s' = .ok r := by
  change (x s >>= fun p => f p.1 p.2) = .ok r ↔ _
  cases h : x s with
  | error e => simp [bind, Except.bind]
  | ok p =>
    obtain ⟨a, s'⟩ := p
    simp only [bind, Except.bind, Except.ok.injEq, Prod.mk.injEq]
    refine ⟨fun hf => ⟨a, s', ⟨rfl, rfl⟩, hf⟩, fun ⟨_, _, ⟨ha, hs⟩, hf⟩ => ?_⟩
    rw [ha, hs]
    exact hf

theorem except_bind_ok {x : Except ε α} {f : α → Except ε β} {r : β} :
    (x >>= f) = .ok r ↔ ∃ a, x = .ok a ∧ f a = .ok r := by
  cases x with
  | error e => simp [bind, Except.bind]
  | ok a => simp [bind, Except.bind]

@[simp] theorem pure_ok {a : α} {s : σ} {r : α × σ} :
    (pure a : StateT σ (Except ε) α) s = .ok r ↔ (a, s) = r := by
  change Except.ok (a, s) = Except.ok r ↔ _
  rw [Except.ok.injEq]

@[simp] theorem throw_ok {e : ε} {s : σ} {r : α × σ} :
    (throw e : StateT σ (Except ε) α) s = .ok r ↔ False := by
  change Except.error e = Except.ok r ↔ _
  simp

@[simp] theorem returns_pure (a : α) (s : σ) : Returns (pure a : StateT σ (Except ε) α) s ↔ True :=
  ⟨fun _ => trivial, fun _ => ⟨_, rfl⟩⟩

@[simp] theorem returns_throw (e : ε) (s : σ) :
    Returns (throw e : StateT σ (Except ε) α) s ↔ False := by
  simp [Returns]

theorem returns_bind {s : σ} :
    Returns (x >>= f) s ↔ ∃ a s', x s = .ok (a, s') ∧ Returns (f a) s' := by
  unfold Returns
  simp only [bind_ok]
  exact ⟨fun ⟨r, a, s', h, h'⟩ => ⟨a, s', h, r, h'⟩, fun ⟨a, s', h, r, h'⟩ => ⟨r, a, s', h, h'⟩⟩

/-- A program returns if its first part does and the rest does for every result of that part. -/
theorem returns_bind_iff {s : σ} :
    Returns (x >>= f) s ↔ Returns x s ∧ ∀ a s', x s = .ok (a, s') → Returns (f a) s' := by
  rw [returns_bind]
  refine ⟨fun ⟨a, s', h, hf⟩ => ⟨⟨_, h⟩, fun b s'' h' => ?_⟩, fun ⟨⟨r, h⟩, hf⟩ => ⟨r.1, r.2, h, hf _ _ h⟩⟩
  rw [h, Except.ok.injEq, Prod.mk.injEq] at h'
  rw [← h'.1, ← h'.2]
  exact hf

theorem yields_pure {a : α} {post : α → Prop} (h : post a) :
    Yields (pure a : StateT σ (Except ε) α) post := by
  intro s b s' hb
  rw [pure_ok, Prod.mk.injEq] at hb
  rw [← hb.1]
  exact h

theorem yields_throw (e : ε) (post : α → Prop) : Yields (throw e : StateT σ (Except ε) α) post := by
  intro s b s' hb
  exact absurd hb (by simp)

theorem yields_bind {mid : α → Prop}
    {post : β → Prop} (hx : Yields x mid) (hf : ∀ a, mid a → Yields (f a) post) : Yields (x >>= f) post := by
  intro s b s' hb
  obtain ⟨a, s'', ha, hb⟩ := bind_ok.1 hb
  exact hf a (hx s a s'' ha) s'' b s' hb

theorem yields_true (x : StateT σ (Except ε) α) : Yields x fun _ => True := fun _ _ _ _ => trivial

end Faulting
