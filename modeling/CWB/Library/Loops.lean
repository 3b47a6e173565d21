import Mathlib.Order.Lattice.Nat

/-! A loop `while go do step`, of whose state only a part matters: states that are the same in this
part have successors that are the same. Such a loop ends exactly if no state comes back, provided
its states are of finitely many kinds. -/

namespace Loops

variable {α κ : Type*} (go : α → Prop) (step : α → α) (same : α → α → Prop) (a : α)

/-- The loop enters its rounds up to `n`. -/
def Running (n : ℕ) : Prop := ∀ k ≤ n, go (step^[k] a)

def Ends : Prop := ∃ n, ¬go (step^[n] a)

/-- A state comes back in a later round. -/
def Recurs : Prop := ∃ i j, i < j ∧ Running go step a j ∧ same (step^[i] a) (step^[j] a)

variable {go step same a}

theorem Recurs.not_ends (h : Recurs go step same a) (hstep : ∀ x y, same x y → same (step x) (step y))
    (hgo : ∀ x y, same x y → (go x ↔ go y)) : ¬Ends go step a := by
  obtain ⟨i, j, hij, hrun, hsame⟩ := h
  have hlater : ∀ k, same (step^[i + k] a) (step^[j + k] a) := fun k => by
    induction k with
    | zero => exact hsame
    | succ k ih =>
      rw [← Nat.add_assoc, ← Nat.add_assoc, Function.iterate_succ_apply', Function.iterate_succ_apply']
      exact hstep _ _ ih
  have hall : ∀ n, go (step^[n] a) := fun n => by
    induction n using Nat.strong_induction_on with
    | _ n ih =>
      by_cases hn : n ≤ j
      · exact hrun n hn
      · obtain ⟨k, rfl⟩ : ∃ k, n = j + k := ⟨n - j, by omega⟩
        exact (hgo _ _ (hlater k)).mp (ih (i + k) (by omega))
  rintro ⟨n, hn⟩
  exact hn (hall n)

theorem recurs_of_not_ends (code : α → κ) {F : Set κ} (hF : F.Finite) (hin : ∀ n, Running go step a n → code (step^[n] a) ∈ F)
    (hcode : ∀ n m, Running go step a n → Running go step a m → code (step^[n] a) = code (step^[m] a) →
      same (step^[n] a) (step^[m] a)) (h : ¬Ends go step a) : Recurs go step same a := by
  have hrun : ∀ n, Running go step a n := fun n k _ => by
    by_contra hk
    exact h ⟨k, hk⟩
  obtain ⟨i, j, hij, heq⟩ := hF.exists_lt_map_eq_of_forall_mem fun n => hin n (hrun n)
  exact ⟨i, j, hij, hrun j, hcode i j (hrun i) (hrun j) heq⟩

end Loops

/-! Runs of a deterministic machine that works within fixed limits: when the limits are
met the run gets to a configuration with the postcondition, when they are not it gets to a
halted one. The rules put attempts together the way a program puts its parts together, and
the limits of the whole are the conjunction of the limits of the parts. -/

namespace LimitedRun

variable {C : Type*} (step : C → C) (halted : C → Prop)

/-- From `c` the machine establishes `post` if `fits` holds, and halts otherwise. -/
def Attempt (fits : Prop) (c : C) (post : C → Prop) : Prop :=
  (fits → ∃ n, post (step^[n] c)) ∧ (¬fits → ∃ n, halted (step^[n] c))

variable {step halted} {fits fits' : Prop} {c : C} {post post' : C → Prop}

theorem done (h : post c) : Attempt step halted True c post :=
  ⟨fun _ => ⟨0, h⟩, fun h' => absurd trivial h'⟩

theorem halt (hf : ¬fits) (h : halted c) : Attempt step halted fits c post :=
  ⟨fun h' => absurd h' hf, fun _ => ⟨0, h⟩⟩

theorem congr (h : Attempt step halted fits c post) (hiff : fits ↔ fits') :
    Attempt step halted fits' c post := by
  rw [← propext hiff]
  exact h

theorem weaken (h : Attempt step halted fits c post) (h' : ∀ c, post c → post' c) :
    Attempt step halted fits c post' := by
  refine ⟨fun hf => ?_, h.2⟩
  obtain ⟨n, hn⟩ := h.1 hf
  exact ⟨n, h' _ hn⟩

theorem step_back (h : Attempt step halted fits (step c) post) :
    Attempt step halted fits c post := by
  refine ⟨fun hf => ?_, fun hf => ?_⟩
  · obtain ⟨n, hn⟩ := h.1 hf
    exact ⟨n + 1, hn⟩
  · obtain ⟨n, hn⟩ := h.2 hf
    exact ⟨n + 1, hn⟩

theorem run_back (n : ℕ) (h : Attempt step halted fits (step^[n] c) post) :
    Attempt step halted fits c post := by
  refine ⟨fun hf => ?_, fun hf => ?_⟩
  · obtain ⟨m, hm⟩ := h.1 hf
    exact ⟨m + n, by rw [Function.iterate_add_apply]; exact hm⟩
  · obtain ⟨m, hm⟩ := h.2 hf
    exact ⟨m + n, by rw [Function.iterate_add_apply]; exact hm⟩

/-- Where the results and the halted configurations are final, a run that is already under
way gets to the same one. -/
theorem under_way (hfix : ∀ c, post c ∨ halted c → step c = c) (m : ℕ)
    (h : Attempt step halted fits c post) : Attempt step halted fits (step^[m] c) post := by
  have hrun : ∀ n, post (step^[n] c) ∨ halted (step^[n] c) →
      step^[n] (step^[m] c) = step^[n] c := by
    intro n hn
    rw [← Function.iterate_add_apply, Nat.add_comm, Function.iterate_add_apply]
    exact Function.iterate_fixed (hfix _ hn) m
  refine ⟨fun hf => ?_, fun hf => ?_⟩
  · obtain ⟨n, hn⟩ := h.1 hf
    exact ⟨n, by rw [hrun n (.inl hn)]; exact hn⟩
  · obtain ⟨n, hn⟩ := h.2 hf
    exact ⟨n, by rw [hrun n (.inr hn)]; exact hn⟩

/-- Two runs from one configuration do not end differently. -/
theorem fixed_unique (hfix : ∀ c, post c ∨ halted c → step c = c) {n m : ℕ}
    (hn : post (step^[n] c)) (hm : halted (step^[m] c)) : step^[n] c = step^[m] c := by
  calc step^[n] c = step^[m] (step^[n] c) := (Function.iterate_fixed (hfix _ (.inl hn)) m).symm
    _ = step^[n] (step^[m] c) := by
      rw [← Function.iterate_add_apply, Nat.add_comm, Function.iterate_add_apply]
    _ = step^[m] c := Function.iterate_fixed (hfix _ (.inr hm)) n

/-- Sequential composition. -/
theorem seq (h : Attempt step halted fits c post)
    (h' : ∀ c', post c' → Attempt step halted fits' c' post') :
    Attempt step halted (fits ∧ fits') c post' := by
  by_cases hf : fits
  · obtain ⟨n, hn⟩ := h.1 hf
    exact congr (run_back n (h' _ hn)) ⟨fun h => ⟨hf, h⟩, fun h => h.2⟩
  · refine ⟨fun h => absurd h.1 hf, fun _ => h.2 hf⟩

/-- The second part needs nothing. -/
theorem seq_done (h : Attempt step halted fits c post)
    (h' : ∀ c', post c' → Attempt step halted True c' post') :
    Attempt step halted fits c post' :=
  congr (seq h h') ⟨fun h => h.1, fun h => ⟨h, trivial⟩⟩

/-- A step that is guarded by a limit. -/
theorem guard {limit : Prop} (hout : ¬limit → halted (step c))
    (hin : limit → Attempt step halted fits (step c) post) :
    Attempt step halted (limit ∧ fits) c post := by
  by_cases hl : limit
  · exact step_back (congr (hin hl) ⟨fun h => ⟨hl, h⟩, fun h => h.2⟩)
  · exact step_back (halt (fun h => hl h.1) (hout hl))

end LimitedRun
