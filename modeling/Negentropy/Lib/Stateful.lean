import Mathlib.Tactic.Common

/-! Running a computation with a state and errors: what a sequence of two returned, and what
can be read off its end. -/

namespace Stateful

variable {ε σ α β : Type}

theorem bind_eq_ok {m : EStateM ε σ α} {f : α → EStateM ε σ β} {s s' : σ} {b : β} :
    (m >>= f) s = .ok b s' ↔ ∃ a t, m s = .ok a t ∧ f a t = .ok b s' := by
  constructor
  · intro h
    cases hm : m s with
    | ok a t => exact ⟨a, t, rfl, by simpa [bind, EStateM.bind, hm] using h⟩
    | error e t => simp [bind, EStateM.bind, hm] at h
  · rintro ⟨a, t, hm, hf⟩
    simpa [bind, EStateM.bind, hm] using hf

theorem bind_of_ok {m : EStateM ε σ α} {f : α → EStateM ε σ β} {s t : σ} {a : α} (h : m s = .ok a t) :
    (m >>= f) s = f a t := by
  simp [bind, EStateM.bind, h]

theorem bind_of_not_ok {m : EStateM ε σ α} {f : α → EStateM ε σ β} {s : σ} (h : ∀ a t, m s ≠ .ok a t) (b : β)
    (s' : σ) : (m >>= f) s ≠ .ok b s' := by
  intro heq
  obtain ⟨a, t, hm, -⟩ := bind_eq_ok.mp heq
  exact h a t hm

theorem pure_eq_ok {a b : α} {s s' : σ} :
    (pure a : EStateM ε σ α) s = .ok b s' ↔ a = b ∧ s = s' := by
  simp [pure, EStateM.pure]

theorem get_apply (s : σ) : (get : EStateM ε σ σ) s = .ok s s := rfl

theorem modify_apply (f : σ → σ) (s : σ) : (modify f : EStateM ε σ PUnit) s = .ok ⟨⟩ (f s) := rfl

theorem throw_apply (e : ε) (s : σ) : (throw e : EStateM ε σ α) s = .error e s := rfl

theorem get_eq_ok {s s' t : σ} : (get : EStateM ε σ σ) s = .ok t s' ↔ s = t ∧ s = s' := by
  simp [get_apply]

theorem modify_eq_ok {f : σ → σ} {s s' : σ} {u : PUnit} :
    (modify f : EStateM ε σ PUnit) s = .ok u s' ↔ f s = s' := by
  simp [modify_apply]

theorem throw_ne_ok {e : ε} {s s' : σ} {a : α} : (throw e : EStateM ε σ α) s ≠ .ok a s' := by
  simp [throw_apply]

theorem except_bind_eq_ok {x : Except ε α} {f : α → Except ε β} {b : β} :
    (x >>= f) = .ok b ↔ ∃ a, x = .ok a ∧ f a = .ok b := by
  cases x <;> simp [bind, Except.bind]

end Stateful
