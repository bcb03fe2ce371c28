import Mathlib.Tactic.Common

/-! What holds of a state whether a computation returns or throws, and what it can throw at all. -/

namespace Stateful

variable {ε σ α β : Type}

/-- Everything that is thrown is one of `P`. -/
def Throws (P : ε → Prop) (x : Except ε α) : Prop := ∀ e, x = .error e → P e

/-- From a state with `Q` the computation leaves one with `Q`, and everything that it throws is one of `P`. -/
def Guarded (Q : σ → Prop) (P : ε → Prop) (m : EStateM ε σ α) : Prop :=
  ∀ s, Q s → (∀ a s', m s = .ok a s' → Q s') ∧ ∀ e s', m s = .error e s' → Q s' ∧ P e

section
variable {P : ε → Prop}

theorem throws_ok (a : α) : Throws P (.ok a : Except ε α) := fun _ h => by cases h

theorem throws_error {e : ε} (h : P e) : Throws P (.error e : Except ε α) := fun _ h' => Except.error.inj h' ▸ h

theorem Throws.bind {x : Except ε α} {f : α → Except ε β} (hx : Throws P x) (hf : ∀ a, x = .ok a → Throws P (f a)) :
    Throws P (x >>= f) := by
  intro e h
  cases x with
  | error e' => exact hx e (congrArg Except.error (Except.error.inj h))
  | ok a => exact hf a rfl e h

variable {Q : σ → Prop}

theorem guarded_pure (a : α) : Guarded Q P (pure a : EStateM ε σ α) := by
  intro s hs
  refine ⟨fun b s' h => ?_, fun e s' h => ?_⟩
  · obtain ⟨-, rfl⟩ := EStateM.Result.ok.inj h
    exact hs
  · cases h

theorem guarded_throw {e : ε} (h : P e) : Guarded Q P (throw e : EStateM ε σ α) := by
  intro s hs
  refine ⟨fun b s' h' => ?_, fun e' s' h' => ?_⟩
  · cases h'
  · obtain ⟨rfl, rfl⟩ := EStateM.Result.error.inj h'
    exact ⟨hs, h⟩

theorem guarded_modify {f : σ → σ} (h : ∀ s, Q s → Q (f s)) : Guarded Q P (modify f : EStateM ε σ PUnit) := by
  intro s hs
  refine ⟨fun b s' h' => ?_, fun e s' h' => ?_⟩
  · obtain ⟨-, rfl⟩ := EStateM.Result.ok.inj h'
    exact h s hs
  · cases h'

theorem Guarded.bind {m : EStateM ε σ α} {f : α → EStateM ε σ β} (hm : Guarded Q P m) (hf : ∀ a, Guarded Q P (f a)) :
    Guarded Q P (m >>= f) := by
  intro s hs
  have hbind : (m >>= f) s = match m s with
    | .ok a s' => f a s'
    | .error e s' => .error e s' := rfl
  cases hms : m s with
  | ok a s' =>
    rw [hbind, hms]
    exact hf a s' ((hm s hs).1 a s' hms)
  | error e s' =>
    rw [hbind, hms]
    refine ⟨fun b s'' h => ?_, fun e' s'' h => ?_⟩
    · cases h
    · obtain ⟨rfl, rfl⟩ := EStateM.Result.error.inj h
      exact (hm s hs).2 e s' hms

/-- What is read of the state. -/
theorem guarded_get {f : σ → EStateM ε σ β} (hf : ∀ s, Q s → Guarded Q P (f s)) : Guarded Q P (get >>= f) :=
  fun s hs => hf s hs s hs

end

end Stateful
