import Negentropy.Lib.Stateful

/-! Rules for computations with a state and errors, whatever they end in: along which relation
the state moves, and what two of them that run side by side have in common. -/

namespace Stateful

variable {ε σ α β : Type}

/-- The state that is left, also by an exception. -/
def endState : EStateM.Result ε σ α → σ
  | .ok _ s => s
  | .error _ s => s

@[simp] theorem endState_ok (a : α) (s : σ) : endState (.ok a s : EStateM.Result ε σ α) = s := rfl
@[simp] theorem endState_error (e : ε) (s : σ) : endState (.error e s : EStateM.Result ε σ α) = s := rfl

theorem bind_of_error {m : EStateM ε σ α} {f : α → EStateM ε σ β} {s t : σ} {e : ε} (h : m s = .error e t) :
    (m >>= f) s = .error e t := by
  simp [bind, EStateM.bind, h]

/-! ### One computation -/

/-- From every state the computation moves along `R`, and it throws nothing but `E`. -/
def Moves (R : σ → σ → Prop) (E : ε → Prop) (m : EStateM ε σ α) : Prop :=
  ∀ s, R s (endState (m s)) ∧ ∀ e t, m s = .error e t → E e

section
variable {R R' : σ → σ → Prop} {E : ε → Prop} {m : EStateM ε σ α} {f : α → EStateM ε σ β}

theorem Moves.mono (h : Moves R E m) (hR : ∀ s t, R s t → R' s t) : Moves R' E m :=
  fun s => ⟨hR _ _ (h s).1, (h s).2⟩

theorem Moves.bind (htrans : ∀ s t u, R s t → R t u → R s u) (hm : Moves R E m) (hf : ∀ a, Moves R E (f a)) :
    Moves R E (m >>= f) := by
  intro s
  obtain ⟨hr, he⟩ := hm s
  cases h : m s with
  | ok a t =>
    rw [h] at hr
    rw [bind_of_ok h]
    exact ⟨htrans _ _ _ hr (hf a t).1, (hf a t).2⟩
  | error e t =>
    rw [h] at hr
    rw [bind_of_error h]
    refine ⟨hr, fun e' t' h' => ?_⟩
    cases h'
    exact he e t h

theorem Moves.pure (hrefl : ∀ s, R s s) (a : α) : Moves R E (Pure.pure a : EStateM ε σ α) :=
  fun s => ⟨hrefl s, fun _ _ h => by cases h⟩

theorem Moves.get (hrefl : ∀ s, R s s) : Moves R E (MonadState.get : EStateM ε σ σ) :=
  fun s => ⟨hrefl s, fun _ _ h => by cases h⟩

theorem Moves.throw (hrefl : ∀ s, R s s) {e : ε} (he : E e) : Moves R E (MonadExcept.throw e : EStateM ε σ α) :=
  fun s => ⟨hrefl s, fun _ _ h => by cases h; exact he⟩

theorem Moves.modify {g : σ → σ} (hg : ∀ s, R s (g s)) : Moves R E (modify g : EStateM ε σ PUnit) :=
  fun s => ⟨hg s, fun _ _ h => by cases h⟩

end

/-! ### Two computations -/

section
variable {ε' σ' α' β' : Type}

/-- Both have returned, and `P` holds of what, or both have thrown. -/
inductive Lockstep (P : α → α' → σ → σ' → Prop) : EStateM.Result ε σ α → EStateM.Result ε' σ' α' → Prop where
  | ok {a : α} {a' : α'} {s : σ} {s' : σ'} : P a a' s s' → Lockstep P (.ok a s) (.ok a' s')
  | error {e : ε} {e' : ε'} {s : σ} {s' : σ'} : Lockstep P (.error e s) (.error e' s')

theorem Lockstep.mono {P Q : α → α' → σ → σ' → Prop} {r : EStateM.Result ε σ α} {r' : EStateM.Result ε' σ' α'}
    (h : Lockstep P r r') (hPQ : ∀ a a' t t', P a a' t t' → Q a a' t t') : Lockstep Q r r' := by
  cases h with
  | ok h => exact .ok (hPQ _ _ _ _ h)
  | error => exact .error

theorem Lockstep.bind {P : α → α' → σ → σ' → Prop} {Q : β → β' → σ → σ' → Prop} {m : EStateM ε σ α}
    {m' : EStateM ε' σ' α'} {f : α → EStateM ε σ β} {f' : α' → EStateM ε' σ' β'} {s : σ} {s' : σ'}
    (hm : Lockstep P (m s) (m' s')) (hf : ∀ a a' t t', P a a' t t' → Lockstep Q (f a t) (f' a' t')) :
    Lockstep Q ((m >>= f) s) ((m' >>= f') s') := by
  generalize hr : m s = r at hm
  generalize hr' : m' s' = r' at hm
  cases hm with
  | ok h =>
    rw [bind_of_ok hr, bind_of_ok hr']
    exact hf _ _ _ _ h
  | error =>
    rw [bind_of_error hr, bind_of_error hr']
    exact .error

/-- The first one goes on after both have ended. -/
theorem Lockstep.bind_left {P : α → α' → σ → σ' → Prop} {Q : β → α' → σ → σ' → Prop} {m : EStateM ε σ α}
    {r' : EStateM.Result ε' σ' α'} {f : α → EStateM ε σ β} {s : σ} (hm : Lockstep P (m s) r')
    (hf : ∀ a a' t t', P a a' t t' → Lockstep Q (f a t) (.ok a' t' : EStateM.Result ε' σ' α')) :
    Lockstep Q ((m >>= f) s) r' := by
  generalize hr : m s = r at hm
  cases hm with
  | ok h =>
    rw [bind_of_ok hr]
    exact hf _ _ _ _ h
  | error =>
    rw [bind_of_error hr]
    exact .error

end

end Stateful
