import Negentropy.Lib.Stateful

/-! Computations that keep a log beside their state: what is left of one without its log, how
to show that all its entries are good, and how the log leads from one state to the next. -/

namespace Stateful

variable {κ ε σ α β : Type}

/-- The log is what has been recorded so far. An exception loses it. -/
abbrev Logged (κ ε σ α : Type) := StateT (List κ) (EStateM ε σ) α

def record (entry : κ) : Logged κ ε σ Unit := fun log => pure ((), log ++ [entry])

/-! ### Without the log -/

/-- Without its log `l` is `m`. -/
def Erases (l : Logged κ ε σ α) (m : EStateM ε σ α) : Prop := ∀ log, Prod.fst <$> l log = m

section
variable {l : Logged κ ε σ α} {m : EStateM ε σ α} {f : α → Logged κ ε σ β} {g : α → EStateM ε σ β}

theorem Erases.pure (a : α) : Erases (Pure.pure a : Logged κ ε σ α) (Pure.pure a) := fun _ => rfl

theorem Erases.lift (m : EStateM ε σ α) : Erases (liftM m : Logged κ ε σ α) m := by
  intro log
  funext s
  change (Prod.fst <$> (m >>= fun a => Pure.pure (a, log))) s = m s
  simp only [map_bind, map_pure, bind_pure]

theorem Erases.bind (hl : Erases l m) (hf : ∀ a, Erases (f a) (g a)) : Erases (l >>= f) (m >>= g) := by
  intro log
  rw [← hl log]
  change Prod.fst <$> (l log >>= fun p => f p.1 p.2) = _
  rw [map_bind, bind_map_left]
  exact bind_congr fun p => hf p.1 p.2

/-- What the computation returns, it returns with a log. -/
theorem Erases.exists_log (h : Erases l m) {s t : σ} {a : α} (heq : m s = .ok a t) (log : List κ) :
    ∃ log', l log s = .ok (a, log') t := by
  rw [← h log] at heq
  change EStateM.map Prod.fst (l log) s = _ at heq
  unfold EStateM.map at heq
  split at heq
  · next p t' hrun =>
    obtain ⟨a', log'⟩ := p
    cases heq
    exact ⟨log', hrun⟩
  · cases heq

end

/-! ### The entries of the log -/

/-- From `s`, all entries stay good, and `Q` holds of what is returned. -/
def Records (good : κ → Prop) (l : Logged κ ε σ α) (s : σ) (Q : α → σ → Prop) : Prop :=
  ∀ log, (∀ c ∈ log, good c) → ∀ a log' t, l log s = .ok (a, log') t → (∀ c ∈ log', good c) ∧ Q a t

section
variable {good : κ → Prop} {l : Logged κ ε σ α} {f : α → Logged κ ε σ β} {s : σ} {P Q : α → σ → Prop} {R : β → σ → Prop}

theorem Records.mono (h : Records good l s P) (hPQ : ∀ a t, P a t → Q a t) : Records good l s Q := by
  intro log hlog a log' t heq
  obtain ⟨hlog', hp⟩ := h log hlog a log' t heq
  exact ⟨hlog', hPQ a t hp⟩

theorem Records.pure {a : α} (h : Q a s) : Records good (Pure.pure a : Logged κ ε σ α) s Q := by
  intro log hlog a' log' t heq
  cases heq
  exact ⟨hlog, h⟩

theorem Records.lift {m : EStateM ε σ α} (h : ∀ a t, m s = .ok a t → Q a t) :
    Records good (liftM m : Logged κ ε σ α) s Q := by
  intro log hlog a log' t heq
  change (m >>= fun a => Pure.pure (a, log)) s = _ at heq
  obtain ⟨a', t', hm, hp⟩ := bind_eq_ok.mp heq
  cases hp
  exact ⟨hlog, h _ _ hm⟩

theorem Records.bind (hl : Records good l s P) (hf : ∀ a t, P a t → Records good (f a) t R) :
    Records good (l >>= f) s R := by
  intro log hlog b log' t heq
  change (l log >>= fun p => f p.1 p.2) s = _ at heq
  obtain ⟨⟨a, log1⟩, t1, hl1, hf1⟩ := bind_eq_ok.mp heq
  obtain ⟨hlog1, hp⟩ := hl log hlog a log1 t1 hl1
  exact hf a t1 hp log1 hlog1 b log' t hf1

theorem Records.record {entry : κ} (h : good entry) {Q : Unit → σ → Prop} (hq : Q () s) :
    Records good (record entry : Logged κ ε σ Unit) s Q := by
  intro log hlog a log' t heq
  cases heq
  refine ⟨fun c hc => ?_, hq⟩
  rcases List.mem_append.mp hc with hc | hc
  · exact hlog c hc
  · obtain rfl := List.mem_singleton.mp hc
    exact h

end

/-! ### The log as a whole -/

/-- The log grows by entries that lead from the state before to the state after. -/
def Traces (R : σ → List κ → σ → Prop) (l : Logged κ ε σ α) : Prop :=
  ∀ log s a log' t, l log s = .ok (a, log') t → ∃ entries, log' = log ++ entries ∧ R s entries t

section
variable {l : Logged κ ε σ α} {f : α → Logged κ ε σ β} {R S T : σ → List κ → σ → Prop}

theorem Traces.pure (hnil : ∀ s, R s [] s) (a : α) : Traces R (Pure.pure a : Logged κ ε σ α) := by
  intro log s a' log' t heq
  cases heq
  exact ⟨[], (List.append_nil _).symm, hnil s⟩

theorem Traces.lift {m : EStateM ε σ α} (h : ∀ s a t, m s = .ok a t → R s [] t) :
    Traces R (liftM m : Logged κ ε σ α) := by
  intro log s a log' t heq
  change (m >>= fun a => Pure.pure (a, log)) s = _ at heq
  obtain ⟨a', t', hm, hp⟩ := bind_eq_ok.mp heq
  cases hp
  exact ⟨[], (List.append_nil _).symm, h s _ _ hm⟩

theorem Traces.bind (hl : Traces R l) (hf : ∀ a, Traces T (f a))
    (happend : ∀ {s xs t ys u}, R s xs t → T t ys u → S s (xs ++ ys) u) : Traces S (l >>= f) := by
  intro log s b log' u heq
  change (l log >>= fun p => f p.1 p.2) s = _ at heq
  obtain ⟨p, t, hl1, hf1⟩ := bind_eq_ok.mp heq
  obtain ⟨a, log1⟩ := p
  obtain ⟨xs, rfl, hxs⟩ := hl log s a log1 t hl1
  obtain ⟨ys, rfl, hys⟩ := hf a _ t b log' u hf1
  exact ⟨xs ++ ys, List.append_assoc _ _ _, happend hxs hys⟩

end

end Stateful
