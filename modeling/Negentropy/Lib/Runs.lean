import Mathlib.Data.Nat.Find
import Mathlib.Order.Monotone.Basic
import Mathlib.Order.WellFounded
import Mathlib.Tactic.Common

/-! Runs of a machine that takes one call after another: what holds after every call, and what
holds of every call when it is made. -/

namespace Runs

variable {σ κ : Type} (after : σ → κ → σ)

/-- `P` holds after each of the calls. -/
def Throughout (P : σ → Prop) : σ → List κ → Prop
  | _, [] => True
  | s, c :: cs => P (after s c) ∧ Throughout P (after s c) cs

/-- `C` holds of each of the calls in the state it is made in. -/
def EachCall (C : σ → κ → Prop) : σ → List κ → Prop
  | _, [] => True
  | s, c :: cs => C s c ∧ EachCall C (after s c) cs

/-- If a call that keeps `P` is one of which `C` holds, then so it is throughout a run. -/
theorem throughout_iff {P : σ → Prop} {C : σ → κ → Prop} (hstep : ∀ s c, P s → (P (after s c) ↔ C s c)) {s : σ}
    (hs : P s) (cs : List κ) : Throughout after P s cs ↔ EachCall after C s cs := by
  induction cs generalizing s with
  | nil => exact Iff.rfl
  | cons c cs ih =>
    constructor
    · intro h
      exact ⟨(hstep s c hs).mp h.1, (ih h.1).mp h.2⟩
    · intro h
      have hnext := (hstep s c hs).mpr h.1
      exact ⟨hnext, (ih hnext).mpr h.2⟩

/-- If each step is calm or lowers a measure, and no calm one raises it, then a run is calm from some point on. -/
theorem settles {α : Type} [LinearOrder α] [WellFoundedLT α] {step : σ → σ} {calm : σ → Prop} {measure : σ → α}
    (h : ∀ s, calm s ∧ measure (step s) ≤ measure s ∨ measure (step s) < measure s) (s : σ) :
    ∃ N, ∀ n ≥ N, calm (step^[n] s) := by
  have hanti : Antitone fun n => measure (step^[n] s) := by
    refine antitone_nat_of_succ_le fun n => ?_
    rw [Function.iterate_succ_apply']
    exact (h _).elim And.right le_of_lt
  obtain ⟨_, ⟨N, rfl⟩, hmin⟩ := wellFounded_lt.has_min (Set.range fun n => measure (step^[n] s)) (Set.range_nonempty _)
  refine ⟨N, fun n hn => ((h _).resolve_right fun hlt => ?_).1⟩
  rw [← Function.iterate_succ_apply' step] at hlt
  exact hmin _ ⟨n + 1, rfl⟩ (hlt.trans_le (hanti hn))

/-- Of the calls with a property there is a first. -/
theorem exists_first {p : ℕ → Prop} {w : ℕ} (h : ∃ i < w, p i) : ∃ i < w, p i ∧ ∀ j < i, ¬ p j := by
  classical
  obtain ⟨i, hi, hp⟩ := h
  exact ⟨Nat.find ⟨i, hp⟩, (Nat.find_min' _ hp).trans_lt hi, Nat.find_spec _, fun j hj => Nat.find_min _ hj⟩

end Runs
