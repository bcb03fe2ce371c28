import Mathlib.Data.List.Perm.Basic
import Mathlib.Order.Lattice

/-! What is reached from an element by a function to lists, step by step and depth first. -/

namespace Generations

variable {α : Type} (kids : α → List α)

/-- What is so many steps down, in order. -/
def generation (xs : List α) : ℕ → List α
  | 0 => xs
  | d + 1 => (generation xs d).flatMap kids

/-- What is up to so many steps down, each before what is under it. -/
def preorder : ℕ → α → List α
  | 0, x => [x]
  | d + 1, x => x :: (kids x).flatMap (preorder d)

@[simp] theorem generation_zero (xs : List α) : generation kids xs 0 = xs := rfl

/-- The first step may be taken first. -/
theorem generation_succ (xs : List α) (d : ℕ) : generation kids xs (d + 1) = generation kids (xs.flatMap kids) d := by
  induction d with
  | zero => rfl
  | succ d ih => rw [generation, ih, generation]

theorem generation_eq_flatMap (xs : List α) (d : ℕ) : generation kids xs d = xs.flatMap fun x => generation kids [x] d := by
  induction d with
  | zero => simp
  | succ d ih =>
    rw [generation, ih, List.flatMap_assoc]
    rfl

/-- Below one element: those below each of its kids. -/
theorem generation_kids (x : α) (d : ℕ) :
    generation kids [x] (d + 1) = (kids x).flatMap fun y => generation kids [y] d := by
  rw [generation_succ, List.flatMap_singleton, generation_eq_flatMap]

theorem mem_generation_kids {x y : α} {d : ℕ} :
    y ∈ generation kids [x] (d + 1) ↔ ∃ k ∈ kids x, y ∈ generation kids [k] d := by
  rw [generation_kids, List.mem_flatMap]

theorem mem_preorder {x y : α} {d : ℕ} : y ∈ preorder kids d x ↔ ∃ i ≤ d, y ∈ generation kids [x] i := by
  induction d generalizing x with
  | zero => simp [preorder]
  | succ d ih =>
    rw [preorder, List.mem_cons, List.mem_flatMap]
    constructor
    · rintro (rfl | ⟨k, hk, hy⟩)
      · exact ⟨0, Nat.zero_le _, by simp⟩
      · obtain ⟨i, hi, hy⟩ := ih.mp hy
        exact ⟨i + 1, Nat.succ_le_succ hi, (mem_generation_kids kids).mpr ⟨k, hk, hy⟩⟩
    · rintro ⟨i, hi, hy⟩
      cases i with
      | zero => exact Or.inl (by simpa using hy)
      | succ i =>
        obtain ⟨k, hk, hy⟩ := (mem_generation_kids kids).mp hy
        exact Or.inr ⟨k, hk, ih.mpr ⟨i, Nat.le_of_succ_le_succ hi, hy⟩⟩

theorem flatMap_flatMap_perm {β γ : Type} (is : List β) (xs : List γ) (f : β → γ → List α) :
    (is.flatMap fun i => xs.flatMap (f i)).Perm (xs.flatMap fun x => is.flatMap fun i => f i x) := by
  induction xs with
  | nil => simp
  | cons x xs ih =>
    simp only [List.flatMap_cons]
    exact (List.flatMap_append_perm is _ _).symm.trans (ih.append_left _)

/-- Depth first, the same are met as generation by generation. -/
theorem preorder_perm (d : ℕ) (x : α) : (preorder kids d x).Perm ((List.range (d + 1)).flatMap (generation kids [x])) := by
  induction d generalizing x with
  | zero => simp [preorder]
  | succ d ih =>
    have hrest : ((kids x).flatMap (preorder kids d)).Perm ((List.range (d + 1)).flatMap fun i => generation kids [x] (i + 1)) := by
      simp only [generation_kids]
      exact (List.Perm.flatMap_left _ fun k _ => ih k).trans (flatMap_flatMap_perm _ _ _).symm
    rw [preorder, List.range_succ_eq_map, List.flatMap_cons, List.flatMap_map]
    exact hrest.cons x

/-- Where just the last of the generations has a property, those with it come in the order of that generation. -/
theorem filter_preorder {p : α → Bool} {d : ℕ} {x : α} (h : ∀ i ≤ d, ∀ y ∈ generation kids [x] i, p y = true ↔ i = d) :
    (preorder kids d x).filter p = generation kids [x] d := by
  induction d generalizing x with
  | zero => simpa [preorder] using h 0 le_rfl x
  | succ d ih =>
    have hx : ¬ p x = true := fun hp => absurd ((h 0 (Nat.zero_le _) x (by simp)).mp hp) (by omega)
    have hkids : ∀ k ∈ kids x, (preorder kids d k).filter p = generation kids [k] d := fun k hk => ih fun i hi y hy =>
      (h (i + 1) (Nat.succ_le_succ hi) y ((mem_generation_kids kids).mpr ⟨k, hk, hy⟩)).trans (by omega)
    rw [preorder, List.filter_cons_of_neg hx, List.filter_flatMap, generation_kids, List.flatMap_congr hkids]

end Generations
