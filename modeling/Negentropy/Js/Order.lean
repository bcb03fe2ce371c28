import Mathlib.Data.Int.Basic
import Mathlib.Tactic.Linarith
import Negentropy.Js.Storage

/-! The order in which JavaScript compares items: by timestamp, then by id, and two items are
equal only if they are the same. -/

namespace NE.Js

/-! ### Numbers -/

/-- Rounding does not change a sign. -/
theorem sign_nearest (x : ℤ) : (nearest x).sign = x.sign := by
  by_cases h0 : x = 0
  · subst h0
    rfl
  · have habs : x.natAbs ≠ 0 := Int.natAbs_ne_zero.mpr h0
    have hunit : 2 ^ (x.natAbs.log2 - 52) ≤ x.natAbs :=
      (Nat.pow_le_pow_right (by decide) (Nat.sub_le _ _)).trans (Nat.log2_self_le habs)
    have hq : 0 < x.natAbs / 2 ^ (x.natAbs.log2 - 52) := Nat.div_pos hunit (Nat.two_pow_pos _)
    have hpos : ∀ (c : Prop) [Decidable c],
        0 < (if c then x.natAbs / 2 ^ (x.natAbs.log2 - 52) + 1 else x.natAbs / 2 ^ (x.natAbs.log2 - 52)) *
          2 ^ (x.natAbs.log2 - 52) := by
      intro c _
      refine Nat.mul_pos ?_ (Nat.two_pow_pos _)
      split
      · exact Nat.succ_pos _
      · exact hq
    rw [nearest, Int.sign_mul, Int.sign_natCast_of_ne_zero (hpos _).ne', mul_one, Int.sign_sign]

theorem nearest_neg_iff (x : ℤ) : nearest x < 0 ↔ x < 0 := by
  rw [← Int.sign_eq_neg_one_iff_neg, sign_nearest, Int.sign_eq_neg_one_iff_neg]

theorem nearest_eq_zero_iff (x : ℤ) : nearest x = 0 ↔ x = 0 := by
  rw [← Int.sign_eq_zero_iff_zero, sign_nearest, Int.sign_eq_zero_iff_zero]

/-! ### Bytes and items -/

theorem compareUint8Array_neg_iff (a b : Bytes) : compareUint8Array a b < 0 ↔ a < b := by
  induction a generalizing b with
  | nil => cases b <;> simp [compareUint8Array]
  | cons x a ih =>
    cases b with
    | nil => simp [compareUint8Array]
    | cons y b =>
      rw [compareUint8Array, List.cons_lt_cons_iff]
      by_cases hlt : x < y
      · simp [hlt]
      · by_cases hgt : y < x
        · have hne : x ≠ y := fun h => UInt8.lt_irrefl y (h ▸ hgt)
          simp [hlt, hgt, hne]
        · have heq : x = y := UInt8.le_antisymm (UInt8.not_lt.mp hgt) (UInt8.not_lt.mp hlt)
          simp [heq, ih]

theorem compareUint8Array_eq_zero_iff (a b : Bytes) : compareUint8Array a b = 0 ↔ a = b := by
  induction a generalizing b with
  | nil => cases b <;> simp [compareUint8Array]
  | cons x a ih =>
    cases b with
    | nil => simp [compareUint8Array]
    | cons y b =>
      rw [compareUint8Array, List.cons.injEq]
      by_cases hlt : x < y
      · have hne : x ≠ y := fun h => UInt8.lt_irrefl y (h ▸ hlt)
        simp [hlt, hne]
      · by_cases hgt : y < x
        · have hne : x ≠ y := fun h => UInt8.lt_irrefl y (h ▸ hgt)
          simp [hlt, hgt, hne]
        · have heq : x = y := UInt8.le_antisymm (UInt8.not_lt.mp hgt) (UInt8.not_lt.mp hlt)
          simp [heq, ih]

/-- Ascending in timestamp and id. -/
def Item.Before (a b : Item) : Prop := a.timestamp < b.timestamp ∨ a.timestamp = b.timestamp ∧ a.id < b.id

theorem itemCompare_neg_iff (a b : Item) : itemCompare a b < 0 ↔ a.Before b := by
  rw [itemCompare, Item.Before]
  split
  · next h =>
    rw [compareUint8Array_neg_iff]
    simp [h]
  · next h =>
    rw [nearest_neg_iff]
    simp only [h, false_and, or_false]
    omega

theorem itemCompare_eq_zero_iff (a b : Item) : itemCompare a b = 0 ↔ a = b := by
  obtain ⟨t, i⟩ := a
  obtain ⟨u, j⟩ := b
  rw [itemCompare, Item.mk.injEq]
  split
  · next h =>
    rw [compareUint8Array_eq_zero_iff]
    exact (and_iff_right h).symm
  · next h =>
    have hne : t ≠ u := h
    rw [nearest_eq_zero_iff]
    simp only [hne, false_and, iff_false]
    omega

theorem itemCompare_le_iff (a b : Item) : itemCompare a b ≤ 0 ↔ a.Before b ∨ a = b := by
  rw [← itemCompare_neg_iff, ← itemCompare_eq_zero_iff]
  omega

theorem Item.Before.trans {a b c : Item} (hab : a.Before b) (hbc : b.Before c) : a.Before c := by
  rcases hab with hab | ⟨hab, hab'⟩ <;> rcases hbc with hbc | ⟨hbc, hbc'⟩
  · exact .inl (hab.trans hbc)
  · exact .inl (hbc ▸ hab)
  · exact .inl (hab ▸ hbc)
  · exact .inr ⟨hab.trans hbc, List.lt_trans hab' hbc'⟩

theorem Item.Before.irrefl (a : Item) : ¬ a.Before a := by
  intro h
  rcases h with h | ⟨-, h⟩
  · exact lt_irrefl _ h
  · exact List.lt_irrefl _ h

theorem Item.before_total (a b : Item) : a.Before b ∨ a = b ∨ b.Before a := by
  rcases lt_trichotomy a.timestamp b.timestamp with h | h | h
  · exact .inl (.inl h)
  · by_cases hlt : a.id < b.id
    · exact .inl (.inr ⟨h, hlt⟩)
    · by_cases hgt : b.id < a.id
      · exact .inr (.inr (.inr ⟨h.symm, hgt⟩))
      · have hid : a.id = b.id := List.le_antisymm (List.not_lt.mp hgt) (List.not_lt.mp hlt)
        obtain ⟨t, i⟩ := a
        obtain ⟨u, j⟩ := b
        exact .inr (.inl (Item.mk.injEq _ _ _ _ ▸ ⟨h, hid⟩))
  · exact .inr (.inr (.inl h))

/-- What `sort(itemCompare)` leaves. -/
theorem sort_sorted (items : List Item) :
    (items.mergeSort (fun a b => itemCompare a b ≤ 0)).Pairwise (fun a b => a.Before b ∨ a = b) := by
  have hsorted := @List.pairwise_mergeSort _ (fun a b => decide (itemCompare a b ≤ 0)) (fun a b c hab hbc => by
    rw [decide_eq_true_iff, itemCompare_le_iff] at *
    rcases hab with hab | rfl
    · rcases hbc with hbc | rfl
      · exact .inl (hab.trans hbc)
      · exact .inl hab
    · exact hbc) (fun a b => by
    simp only [Bool.or_eq_true, decide_eq_true_iff, itemCompare_le_iff]
    rcases Item.before_total a b with h | rfl | h
    · exact .inl (.inl h)
    · exact .inl (.inr rfl)
    · exact .inr (.inl h)) items
  exact hsorted.imp fun h => (itemCompare_le_iff _ _).mp (of_decide_eq_true h)

end NE.Js
