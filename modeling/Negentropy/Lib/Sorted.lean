import Mathlib.Data.List.TakeWhile
import Mathlib.Data.List.Pairwise
import Mathlib.Order.Lattice
import Mathlib.Tactic.Common

/-! Windows of a sorted list. A window can be named by two positions (`slice`) or by two
bounds (`within`), and the lower bounds of the two bounds translate the one into
the other. -/

namespace Sorted

variable {α : Type}

/-- The elements at positions `b .. e - 1`. -/
def slice (xs : List α) (b e : ℕ) : List α := (xs.drop b).take (e - b)

theorem slice_eq_drop_take (xs : List α) (b e : ℕ) : slice xs b e = (xs.take e).drop b := by
  rw [slice, List.drop_take]

@[simp] theorem slice_self (xs : List α) (b : ℕ) : slice xs b b = [] := by simp [slice]

theorem slice_length (xs : List α) {b e : ℕ} (he : e ≤ xs.length) : (slice xs b e).length = e - b := by
  simp [slice]
  omega

theorem slice_append (xs : List α) {a b c : ℕ} (hab : a ≤ b) (hbc : b ≤ c) :
    slice xs a b ++ slice xs b c = slice xs a c := by
  have hdrop : xs.drop b = (xs.drop a).drop (b - a) := by
    rw [List.drop_drop]
    congr 1
    omega
  rw [slice, slice, slice, hdrop, show c - a = (b - a) + (c - b) by omega, List.take_add]

theorem slice_full (xs : List α) : slice xs 0 xs.length = xs := by simp [slice]

/-- A window of a window. -/
theorem slice_slice (xs : List α) {l u b e : ℕ} (h : l + e ≤ u) : slice (slice xs l u) b e = slice xs (l + b) (l + e) := by
  rw [slice, slice, slice, List.drop_take, List.drop_drop, List.take_take, Nat.min_eq_left (by omega)]
  congr 1
  omega

theorem getElem_slice (xs : List α) {b e i : ℕ} (hi : i < (slice xs b e).length) (hbi : b + i < xs.length) :
    (slice xs b e)[i] = xs[b + i] := by
  simp [slice]

theorem getD_slice (xs : List α) {b e i : ℕ} (hi : b + i < e) (d : α) : (slice xs b e).getD i d = xs.getD (b + i) d := by
  have h : i < e - b := by omega
  simp [slice, List.getD_eq_getElem?_getD, h]

theorem take_slice (xs : List α) {b e k : ℕ} (h : b + k ≤ e) : (slice xs b e).take k = slice xs b (b + k) := by
  rw [slice, slice, List.take_take, Nat.min_eq_left (by omega), Nat.add_sub_cancel_left]

theorem mem_slice_iff {xs : List α} {b e : ℕ} {x : α} (he : e ≤ xs.length) :
    x ∈ slice xs b e ↔ ∃ i, ∃ h : i < xs.length, b ≤ i ∧ i < e ∧ xs[i] = x := by
  have hlen := slice_length xs he (b := b)
  rw [List.mem_iff_getElem]
  constructor
  · rintro ⟨i, hi, rfl⟩
    have hbi : b + i < xs.length := by omega
    exact ⟨b + i, hbi, by omega, by omega, (getElem_slice xs hi hbi).symm⟩
  · rintro ⟨i, h, hbi, hie, rfl⟩
    have hi : i - b < (slice xs b e).length := by omega
    refine ⟨i - b, hi, ?_⟩
    rw [getElem_slice xs hi (by omega)]
    congr 1
    omega

variable [LinearOrder α]

/-- The number of leading elements below `k`. -/
def lowerBound (xs : List α) (k : α) : ℕ := (xs.takeWhile (· < k)).length

/-- The elements from `l` on and below `u`. -/
def within (xs : List α) (l u : α) : List α := xs.filter (fun x => decide (l ≤ x) && decide (x < u))

theorem mem_within {xs : List α} {l u x : α} : x ∈ within xs l u ↔ x ∈ xs ∧ l ≤ x ∧ x < u := by
  simp [within]

theorem within_empty {xs : List α} {l u : α} (h : u ≤ l) : within xs l u = [] := by
  rw [within, List.filter_eq_nil_iff]
  intro x _ hx
  simp only [Bool.and_eq_true, decide_eq_true_eq] at hx
  exact absurd (lt_of_le_of_lt hx.1 hx.2) (not_lt_of_ge h)

theorem lowerBound_le_length (xs : List α) (k : α) : lowerBound xs k ≤ xs.length :=
  (List.takeWhile_prefix _).length_le

/-- Elements below `k` in front are counted. -/
theorem lowerBound_append_right {A B : List α} {k : α} (hA : ∀ x ∈ A, x < k) :
    lowerBound (A ++ B) k = A.length + lowerBound B k := by
  rw [lowerBound, List.takeWhile_append_of_pos (by simpa using hA), List.length_append, lowerBound]

/-- Elements from `k` on behind are not. -/
theorem lowerBound_append_left {A B : List α} {k : α} (hB : ∀ x ∈ B, k ≤ x) : lowerBound (A ++ B) k = lowerBound A k := by
  induction A with
  | nil =>
    cases B with
    | nil => rfl
    | cons b B => simp [lowerBound, hB b List.mem_cons_self]
  | cons a A ih =>
    by_cases ha : a < k <;> simp [lowerBound, ha] at ih ⊢
    exact ih

theorem lt_of_mem_take {xs : List α} {k x : α} (h : x ∈ xs.take (lowerBound xs k)) : x < k := by
  have hpre : xs.take (lowerBound xs k) = xs.takeWhile (· < k) := by
    conv_lhs => rw [← List.takeWhile_append_dropWhile (p := (· < k)) (l := xs)]
    rw [lowerBound, List.takeWhile_append_dropWhile]
    exact (List.prefix_iff_eq_take.mp (List.takeWhile_prefix _)).symm
  rw [hpre] at h
  simpa using List.mem_takeWhile_imp h

theorem le_of_mem_drop {xs : List α} (hs : xs.Pairwise (· < ·)) {k x : α}
    (h : x ∈ xs.drop (lowerBound xs k)) : k ≤ x := by
  induction xs with
  | nil => simp at h
  | cons y xs ih =>
    rw [List.pairwise_cons] at hs
    by_cases hy : y < k
    · have hlb : lowerBound (y :: xs) k = lowerBound xs k + 1 := by simp [lowerBound, hy]
      rw [hlb, List.drop_succ_cons] at h
      exact ih hs.2 h
    · have hlb : lowerBound (y :: xs) k = 0 := by simp [lowerBound, hy]
      rw [hlb, List.drop_zero, List.mem_cons] at h
      rcases h with rfl | h
      · exact not_lt.mp hy
      · exact (not_lt.mp hy).trans (hs.1 x h).le

section Positions
variable {xs : List α} (hs : xs.Pairwise (· < ·))
include hs

theorem lt_lowerBound_iff {k : α} {i : ℕ} (hi : i < xs.length) : i < lowerBound xs k ↔ xs[i] < k := by
  constructor
  · intro h
    apply lt_of_mem_take
    rw [List.mem_take_iff_getElem]
    exact ⟨i, by omega, rfl⟩
  · intro h
    by_contra hge
    have hmem : xs[i] ∈ xs.drop (lowerBound xs k) := by
      rw [List.mem_drop_iff_getElem]
      exact ⟨i - lowerBound xs k, by omega, by congr 1; omega⟩
    exact absurd h (not_lt_of_ge (le_of_mem_drop hs hmem))

theorem lowerBound_le_iff {k : α} {i : ℕ} (hi : i < xs.length) : lowerBound xs k ≤ i ↔ k ≤ xs[i] := by
  rw [← not_lt, lt_lowerBound_iff hs hi, not_lt]

theorem lowerBound_mono {k k' : α} (h : k ≤ k') : lowerBound xs k ≤ lowerBound xs k' := by
  by_contra hlt
  have hi : lowerBound xs k' < xs.length := lt_of_lt_of_le (not_le.mp hlt) (lowerBound_le_length xs k)
  have h1 := (lt_lowerBound_iff hs hi).mp (not_le.mp hlt)
  have h2 := (lowerBound_le_iff hs hi).mp le_rfl
  exact absurd (lt_of_lt_of_le h1 h) (not_lt_of_ge h2)

/-- The place of a bound between two neighbours. -/
theorem lowerBound_eq {k : α} {i : ℕ} (hi : i ≤ xs.length) (hlow : ∀ h : 0 < i, xs[i - 1] < k)
    (hhigh : ∀ h : i < xs.length, k ≤ xs[i]) : lowerBound xs k = i := by
  apply le_antisymm
  · by_cases h : i < xs.length
    · exact (lowerBound_le_iff hs h).mpr (hhigh h)
    · have := lowerBound_le_length xs k
      omega
  · by_cases h : 0 < i
    · have := (lt_lowerBound_iff hs (show i - 1 < xs.length by omega)).mpr (hlow h)
      omega
    · omega

/-- The elements between two bounds are those between their two positions. -/
theorem slice_lowerBound {l u : α} (h : l ≤ u) :
    slice xs (lowerBound xs l) (lowerBound xs u) = within xs l u := by
  set a := lowerBound xs l with ha
  set c := lowerBound xs u with hc
  have hac : a ≤ c := lowerBound_mono hs h
  have hsplit : xs = xs.take a ++ (slice xs a c ++ xs.drop c) := by
    have hd : slice xs a c ++ xs.drop c = xs.drop a := by
      rw [slice, show xs.drop c = (xs.drop a).drop (c - a) by
        rw [List.drop_drop]; congr 1; omega, List.take_append_drop]
    rw [hd, List.take_append_drop]
  have h1 : within (xs.take a) l u = [] := by
    rw [within, List.filter_eq_nil_iff]
    intro x hx hp
    simp only [Bool.and_eq_true, decide_eq_true_eq] at hp
    exact absurd (lt_of_mem_take hx) (not_lt_of_ge hp.1)
  have h2 : within (slice xs a c) l u = slice xs a c := by
    rw [within, List.filter_eq_self]
    intro x hx
    have hl : l ≤ x := le_of_mem_drop hs (List.mem_of_mem_take hx)
    have hu : x < u := by
      rw [slice_eq_drop_take] at hx
      exact lt_of_mem_take (List.mem_of_mem_drop hx)
    simp [hl, hu]
  have h3 : within (xs.drop c) l u = [] := by
    rw [within, List.filter_eq_nil_iff]
    intro x hx hp
    simp only [Bool.and_eq_true, decide_eq_true_eq] at hp
    exact absurd hp.2 (not_lt_of_ge (le_of_mem_drop hs hx))
  conv_rhs => rw [hsplit]
  rw [within, List.filter_append, List.filter_append]
  rw [within] at h1 h2 h3
  rw [h1, h2, h3, List.nil_append, List.append_nil]

theorem lowerBound_eq_zero {k : α} (h : ∀ x ∈ xs, k ≤ x) : lowerBound xs k = 0 :=
  lowerBound_eq hs (Nat.zero_le _) (fun h0 => absurd h0 (lt_irrefl 0)) (fun _ => h _ (List.getElem_mem _))

theorem lowerBound_eq_length {k : α} (h : ∀ x ∈ xs, x < k) : lowerBound xs k = xs.length :=
  lowerBound_eq hs le_rfl (fun _ => h _ (List.getElem_mem _)) (fun h0 => absurd h0 (lt_irrefl _))

/-- The lower bound in a window is that in the whole list, moved into the window. -/
theorem lowerBound_slice {k : α} {b e : ℕ} (hbe : b ≤ e) (he : e ≤ xs.length) :
    b + lowerBound (slice xs b e) k = max b (min (lowerBound xs k) e) := by
  have hlen := slice_length xs he (b := b)
  have hsl : (slice xs b e).Pairwise (· < ·) := hs.sublist ((List.take_sublist _ _).trans (List.drop_sublist _ _))
  have key : lowerBound (slice xs b e) k = max b (min (lowerBound xs k) e) - b := by
    refine lowerBound_eq hsl (by omega) (fun h => ?_) (fun h => ?_)
    · rw [getElem_slice xs (by omega) (by omega), ← lt_lowerBound_iff hs (by omega)]
      omega
    · rw [getElem_slice xs h (by omega), ← lowerBound_le_iff hs (by omega)]
      omega
  omega

end Positions

end Sorted
