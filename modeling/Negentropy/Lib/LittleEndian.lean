import Mathlib.Data.Nat.Digits.Lemmas
import Mathlib.Tactic.Ring

/-! Byte strings read as numbers, least significant byte first. -/

namespace LittleEndian

/-- The number a byte string spells. -/
def value (bs : List UInt8) : ℕ := Nat.ofDigits 256 (bs.map UInt8.toNat)

@[simp] theorem value_nil : value [] = 0 := rfl

@[simp] theorem value_cons (b : UInt8) (bs : List UInt8) : value (b :: bs) = b.toNat + 256 * value bs := by
  simp [value, Nat.ofDigits_cons]

theorem value_append (as bs : List UInt8) : value (as ++ bs) = value as + 256 ^ as.length * value bs := by
  simp [value, Nat.ofDigits_append]

theorem digit_lt {bs : List UInt8} {d : ℕ} (h : d ∈ bs.map UInt8.toNat) : d < 256 := by
  obtain ⟨b, -, rfl⟩ := List.mem_map.mp h
  exact b.toNat_lt

theorem value_lt (bs : List UInt8) : value bs < 256 ^ bs.length := by
  have h := Nat.ofDigits_lt_base_pow_length (b := 256) (by norm_num) (fun d (hd : d ∈ bs.map UInt8.toNat) => digit_lt hd)
  simpa [value] using h

/-- Byte strings of one length that spell the same number are the same. -/
theorem value_inj {as bs : List UInt8} (hlen : as.length = bs.length) (h : value as = value bs) : as = bs := by
  have hd := Nat.ofDigits_inj_of_len_eq (b := 256) (by norm_num) (by simpa using hlen)
    (fun _ ha => digit_lt ha) (fun _ hb => digit_lt hb) h
  exact List.map_injective_iff.mpr (fun _ _ => UInt8.toNat_inj.mp) hd

theorem value_take_add_drop (bs : List UInt8) {n : ℕ} (hn : n ≤ bs.length) :
    value bs = value (bs.take n) + 256 ^ n * value (bs.drop n) := by
  conv_lhs => rw [← List.take_append_drop n bs, value_append]
  rw [List.length_take, Nat.min_eq_left hn]

@[simp] theorem value_replicate_zero (n : ℕ) : value (List.replicate n 0) = 0 := by
  induction n with
  | zero => rfl
  | succ n ih => simp [List.replicate_succ, ih]

theorem toNat_not (b : UInt8) : (~~~ b).toNat = 255 - b.toNat := by
  rw [UInt8.toNat_not]
  rfl

/-- The complement of every byte. -/
theorem value_not (bs : List UInt8) : value (bs.map (~~~ ·)) + value bs + 1 = 256 ^ bs.length := by
  induction bs with
  | nil => rfl
  | cons b bs ih =>
    have hb := b.toNat_lt
    simp only [List.map_cons, value_cons, toNat_not, List.length_cons, pow_succ]
    omega

end LittleEndian
