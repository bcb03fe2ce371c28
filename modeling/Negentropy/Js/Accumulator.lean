import Negentropy.Accumulator
import Negentropy.Js.Storage

/-! The two accumulators side by side. Both add in the integers mod 2^256; the negation in
JavaScript writes each limb the other way round. -/

namespace NE.Js

open LittleEndian

/-! ### Words of four bytes -/

theorem toNat_toUint32 (v : ℤ) : (toUint32 v).toNat = (v % 2 ^ 32).toNat := by
  have h0 := Int.emod_nonneg v (show (2 ^ 32 : ℤ) ≠ 0 by decide)
  have hlt := Int.emod_lt_of_pos v (show (0 : ℤ) < 2 ^ 32 by decide)
  have hofNat : toUint32 v = UInt32.ofNat (v % 2 ^ 32).toNat := rfl
  rw [hofNat, UInt32.toNat_ofNat']
  omega

/-- Going through `ToInt32` does not change the low 32 bits. -/
theorem toUint32_toInt32 (v : ℤ) : toUint32 (toInt32 v).toInt = toUint32 v := by
  apply UInt32.toNat_inj.mp
  rw [toNat_toUint32, toNat_toUint32, toInt32, Int32.toInt_ofInt]
  congr 1
  exact Int.bmod_emod

theorem getUint32_eq (bs : Bytes) : getUint32 bs = value bs := by
  induction bs with
  | nil => rfl
  | cons b bs ih =>
    rw [value_cons, Nat.cast_add, Nat.cast_mul, ← ih]
    rfl

/-- The four bytes spell the low 32 bits. -/
theorem value_setUint32 (v : ℤ) : value (setUint32 v true) = (v % 2 ^ 32).toNat := by
  have hlt := (toUint32 v).toNat_lt
  have hbyte : ∀ k : ℕ, ((toUint32 v) >>> UInt32.ofNat (8 * k)).toUInt8.toNat =
      (toUint32 v).toNat / 2 ^ (8 * k % 32) % 256 := by
    intro k
    rw [UInt32.toNat_toUInt8, UInt32.toNat_shiftRight, UInt32.toNat_ofNat', Nat.shiftRight_eq_div_pow]
    have hmod : 8 * k % 2 ^ 32 % 32 = 8 * k % 32 := by omega
    rw [hmod]
  have h0 : (toUint32 v).toUInt8.toNat = (toUint32 v).toNat % 256 := UInt32.toNat_toUInt8 _
  have h1 : (toUint32 v >>> 8).toUInt8.toNat = (toUint32 v).toNat / 256 % 256 := hbyte 1
  have h2 : (toUint32 v >>> 16).toUInt8.toNat = (toUint32 v).toNat / 65536 % 256 := hbyte 2
  have h3 : (toUint32 v >>> 24).toUInt8.toNat = (toUint32 v).toNat / 16777216 % 256 := hbyte 3
  change value [(toUint32 v).toUInt8, (toUint32 v >>> 8).toUInt8, (toUint32 v >>> 16).toUInt8,
    (toUint32 v >>> 24).toUInt8] = _
  rw [← toNat_toUint32]
  simp only [value_cons, value_nil]
  rw [h0, h1, h2, h3]
  omega

/-! ### Addition -/

theorem addLimbs_value (limbs : ℕ) (carry : ℕ) (p po : Bytes) (hc : carry ≤ 1) (hp : p.length = 4 * limbs)
    (hpo : po.length = 4 * limbs) :
    value (Accumulator.addLimbs limbs carry p po) = (value p + value po + carry) % 2 ^ (32 * limbs) := by
  induction limbs generalizing carry p po with
  | zero => simp [Accumulator.addLimbs, Nat.mod_one]
  | succ limbs ih =>
    set a := value (p.take 4)
    set b := value (po.take 4)
    have ha : a < 2 ^ 32 := (value_lt _).trans_le (Nat.pow_le_pow_right (by norm_num) (by simp : (p.take 4).length ≤ 4))
    have hb : b < 2 ^ 32 := (value_lt _).trans_le (Nat.pow_le_pow_right (by norm_num) (by simp : (po.take 4).length ≤ 4))
    have hnext : getUint32 (p.take 4) + (carry : ℤ) + getUint32 (po.take 4) = ((a + b + carry : ℕ) : ℤ) := by
      rw [getUint32_eq, getUint32_eq]
      push_cast
      ring
    have hmask : toInt32 (a + b + carry : ℕ) &&& toInt32 0xFFFFFFFF = toInt32 (a + b + carry : ℕ) := Int32.and_neg_one
    have hlow : value (setUint32 (toInt32 (a + b + carry : ℕ)).toInt true) = (a + b + carry) % 2 ^ 32 := by
      rw [value_setUint32, ← toNat_toUint32, toUint32_toInt32, toNat_toUint32]
      omega
    have hcarry : (if ((a + b + carry : ℕ) : ℤ) > 0xFFFFFFFF then (1 : ℤ) else 0) = ((a + b + carry) / 2 ^ 32 : ℕ) := by
      split <;> omega
    have hrec := ih ((a + b + carry) / 2 ^ 32) (p.drop 4) (po.drop 4) (by omega) (by simp; omega) (by simp; omega)
    have hpow : 2 ^ (32 * (limbs + 1)) = 2 ^ 32 * 2 ^ (32 * limbs) := by
      rw [← pow_add]
      congr 1
      omega
    have h256 : (256 : ℕ) ^ 4 = 2 ^ 32 := by norm_num
    -- what is kept of this limb, then the carry with the limbs above
    have key : a + 256 ^ 4 * value (p.drop 4) + (b + 256 ^ 4 * value (po.drop 4)) + carry =
        (a + b + carry) % 2 ^ 32 + 2 ^ 32 * (value (p.drop 4) + value (po.drop 4) + (a + b + carry) / 2 ^ 32) := by
      have := Nat.mod_add_div (a + b + carry) (2 ^ 32)
      rw [h256]
      linarith only [this]
    rw [Accumulator.addLimbs]
    simp only [hnext, hmask, hcarry]
    rw [value_append, hlow, setUint32_length, hrec, value_take_add_drop p (n := 4) (by omega),
      value_take_add_drop po (n := 4) (by omega), key, hpow, Nat.mod_mul, Nat.add_mul_mod_self_left,
      Nat.add_mul_div_left _ _ (by norm_num), Nat.div_eq_of_lt (Nat.mod_lt _ (by norm_num)), Nat.mod_mod, h256,
      Nat.zero_add]

namespace Accumulator

/-- The same sum in limbs of either size. -/
theorem add_eq (a b : NE.Accumulator) : (add ⟨a.buf, a.length_eq⟩ b.buf).buf = (a.add b).buf := by
  apply value_inj
  · rw [(add ⟨a.buf, a.length_eq⟩ b.buf).length_eq, (a.add b).length_eq]
  · have hjs := addLimbs_value 8 0 a.buf b.buf (Nat.zero_le 1) a.length_eq b.length_eq
    rw [Nat.add_zero] at hjs
    exact hjs.trans (NE.Accumulator.toNat_add a b).symm

end Accumulator

/-! ### Negation -/

/-- Each group of four bytes written backwards. -/
def swapLimbs : ℕ → Bytes → Bytes
  | 0, _ => []
  | limbs + 1, p => (p.take 4).reverse ++ swapLimbs limbs (p.drop 4)

theorem swapLimbs_map (f : UInt8 → UInt8) (limbs : ℕ) (p : Bytes) :
    swapLimbs limbs (p.map f) = (swapLimbs limbs p).map f := by
  induction limbs generalizing p with
  | zero => rfl
  | succ limbs ih => simp only [swapLimbs, ← List.map_take, ← List.map_drop, ih, List.map_reverse, List.map_append]

/-- The complement of a limb, written without the byte order it was read in. -/
theorem setUint32_not {bs : Bytes} (h : bs.length = 4) :
    setUint32 (~~~ toInt32 (getUint32 bs)).toInt false = (bs.map (~~~ ·)).reverse := by
  have hrev : setUint32 (~~~ toInt32 (getUint32 bs)).toInt false =
      (setUint32 (~~~ toInt32 (getUint32 bs)).toInt true).reverse := rfl
  have hlt := value_lt bs
  have hnot := value_not bs
  rw [h] at hlt hnot
  rw [hrev]
  congr 1
  apply value_inj
  · rw [setUint32_length, List.length_map, h]
  · have hmod : ((-(toInt32 (getUint32 bs)).toInt - 1).bmod (2 ^ 32)) % 2 ^ 32 = (-(value bs : ℤ) - 1) % 2 ^ 32 := by
      have hv : (toInt32 (getUint32 bs)).toInt = (value bs : ℤ).bmod (2 ^ 32) := by
        rw [getUint32_eq]
        exact Int32.toInt_ofInt
      have h1 := Int.bmod_emod (x := -(toInt32 (getUint32 bs)).toInt - 1) (m := 2 ^ 32)
      have h2 := Int.bmod_emod (x := (value bs : ℤ)) (m := 2 ^ 32)
      rw [← hv] at h2
      omega
    rw [value_setUint32, Int32.toInt_not, hmod]
    omega

theorem negateLimbs_eq (limbs : ℕ) (p : Bytes) (h : p.length = 4 * limbs) :
    Accumulator.negateLimbs limbs p = swapLimbs limbs (p.map (~~~ ·)) := by
  induction limbs generalizing p with
  | zero => rfl
  | succ limbs ih =>
    rw [Accumulator.negateLimbs, swapLimbs, setUint32_not (by simp; omega), ih _ (by simp; omega), List.map_take,
      List.map_drop]

theorem swapLimbs_length (limbs : ℕ) (p : Bytes) (h : p.length = 4 * limbs) : (swapLimbs limbs p).length = 4 * limbs := by
  induction limbs generalizing p with
  | zero => rfl
  | succ limbs ih =>
    rw [swapLimbs, List.length_append, List.length_reverse, List.length_take, ih _ (by simp; omega)]
    omega

/-- The two agree in adding, and in negating and what follows from it exactly where every limb reads the same
backwards. -/
theorem accumulator_agrees_iff (a b : NE.Accumulator) :
    let js : Accumulator := ⟨a.buf, a.length_eq⟩
    ((js.add b.buf).buf = (a.add b).buf ∧ js.negate.buf = a.negate.buf ∧
        (js.add js.negate.buf).buf = NE.Accumulator.setToZero.buf) ↔ swapLimbs 8 a.buf = a.buf := by
  intro js
  have hlen : a.buf.length = 4 * 8 := a.length_eq
  set one : NE.Accumulator := ⟨1 :: List.replicate 31 0, rfl⟩ with hone
  set swapped : NE.Accumulator := ⟨swapLimbs 8 (a.buf.map (~~~ ·)), swapLimbs_length 8 _ (by rw [List.length_map, hlen])⟩
    with hswapped
  set flipped : NE.Accumulator := ⟨a.buf.map (~~~ ·), by rw [List.length_map, a.length_eq]⟩ with hflipped
  have hjs : js.negate.buf = (swapped.add one).buf := by
    rw [← Accumulator.add_eq]
    simp only [js, Accumulator.negate, negateLimbs_eq 8 a.buf hlen, hswapped, hone]
  have hneg : js.negate.buf = a.negate.buf ↔ swapLimbs 8 a.buf = a.buf := by
    have hcpp : a.negate = flipped.add one := rfl
    rw [hjs, hcpp, ← NE.Accumulator.ext_iff, NE.Accumulator.add_eq, NE.Accumulator.add_eq, add_left_inj,
      NE.Accumulator.ext_iff]
    change swapLimbs 8 (a.buf.map (~~~ ·)) = a.buf.map (~~~ ·) ↔ _
    rw [swapLimbs_map]
    have hinj : Function.Injective (fun x : UInt8 => ~~~ x) := fun x y h => by simpa using h
    exact (List.map_injective_iff.mpr hinj).eq_iff
  have hzero : (js.add js.negate.buf).buf = NE.Accumulator.setToZero.buf ↔ js.negate.buf = a.negate.buf := by
    rw [hjs, Accumulator.add_eq, ← NE.Accumulator.ext_iff, ← NE.Accumulator.ext_iff, NE.Accumulator.add_eq,
      NE.Accumulator.setToZero_eq, NE.Accumulator.negate_eq, eq_neg_iff_add_eq_zero, add_comm]
  rw [hzero, and_self_iff, hneg]
  exact and_iff_right (Accumulator.add_eq a b)

/-- The number one. -/
theorem accumulator_negate_one :
    let a : NE.Accumulator := ⟨1 :: List.replicate 31 0, rfl⟩
    let js : Accumulator := ⟨1 :: List.replicate 31 0, rfl⟩
    js.negate.buf ≠ a.negate.buf ∧ (js.add js.negate.buf).buf ≠ NE.Accumulator.setToZero.buf := by
  decide +kernel

end NE.Js
