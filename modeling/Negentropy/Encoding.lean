import Mathlib.Algebra.Group.Nat.Defs
import Mathlib.Data.Nat.Notation
import Mathlib.Tactic.Common

/-! The byte-level reader and writer of `encoding.h`, and the round trip of the
varint: any 64-bit value, followed by any bytes. -/

namespace NE

abbrev Bytes := List UInt8

/-- What a call ends in when it does not return: a `negentropy::err` with its
text, the `std::out_of_range` of `vector::at`, or the undefined behaviour of
following a null node pointer. -/
inductive Err where
  | err (msg : String)
  | outOfRange
  | nullDeref
  deriving DecidableEq, Repr

def getByte (encoded : Bytes) : Except Err (UInt8 × Bytes) :=
  match encoded with
  | [] => .error (.err "parse ends prematurely")
  | b :: rest => .ok (b, rest)

def getBytes (encoded : Bytes) (n : ℕ) : Except Err (Bytes × Bytes) :=
  if encoded.length < n then .error (.err "parse ends prematurely")
  else .ok (encoded.take n, encoded.drop n)

/-- The loop of `decodeVarInt` with `res` accumulated so far. -/
def decodeVarIntFrom (res : UInt64) : Bytes → Except Err (UInt64 × Bytes)
  | [] => .error (.err "premature end of varint")
  | byte :: encoded =>
      let res := (res <<< 7) ||| (byte &&& 0x7F).toUInt64
      if byte &&& 0x80 = 0 then .ok (res, encoded) else decodeVarIntFrom res encoded

def decodeVarInt (encoded : Bytes) : Except Err (UInt64 × Bytes) := decodeVarIntFrom 0 encoded

/-- The digits `encodeVarInt` pushes, least significant first. A 64-bit value has
at most ten. -/
def varIntDigits : ℕ → UInt64 → Bytes
  | 0, _ => []
  | rounds + 1, n =>
      if n = 0 then [] else (n &&& 0x7F).toUInt8 :: varIntDigits rounds (n >>> 7)

def encodeVarInt (n : UInt64) : Bytes :=
  if n = 0 then [0]
  else
    let o := (varIntDigits 10 n).reverse
    o.dropLast.map (· ||| 0x80) ++ o.getLast?.toList

/-! ### The reader -/

theorem getBytes_append (xs rest : Bytes) : getBytes (xs ++ rest) xs.length = .ok (xs, rest) := by
  simp [getBytes]

theorem getBytes_ok {encoded xs rest : Bytes} {n : ℕ} (h : getBytes encoded n = .ok (xs, rest)) :
    encoded = xs ++ rest ∧ xs.length = n := by
  unfold getBytes at h
  split at h
  · cases h
  · cases h
    exact ⟨(List.take_append_drop n encoded).symm, by simp; omega⟩

theorem decodeVarIntFrom_length {res n : UInt64} {encoded rest : Bytes}
    (h : decodeVarIntFrom res encoded = .ok (n, rest)) : rest.length < encoded.length := by
  induction encoded generalizing res with
  | nil => cases h
  | cons byte encoded ih =>
    simp only [decodeVarIntFrom] at h
    split at h
    · cases h
      simp
    · have := ih h
      simp only [List.length_cons]
      omega

theorem decodeVarInt_length {n : UInt64} {encoded rest : Bytes}
    (h : decodeVarInt encoded = .ok (n, rest)) : rest.length < encoded.length :=
  decodeVarIntFrom_length h

/-! ### The writer -/

theorem toNat_low7 (n : UInt64) : (n &&& 0x7F).toUInt8.toNat = n.toNat % 128 := by
  have h : (n &&& 0x7F).toNat = n.toNat % 128 := by
    rw [UInt64.toNat_and]
    exact Nat.and_two_pow_sub_one_eq_mod n.toNat 7
  rw [UInt64.toNat_toUInt8, h]
  omega

theorem toNat_shiftRight7 (n : UInt64) : (n >>> 7).toNat = n.toNat / 128 := by
  rw [UInt64.toNat_shiftRight]
  exact Nat.shiftRight_eq_div_pow n.toNat 7

/-- A digit has the continuation bit clear, and setting that bit leaves the digit. -/
theorem digit_bits (n : UInt64) (d : UInt8) (hd : d = (n &&& 0x7F).toUInt8) :
    d &&& 0x80 = 0 ∧ (d ||| 0x80) &&& 0x80 ≠ 0 ∧ d &&& 0x7F = d ∧ (d ||| 0x80) &&& 0x7F = d := by
  have hlt : d.toNat < 128 := by
    rw [hd, toNat_low7]
    omega
  have key : ∀ i : Fin 128, UInt8.ofNat i.val &&& 0x80 = 0 ∧ (UInt8.ofNat i.val ||| 0x80) &&& 0x80 ≠ 0 ∧
      UInt8.ofNat i.val &&& 0x7F = UInt8.ofNat i.val ∧
      (UInt8.ofNat i.val ||| 0x80) &&& 0x7F = UInt8.ofNat i.val := by
    decide +kernel
  have := key ⟨d.toNat, hlt⟩
  simpa using this

/-- Shifting the higher digits up and adding the lowest one restores the value. -/
theorem shift_or_digit (n : UInt64) : ((n >>> 7) <<< 7) ||| (n &&& 0x7F).toUInt8.toUInt64 = n := by
  apply UInt64.toNat_inj.mp
  rw [UInt64.toNat_or, UInt64.toNat_shiftLeft, UInt8.toNat_toUInt64, toNat_low7, toNat_shiftRight7]
  have hlt := n.toNat_lt
  have h7 : (7 : UInt64).toNat % 64 = 7 := rfl
  rw [h7, Nat.shiftLeft_eq, Nat.mod_eq_of_lt (by omega), Nat.mul_comm,
    ← Nat.two_pow_add_eq_or_of_lt (by omega)]
  omega

/-- Reading all digits of `n` with their continuation bits set accumulates `n`. -/
theorem decodeVarIntFrom_digits (rounds : ℕ) (n : UInt64) (hn : n.toNat < 128 ^ rounds) (rest : Bytes) :
    decodeVarIntFrom 0 ((varIntDigits rounds n).reverse.map (· ||| 0x80) ++ rest) =
      decodeVarIntFrom n rest := by
  induction rounds generalizing n rest with
  | zero =>
    have : n = 0 := UInt64.toNat_inj.mp (by simpa using hn)
    subst this
    rfl
  | succ rounds ih =>
    unfold varIntDigits
    split
    · next h => subst h; rfl
    · have hn' : (n >>> 7).toNat < 128 ^ rounds := by
        rw [toNat_shiftRight7]
        rw [Nat.pow_succ] at hn
        omega
      obtain ⟨-, hcont, -, hdigit⟩ := digit_bits n _ rfl
      rw [List.reverse_cons, List.map_append, List.append_assoc, ih _ hn', List.map_cons, List.map_nil,
        List.singleton_append, decodeVarIntFrom]
      simp only [hcont, if_false, hdigit, shift_or_digit]

/-- The bytes of a nonzero value: its higher digits flagged, then the lowest. -/
theorem encodeVarInt_eq {n : UInt64} (hn : n ≠ 0) :
    encodeVarInt n =
      (varIntDigits 9 (n >>> 7)).reverse.map (· ||| 0x80) ++ [(n &&& 0x7F).toUInt8] := by
  have h : varIntDigits 10 n = (n &&& 0x7F).toUInt8 :: varIntDigits 9 (n >>> 7) := by
    rw [varIntDigits, if_neg hn]
  simp [encodeVarInt, hn, h]

theorem decodeVarInt_encodeVarInt (n : UInt64) (rest : Bytes) :
    decodeVarInt (encodeVarInt n ++ rest) = .ok (n, rest) := by
  by_cases hn : n = 0
  · subst hn
    rfl
  · have hlt := n.toNat_lt
    obtain ⟨hlast, -, hdigit, -⟩ := digit_bits n _ rfl
    rw [encodeVarInt_eq hn, List.append_assoc, decodeVarInt,
      decodeVarIntFrom_digits 9 _ (by rw [toNat_shiftRight7]; omega), List.singleton_append, decodeVarIntFrom]
    simp only [hlast, if_true, hdigit, shift_or_digit]

theorem varIntDigits_length (rounds : ℕ) (n : UInt64) : (varIntDigits rounds n).length ≤ rounds := by
  induction rounds generalizing n with
  | zero => simp [varIntDigits]
  | succ rounds ih =>
    unfold varIntDigits
    split
    · simp
    · simpa using ih (n >>> 7)

/-- A varint is at most ten bytes long. -/
theorem encodeVarInt_length (n : UInt64) : (encodeVarInt n).length ≤ 10 := by
  by_cases hn : n = 0
  · subst hn
    decide
  · have := varIntDigits_length 9 (n >>> 7)
    rw [encodeVarInt_eq hn]
    simp
    omega

/-- A value below 128 is a single byte. -/
theorem encodeVarInt_length_one {n : UInt64} (h : n.toNat < 128) : (encodeVarInt n).length = 1 := by
  by_cases hn : n = 0
  · subst hn
    rfl
  · have hz : n >>> 7 = 0 := UInt64.toNat_inj.mp (by rw [toNat_shiftRight7]; simp; omega)
    rw [encodeVarInt_eq hn, hz]
    rfl

end NE
