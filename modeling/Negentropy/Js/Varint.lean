import Mathlib.Data.UInt
import Negentropy.Grammar
import Negentropy.Js.Progress

/-! The varints of JavaScript against those of C++. The writer drops all but the low 32 bits
of a number, and the reader takes the low 32 bits of what is written as a signed number. -/

namespace NE.Js

open Stateful

/-! ### The writer -/

/-- More rounds than digits change nothing. -/
theorem varIntDigits_rounds (rounds k : ℕ) (n : UInt64) (hn : n.toNat < 128 ^ rounds) :
    NE.varIntDigits (rounds + k) n = NE.varIntDigits rounds n := by
  induction rounds generalizing n with
  | zero =>
    obtain rfl : n = 0 := UInt64.toNat_inj.mp (by simpa using hn)
    cases k <;> rfl
  | succ rounds ih =>
    have hshift : (n >>> 7).toNat < 128 ^ rounds := by
      rw [toNat_shiftRight7]
      rw [Nat.pow_succ] at hn
      omega
    rw [Nat.add_right_comm, NE.varIntDigits, NE.varIntDigits, ih _ hshift]

theorem low7_toInt32 (n : ℕ) : (toInt32 n &&& 127).toUInt32.toUInt8.toNat = n % 128 := by
  have hbits : (toInt32 n &&& 127).toUInt32.toNat = (BitVec.ofInt 32 n &&& 127#32).toNat := rfl
  rw [UInt32.toNat_toUInt8, hbits, BitVec.toNat_and, BitVec.toNat_ofInt]
  have h127 : (127#32).toNat = 2 ^ 7 - 1 := rfl
  rw [h127, Nat.and_two_pow_sub_one_eq_mod]
  omega

theorem shift7_toUint32 (n : ℕ) : (toUint32 n >>> 7).toNat = n % 2 ^ 32 / 128 := by
  have h7 : (7 : UInt32).toNat % 32 = 7 := rfl
  have hofNat : (toUint32 n).toNat = n % 2 ^ 32 := by
    have heq : toUint32 n = UInt32.ofNat ((n : ℤ) % 2 ^ 32).toNat := rfl
    rw [heq, UInt32.toNat_ofNat']
    omega
  rw [UInt32.toNat_shiftRight, h7, hofNat, Nat.shiftRight_eq_div_pow]

theorem varIntDigits_eq (rounds n : ℕ) (hn : n < 2 ^ 32) :
    varIntDigits rounds n = NE.varIntDigits rounds (UInt64.ofNat n) := by
  induction rounds generalizing n with
  | zero => rfl
  | succ rounds ih =>
    have htoNat : (UInt64.ofNat n).toNat = n := by
      rw [UInt64.toNat_ofNat']
      omega
    by_cases h0 : n = 0
    · subst h0
      rfl
    · have hne : UInt64.ofNat n ≠ 0 := fun h => h0 (by rw [← htoNat, h]; rfl)
      have hdigit : (toInt32 n &&& 127).toUInt32.toUInt8 = (UInt64.ofNat n &&& 0x7F).toUInt8 := by
        apply UInt8.toNat_inj.mp
        rw [low7_toInt32, toNat_low7, htoNat]
      have hshift : UInt64.ofNat (n / 128) = UInt64.ofNat n >>> 7 := by
        apply UInt64.toNat_inj.mp
        rw [toNat_shiftRight7, htoNat, UInt64.toNat_ofNat']
        omega
      rw [varIntDigits, NE.varIntDigits, if_neg (by exact_mod_cast h0), if_neg hne, hdigit, shift7_toUint32,
        Nat.mod_eq_of_lt hn, ih (n / 128) (by omega), hshift]

/-- A number of 32 bits is written alike. -/
theorem encodeVarInt_eq (n : ℕ) (hn : n < 2 ^ 32) : encodeVarInt n = NE.encodeVarInt (UInt64.ofNat n) := by
  have htoNat : (UInt64.ofNat n).toNat = n := by
    rw [UInt64.toNat_ofNat']
    omega
  by_cases h0 : n = 0
  · subst h0
    rfl
  · have hne : UInt64.ofNat n ≠ 0 := fun h => h0 (by rw [← htoNat, h]; rfl)
    have hrounds := varIntDigits_rounds 5 5 (UInt64.ofNat n) (by rw [htoNat]; omega)
    simp only [encodeVarInt, NE.encodeVarInt, if_neg hne, if_neg (show ¬ (n : ℤ) = 0 by exact_mod_cast h0)]
    rw [varIntDigits_eq 5 n hn, ← hrounds]

/-- Of any number only the low 32 bits are written. -/
theorem encodeVarInt_mod (n : ℕ) : encodeVarInt n = encodeVarInt (n % 2 ^ 32 : ℕ) := by
  have hdigit : (toInt32 n &&& 127).toUInt32.toUInt8 = (toInt32 (n % 2 ^ 32 : ℕ) &&& 127).toUInt32.toUInt8 := by
    apply UInt8.toNat_inj.mp
    rw [low7_toInt32, low7_toInt32]
    omega
  have hshift : (toUint32 n >>> 7).toNat = (toUint32 (n % 2 ^ 32 : ℕ) >>> 7).toNat := by
    rw [shift7_toUint32, shift7_toUint32, Nat.mod_mod]
  by_cases h0 : n = 0
  · subst h0
    rfl
  · have hn : ¬ (n : ℤ) = 0 := by exact_mod_cast h0
    by_cases hmod : n % 2 ^ 32 = 0
    · have hzero : varIntDigits 5 n = [0] := by
        have hlow : (toInt32 n &&& 127).toUInt32.toUInt8 = 0 := by
          apply UInt8.toNat_inj.mp
          rw [low7_toInt32]
          simp
          omega
        have hnil : varIntDigits 4 ((toUint32 n >>> 7).toNat : ℕ) = [] := by
          rw [shift7_toUint32, hmod]
          rfl
        rw [varIntDigits, if_neg hn, hlow, hnil]
      rw [hmod]
      simp only [encodeVarInt, if_neg hn, hzero]
      rfl
    · have hmod' : ¬ ((n % 2 ^ 32 : ℕ) : ℤ) = 0 := by exact_mod_cast hmod
      have hstep : ∀ m : ℤ, ¬ m = 0 → varIntDigits 5 m =
          (toInt32 m &&& 127).toUInt32.toUInt8 :: varIntDigits 4 (toUint32 m >>> 7).toNat := fun m hm => if_neg hm
      simp only [encodeVarInt, if_neg hn, if_neg hmod']
      rw [hstep _ hn, hstep _ hmod', hdigit, hshift]

/-! ### The reader -/

/-- One digit, on the low 32 bits of a number. -/
theorem pushDigit_eq (n : ℕ) (b : UInt8) : pushDigit (toInt32 n) (some b) = toInt32 (128 * n + b.toNat % 128 : ℕ) := by
  apply Int32.toBitVec_inj.mp
  have h7 : ((7 : Int32).toBitVec.smod 32) = 7#32 := rfl
  have hpush : (pushDigit (toInt32 n) (some b)).toBitVec =
      (BitVec.ofInt 32 n <<< 7#32) ||| ((b &&& 127).toUInt32).toBitVec := by
    rw [pushDigit, Int32.toBitVec_or, Int32.toBitVec_shiftLeft, h7]
    rfl
  have hto : (toInt32 (128 * n + b.toNat % 128 : ℕ)).toBitVec = BitVec.ofInt 32 (128 * n + b.toNat % 128 : ℕ) := rfl
  have hlow : ((b &&& 127).toUInt32).toBitVec.toNat = b.toNat % 128 := by
    have : ((b &&& 127).toUInt32).toBitVec.toNat = (b &&& 127).toNat := UInt8.toNat_toUInt32 _
    rw [this, UInt8.toNat_and]
    exact Nat.and_two_pow_sub_one_eq_mod b.toNat 7
  have hshift : (BitVec.ofInt 32 n <<< 7#32).toNat = 2 ^ 7 * (n % 2 ^ 25) := by
    have heq : (BitVec.ofInt 32 n <<< 7#32) = BitVec.ofInt 32 n <<< 7 := rfl
    rw [heq, BitVec.toNat_shiftLeft, BitVec.toNat_ofInt, Nat.shiftLeft_eq]
    omega
  rw [hpush, hto]
  apply BitVec.eq_of_toNat_eq
  rw [BitVec.toNat_or, hlow, hshift, BitVec.toNat_ofInt, ← Nat.two_pow_add_eq_or_of_lt (by omega)]
  omega

/-- Both readers stop at the same byte, one with the low 64 bits, the other with the low 32. -/
theorem readInt32_eq (w : UInt64) (raw : Bytes) :
    readInt32 (toInt32 w.toNat) raw =
      (NE.decodeVarIntFrom w raw).toOption.map fun p => (toInt32 p.1.toNat, p.2) := by
  induction raw generalizing w with
  | nil => rfl
  | cons b raw ih =>
    have hpush : pushDigit (toInt32 w.toNat) (some b) =
        toInt32 ((w <<< 7) ||| (b &&& 0x7F).toUInt64).toNat := by
      rw [pushDigit_eq, shift_digit]
      apply Int32.toBitVec_inj.mp
      change BitVec.ofInt 32 _ = BitVec.ofInt 32 _
      apply BitVec.eq_of_toNat_eq
      rw [BitVec.toNat_ofInt, BitVec.toNat_ofInt]
      omega
    rw [readInt32, NE.decodeVarIntFrom, hpush]
    by_cases hflag : b &&& 128 = 0
    · rw [if_pos hflag, if_pos hflag]
      rfl
    · rw [if_neg hflag, if_neg hflag]
      exact ih _

theorem readInt32_encodeVarInt (n : ℕ) (rest : Bytes) :
    readInt32 0 (encodeVarInt n ++ rest) = some (toInt32 (n % 2 ^ 32 : ℕ), rest) := by
  have htoNat : (UInt64.ofNat (n % 2 ^ 32)).toNat = n % 2 ^ 32 := by
    rw [UInt64.toNat_ofNat']
    omega
  have hread := readInt32_eq 0 (NE.encodeVarInt (UInt64.ofNat (n % 2 ^ 32)) ++ rest)
  have hdec : NE.decodeVarIntFrom 0 (NE.encodeVarInt (UInt64.ofNat (n % 2 ^ 32)) ++ rest) = _ :=
    NE.decodeVarInt_encodeVarInt (UInt64.ofNat (n % 2 ^ 32)) rest
  rw [hdec, Except.toOption, Option.map_some, htoNat] at hread
  rw [encodeVarInt_mod, encodeVarInt_eq _ (Nat.mod_lt _ (by decide))]
  exact hread

/-! ### Across the wire -/

/-- A number that is written as C++ writes it has 32 bits. -/
theorem encodeVarInt_eq_iff (n : ℕ) (hn : n < 2 ^ 64) :
    encodeVarInt n = NE.encodeVarInt (UInt64.ofNat n) ↔ n < 2 ^ 32 := by
  constructor
  · intro h
    rw [encodeVarInt_mod, encodeVarInt_eq _ (Nat.mod_lt _ (by decide))] at h
    have hleft := NE.decodeVarInt_encodeVarInt (UInt64.ofNat (n % 2 ^ 32)) []
    rw [h, NE.decodeVarInt_encodeVarInt] at hleft
    have hnat := congrArg UInt64.toNat (Prod.mk.inj (Except.ok.inj hleft)).1
    rw [UInt64.toNat_ofNat', UInt64.toNat_ofNat'] at hnat
    omega
  · exact encodeVarInt_eq n

/-- A number survives the wire exactly when it is not negative as a signed number of 32 bits. -/
theorem varint_survives_iff {σ : Type} (ne : Negentropy σ) (n : ℕ) (hn : n ≤ 2 ^ 53 - 1) (t : Bytes)
    (buffer : Uint8Array) (hbuffer : buffer.bytes = encodeVarInt n ++ t) :
    (encodeVarInt n = NE.encodeVarInt (UInt64.ofNat n) ∧
      ∃ s, decodeVarInt { ne, query := .ofArray buffer } = .ok (n : ℤ) s ∧ s.query = ⟨t, t.length⟩) ↔ n < 2 ^ 31 := by
  have hstart : Sound buffer.bytes { ne, query := .ofArray buffer } := ⟨List.suffix_rfl, rfl, by simp⟩
  have hread : readInt32 0 buffer.bytes = some (toInt32 (n % 2 ^ 32 : ℕ), t) := by
    rw [hbuffer]
    exact readInt32_encodeVarInt n t
  obtain ⟨s, hok, hquery⟩ : ∃ s, decodeVarInt { ne, query := .ofArray buffer } = .ok (toInt32 (n % 2 ^ 32 : ℕ)).toInt s ∧
      s.query = ⟨t, t.length⟩ := by
    rcases decodeVarInt_reads buffer.length_lt hstart with ⟨hnone, -⟩ | ⟨v, s, hsome, hok, hs, -⟩
    · exact absurd (hnone.symm.trans hread) (by simp)
    · obtain ⟨rfl, hraw⟩ := Prod.mk.inj (Option.some.inj (hread.symm.trans hsome))
      refine ⟨s, hok, ?_⟩
      have hcounts : s.query.length = s.query.raw.length := hs.counts
      rw [hraw, ← hcounts]
  have hint : (toInt32 (n % 2 ^ 32 : ℕ)).toInt = ((n % 2 ^ 32 : ℕ) : ℤ).bmod (2 ^ 32) := Int32.toInt_ofInt
  constructor
  · intro ⟨henc, s', hok', _⟩
    have hlt := (encodeVarInt_eq_iff n (by omega)).mp henc
    rw [hok] at hok'
    have hval : ((n % 2 ^ 32 : ℕ) : ℤ).bmod (2 ^ 32) = n := hint.symm.trans (EStateM.Result.ok.inj hok').1
    rw [Int.bmod_def] at hval
    split at hval <;> omega
  · intro hlt
    refine ⟨encodeVarInt_eq n (by omega), s, ?_, hquery⟩
    rw [hok, hint, Int.bmod_def, if_pos (by omega)]
    congr 1
    omega

def unitServer : Negentropy Unit := { storage := (), frameSizeLimit := 0, limit_ok := limit_ok_none }

/-- The largest number that survives, with a byte behind it. -/
theorem varint_survives_max :
    let n : ℕ := 2 ^ 31 - 1
    ∃ s, decodeVarInt { ne := unitServer, query := .ofArray ⟨encodeVarInt n ++ [7], by decide⟩ } = .ok (n : ℤ) s ∧
      s.query = ⟨[7], 1⟩ := by
  intro n
  exact ((varint_survives_iff unitServer n (by decide) [7] ⟨encodeVarInt n ++ [7], by decide⟩ rfl).mpr (by decide)).2

/-- A time in milliseconds is cut down when it is written, and comes back negative. -/
theorem varint_lost :
    encodeVarInt (1700000000000 : ℕ) ≠ NE.encodeVarInt 1700000000000 ∧
      encodeVarInt (2 ^ 31 : ℕ) = NE.encodeVarInt (2 ^ 31) ∧
      ¬ ∃ s, decodeVarInt { ne := unitServer, query := ⟨encodeVarInt (2 ^ 31 : ℕ), 5⟩ } = .ok (2 ^ 31 : ℤ) s := by
  refine ⟨by decide, by decide, fun h => ?_⟩
  obtain ⟨s, hs⟩ := h
  obtain ⟨u, hu⟩ : ∃ u, decodeVarInt { ne := unitServer, query := ⟨encodeVarInt (2 ^ 31 : ℕ), 5⟩ } =
      .ok (-2147483648 : ℤ) u := ⟨_, rfl⟩
  rw [hu] at hs
  exact absurd (EStateM.Result.ok.inj hs).1 (by decide)

end NE.Js
