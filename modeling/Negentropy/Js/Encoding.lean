import Mathlib.Algebra.Group.Int.Defs
import Mathlib.Data.Int.Notation
import Negentropy.Encoding

/-! `Negentropy.js`: its numbers, its buffers and its varint writer. A Number that holds an
integer is that integer, and sums and differences are rounded; the bitwise operators first
convert to 32 bits. -/

namespace NE.Js

/-- What a call throws: an `Error` with its text, or the `TypeError` of a property of `undefined`. -/
inductive Thrown where
  | error (msg : String)
  | typeError
  deriving DecidableEq, Repr

/-- What a call ends in when it does not return: it throws, or it is still running after the
rounds it was given. -/
inductive Stop where
  | thrown (e : Thrown)
  | running
  deriving DecidableEq, Repr

/-! ### Numbers -/

/-- `Number.MAX_VALUE` -/
def MAX_VALUE : ℤ := (2 ^ 53 - 1) * 2 ^ 971

/-- The Number nearest to an integer: 53 significant bits, and of two that are equally near
the even one. -/
def nearest (x : ℤ) : ℤ :=
  let unit := 2 ^ (x.natAbs.log2 - 52)
  let q := x.natAbs / unit
  let r := x.natAbs % unit
  let q := if 2 * r > unit ∨ 2 * r = unit ∧ q % 2 = 1 then q + 1 else q
  x.sign * (q * unit : ℕ)

/-- `ToInt32` -/
def toInt32 (x : ℤ) : Int32 := Int32.ofInt x

/-- `ToUint32` -/
def toUint32 (x : ℤ) : UInt32 := UInt32.ofInt x

/-! ### Buffers -/

/-- A typed array has at most `2 ^ 53 - 1` elements. -/
structure Uint8Array where
  bytes : Bytes
  length_lt : bytes.length < 2 ^ 53

/-- A buffer that is read from. `length` is a field of its own, besides the length of `raw`. The
buffers that are written to are only extended and are lists of bytes here. -/
structure WrappedBuffer where
  raw : Bytes
  length : ℤ
  deriving DecidableEq

namespace WrappedBuffer

def ofArray (buffer : Uint8Array) : WrappedBuffer := ⟨buffer.bytes, buffer.bytes.length⟩

/-- Where `subarray` cuts: a negative index counts from the end. Both are cut off at the ends. -/
def index (raw : Bytes) (n : ℤ) : ℕ := if n < 0 then (raw.length + n).toNat else n.toNat

/-- The byte is `undefined` when there is none. -/
def shift (b : WrappedBuffer) : Option UInt8 × WrappedBuffer :=
  (b.raw.head?, ⟨b.raw.drop 1, nearest (b.length - 1)⟩)

def shiftN (b : WrappedBuffer) (n : ℤ) : Bytes × WrappedBuffer :=
  (b.raw.take (index b.raw n), ⟨b.raw.drop (index b.raw n), nearest (b.length - n)⟩)

end WrappedBuffer

/-! ### Varints -/

/-- One digit of `decodeVarInt`; `undefined & 127` is zero. -/
def pushDigit (res : Int32) (byte : Option UInt8) : Int32 :=
  (res <<< 7) ||| ((byte.getD 0) &&& 127).toUInt32.toInt32

/-- The digits `encodeVarInt` pushes, least significant first. After the first one `n` is below
`2 ^ 25`, so that there are at most five. -/
def varIntDigits : ℕ → ℤ → Bytes
  | 0, _ => []
  | rounds + 1, n =>
      if n = 0 then []
      else (toInt32 n &&& 127).toUInt32.toUInt8 :: varIntDigits rounds (toUint32 n >>> 7).toNat

def encodeVarInt (n : ℤ) : Bytes :=
  if n = 0 then [0]
  else
    let o := (varIntDigits 5 n).reverse
    o.dropLast.map (· ||| 128) ++ o.getLast?.toList

/-! ### Comparison -/

/-- A comparison with the `undefined` behind the end of `b` is false, so that the lengths decide
there. -/
def compareUint8Array : Bytes → Bytes → ℤ
  | x :: a, y :: b => if x < y then -1 else if x > y then 1 else compareUint8Array a b
  | _ :: _, [] => 1
  | [], _ :: _ => -1
  | [], [] => 0

/-- What has a timestamp and an id: an item, or a bound with as much of the id as is sent. The timestamps are whole numbers:
NaN and fractions, which `insert` takes too, are left out. -/
structure Item where
  timestamp : ℤ
  id : Bytes
  deriving DecidableEq

abbrev Bound := Item

def itemCompare (a b : Item) : ℤ :=
  if a.timestamp = b.timestamp then compareUint8Array a.id b.id else nearest (a.timestamp - b.timestamp)

/-! ### Numbers of up to 53 bits -/

theorem nearest_eq {x : ℤ} (h : x.natAbs < 2 ^ 53) : nearest x = x := by
  have hlog : x.natAbs.log2 - 52 = 0 := by
    by_cases h0 : x.natAbs = 0
    · rw [h0]
      rfl
    · have := (Nat.log2_lt h0).mpr h
      omega
  rw [nearest]
  simp only [hlog, Nat.pow_zero, Nat.div_one, Nat.mul_one]
  rw [if_neg (by omega)]
  exact Int.sign_mul_natAbs x

end NE.Js
