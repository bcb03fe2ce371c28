import Mathlib.Algebra.BigOperators.Group.List.Basic
import Mathlib.Data.ZMod.Basic
import Negentropy.Lib.LittleEndian
import Negentropy.Types

/-! The accumulator of `types.h` computes with 256-bit numbers: its limbs carry into each other,
and it is a commutative group under `add` and `negate`. -/

namespace NE

open LittleEndian

/-! ### Limbs -/

theorem loadLE_toNat (bs : Bytes) (h : bs.length ≤ 8) : (loadLE bs).toNat = value bs := by
  induction bs with
  | nil => rfl
  | cons b bs ih =>
    have hrec := ih (by simp at h; omega)
    have hlt := value_lt (b :: bs)
    have hpow : 256 ^ (b :: bs).length ≤ 256 ^ 8 := Nat.pow_le_pow_right (by norm_num) h
    rw [value_cons] at hlt ⊢
    change (b.toUInt64 + 256 * loadLE bs).toNat = _
    rw [UInt64.toNat_add, UInt64.toNat_mul, hrec, UInt8.toNat_toUInt64]
    change (b.toNat + 256 * value bs % 2 ^ 64) % 2 ^ 64 = _
    omega

theorem storeLE_value (n : ℕ) (w : UInt64) : value (storeLE n w) = w.toNat % 256 ^ n := by
  induction n generalizing w with
  | zero => simp [storeLE, Nat.mod_one]
  | succ n ih =>
    have hshift : (w >>> 8).toNat = w.toNat / 256 := by
      rw [UInt64.toNat_shiftRight, Nat.shiftRight_eq_div_pow]
      rfl
    have hlow : w.toUInt8.toNat = w.toNat % 256 := UInt64.toNat_toUInt8 w
    rw [storeLE, value_cons, ih, hshift, hlow, pow_succ', Nat.mod_mul]

/-- One limb: the digit that is kept and the carry that goes on. -/
theorem limb_add (orig otherV carry : UInt64) (hc : carry.toNat ≤ 1) :
    let next := orig + carry
    let nextCarry : UInt64 := if next < orig then 1 else 0
    let nextCarry' : UInt64 := if next + otherV < otherV then 1 else nextCarry
    nextCarry'.toNat ≤ 1 ∧
      (next + otherV).toNat + 2 ^ 64 * nextCarry'.toNat = orig.toNat + otherV.toNat + carry.toNat := by
  have ho := orig.toNat_lt
  have hv := otherV.toNat_lt
  simp only [UInt64.lt_iff_toNat_lt, UInt64.toNat_add]
  split_ifs <;> simp only [UInt64.toNat_one, UInt64.toNat_zero] <;> omega

theorem addLimbs_value (limbs : ℕ) (carry : UInt64) (p po : Bytes) (hc : carry.toNat ≤ 1)
    (hp : p.length = 8 * limbs) (hpo : po.length = 8 * limbs) :
    value (Accumulator.addLimbs limbs carry p po) = (value p + value po + carry.toNat) % 2 ^ (64 * limbs) := by
  induction limbs generalizing carry p po with
  | zero => simp [Accumulator.addLimbs, Nat.mod_one]
  | succ limbs ih =>
    obtain ⟨hc', hsum⟩ := limb_add (loadLE (p.take 8)) (loadLE (po.take 8)) carry hc
    have hrec := ih _ (p.drop 8) (po.drop 8) hc' (by simp; omega) (by simp; omega)
    rw [loadLE_toNat _ (by simp), loadLE_toNat _ (by simp)] at hsum
    have hpow : 2 ^ (64 * (limbs + 1)) = 2 ^ 64 * 2 ^ (64 * limbs) := by rw [← pow_add]; congr 1; omega
    rw [Accumulator.addLimbs, value_append, storeLE_length, storeLE_value, hrec,
      value_take_add_drop p (n := 8) (by omega), value_take_add_drop po (n := 8) (by omega), hpow]
    set next := loadLE (p.take 8) + carry + loadLE (po.take 8)
    set c : UInt64 := if next < loadLE (po.take 8) then 1
      else if loadLE (p.take 8) + carry < loadLE (p.take 8) then 1 else 0
    have hlt := next.toNat_lt
    have hb : (256 : ℕ) ^ 8 = 2 ^ 64 := by norm_num
    -- what is kept of this limb, then the carry with the limbs above
    have key : value (p.take 8) + 256 ^ 8 * value (p.drop 8) + (value (po.take 8) + 256 ^ 8 * value (po.drop 8))
        + carry.toNat = next.toNat + 2 ^ 64 * (value (p.drop 8) + value (po.drop 8) + c.toNat) := by
      rw [hb]
      linarith only [hsum]
    rw [key, Nat.mod_mul, Nat.add_mul_mod_self_left, Nat.add_mul_div_left _ _ (by norm_num),
      Nat.div_eq_of_lt hlt, Nat.mod_eq_of_lt hlt, hb, Nat.zero_add, Nat.mod_eq_of_lt hlt]

/-! ### Numbers mod 2^256 -/

namespace Accumulator

/-- The number the 32 bytes spell. -/
def toNat (acc : Accumulator) : ℕ := value acc.buf

theorem toNat_lt (acc : Accumulator) : acc.toNat < 2 ^ 256 := by
  have h := value_lt acc.buf
  rw [acc.length_eq] at h
  exact h.trans_eq (by norm_num [ID_SIZE])

theorem toNat_inj {a b : Accumulator} (h : a.toNat = b.toNat) : a = b :=
  Accumulator.ext (value_inj (a.length_eq.trans b.length_eq.symm) h)

@[simp] theorem toNat_setToZero : setToZero.toNat = 0 := value_replicate_zero _

theorem toNat_addBuf (acc : Accumulator) (otherBuf : Bytes) (h : otherBuf.length = ID_SIZE) :
    (acc.addBuf otherBuf).toNat = (acc.toNat + value otherBuf) % 2 ^ 256 := by
  have hadd := addLimbs_value 4 0 acc.buf otherBuf (by decide) acc.length_eq h
  rw [UInt64.toNat_zero, Nat.add_zero] at hadd
  exact hadd

theorem toNat_add (a b : Accumulator) : (a.add b).toNat = (a.toNat + b.toNat) % 2 ^ 256 :=
  toNat_addBuf a b.buf b.length_eq

theorem toNat_negate (a : Accumulator) : a.negate.toNat = (2 ^ 256 - a.toNat) % 2 ^ 256 := by
  have hone : value ((1 : UInt8) :: List.replicate 31 0) = 1 := by rw [value_cons, value_replicate_zero]; rfl
  have hnot := value_not a.buf
  rw [a.length_eq] at hnot
  rw [negate, toNat_addBuf _ _ (by simp [ID_SIZE]), hone]
  change (value (a.buf.map (~~~ ·)) + 1) % 2 ^ 256 = (2 ^ 256 - value a.buf) % 2 ^ 256
  have hb : (256 : ℕ) ^ ID_SIZE = 2 ^ 256 := by norm_num [ID_SIZE]
  omega

/-- The number as a residue; all the operations are read off from it. -/
def residue (a : Accumulator) : ZMod (2 ^ 256) := (a.toNat : ZMod (2 ^ 256))

theorem residue_inj {a b : Accumulator} (h : a.residue = b.residue) : a = b := by
  have hmod := (ZMod.natCast_eq_natCast_iff' _ _ _).mp h
  rw [Nat.mod_eq_of_lt a.toNat_lt, Nat.mod_eq_of_lt b.toNat_lt] at hmod
  exact toNat_inj hmod

theorem residue_add (a b : Accumulator) : (a.add b).residue = a.residue + b.residue := by
  rw [residue, toNat_add, ZMod.natCast_mod, Nat.cast_add]
  rfl

theorem residue_negate (a : Accumulator) : a.negate.residue = - a.residue := by
  rw [residue, toNat_negate, ZMod.natCast_mod, Nat.cast_sub a.toNat_lt.le, ZMod.natCast_self, zero_sub]
  rfl

theorem residue_setToZero : setToZero.residue = 0 := by
  rw [residue, toNat_setToZero, Nat.cast_zero]

instance : Add Accumulator := ⟨add⟩
instance : Zero Accumulator := ⟨setToZero⟩
instance : Neg Accumulator := ⟨negate⟩

instance : AddCommGroup Accumulator where
  add_assoc a b c := residue_inj (by
    change ((a.add b).add c).residue = (a.add (b.add c)).residue
    simp only [residue_add, add_assoc])
  add_comm a b := residue_inj (by
    change (a.add b).residue = (b.add a).residue
    rw [residue_add, residue_add, add_comm])
  zero_add a := residue_inj (by
    change (setToZero.add a).residue = _
    rw [residue_add, residue_setToZero, zero_add])
  add_zero a := residue_inj (by
    change (a.add setToZero).residue = _
    rw [residue_add, residue_setToZero, add_zero])
  neg_add_cancel a := residue_inj (by
    change (a.negate.add a).residue = setToZero.residue
    rw [residue_add, residue_negate, residue_setToZero, neg_add_cancel])
  nsmul := nsmulRec
  zsmul := zsmulRec

theorem add_eq (a b : Accumulator) : a.add b = a + b := rfl
theorem negate_eq (a : Accumulator) : a.negate = - a := rfl
theorem setToZero_eq : setToZero = 0 := rfl

theorem sub_eq (a b : Accumulator) : a.sub b = a - b := (sub_eq_add_neg a b).symm

/-- The id of an item, as the number that it adds. -/
def ofItem (x : Item) : Accumulator := ⟨x.id.bytes, x.id_length⟩

theorem addItem_eq (a : Accumulator) (x : Item) : a.addItem x = a + ofItem x := rfl
theorem subItem_eq (a : Accumulator) (x : Item) : a.subItem x = a - ofItem x := sub_eq a (ofItem x)

/-- The sum of the ids. -/
def sum (xs : List Item) : Accumulator := (xs.map ofItem).sum

@[simp] theorem sum_nil : sum [] = 0 := rfl
@[simp] theorem sum_cons (x : Item) (xs : List Item) : sum (x :: xs) = ofItem x + sum xs := List.sum_cons
@[simp] theorem sum_append (xs ys : List Item) : sum (xs ++ ys) = sum xs + sum ys := by simp [sum]

theorem foldl_addItem (xs : List Item) (a : Accumulator) : xs.foldl addItem a = a + sum xs := by
  induction xs generalizing a with
  | nil => exact (add_zero a).symm
  | cons x xs ih => rw [List.foldl_cons, ih, addItem_eq, sum_cons, add_assoc]

/-- As a number it is the sum of the ids, reduced. -/
theorem toNat_sum (xs : List Item) :
    (sum xs).toNat = (xs.map fun x => value x.id.bytes).sum % 2 ^ 256 := by
  induction xs with
  | nil => exact toNat_setToZero
  | cons x xs ih =>
    rw [sum_cons, ← add_eq, toNat_add, ih, List.map_cons, List.sum_cons, Nat.add_mod_mod]
    rfl

/-! ### Histories -/

inductive Op where
  | add (other : Accumulator)
  | sub (other : Accumulator)
  deriving DecidableEq

def Op.apply (acc : Accumulator) : Op → Accumulator
  | .add other => acc.add other
  | .sub other => acc.sub other

/-- The operand with its sign. -/
def Op.signed : Op → ℤ
  | .add other => other.toNat
  | .sub other => - other.toNat

/-- A history of adds and subs. -/
def run (acc : Accumulator) (ops : List Op) : Accumulator := ops.foldl Op.apply acc

theorem residue_apply (acc : Accumulator) (op : Op) : (op.apply acc).residue = acc.residue + op.signed := by
  cases op with
  | add other =>
    change (acc.add other).residue = acc.residue + ((other.toNat : ℤ) : ZMod _)
    rw [residue_add, Int.cast_natCast]
    rfl
  | sub other =>
    change (acc.add other.negate).residue = acc.residue + ((-(other.toNat : ℤ) : ℤ) : ZMod _)
    rw [residue_add, residue_negate, Int.cast_neg, Int.cast_natCast]
    rfl

/-- A history adds up its signed operands. -/
theorem residue_run (acc : Accumulator) (ops : List Op) :
    (run acc ops).residue = acc.residue + ((ops.map Op.signed).sum : ℤ) := by
  induction ops generalizing acc with
  | nil => simp [run]
  | cons op ops ih =>
    rw [run, List.foldl_cons, ← run, ih, residue_apply, List.map_cons, List.sum_cons, Int.cast_add, add_assoc]

theorem toNat_of_residue {acc : Accumulator} {n : ℤ} (h : acc.residue = n) : (acc.toNat : ℤ) = n % 2 ^ 256 := by
  have hmod : (acc.toNat : ℤ) % (2 ^ 256 : ℕ) = n % (2 ^ 256 : ℕ) :=
    (ZMod.intCast_eq_intCast_iff' _ _ _).mp (by rw [Int.cast_natCast]; exact h)
  have hlt := acc.toNat_lt
  rw [Int.emod_eq_of_lt (by omega) (by exact_mod_cast hlt)] at hmod
  exact_mod_cast hmod

/-- The accumulator computes mod 2^256, and a history depends on its signed operands only, in no order. -/
theorem computes_mod :
    (∀ a b : Accumulator, (a.add b).toNat = (a.toNat + b.toNat) % 2 ^ 256 ∧
      a.negate.toNat = (2 ^ 256 - a.toNat) % 2 ^ 256 ∧
      ((a.sub b).toNat : ℤ) = ((a.toNat : ℤ) - b.toNat) % 2 ^ 256) ∧
    (∀ (acc : Accumulator) (ops : List Op),
      ((run acc ops).toNat : ℤ) = (acc.toNat + (ops.map Op.signed).sum) % 2 ^ 256) ∧
    ∀ (acc : Accumulator) (ops ops' : List Op), ops.Perm ops' → run acc ops = run acc ops' := by
  refine ⟨fun a b => ⟨toNat_add a b, toNat_negate a, ?_⟩, fun acc ops => ?_, fun acc ops ops' h => ?_⟩
  · apply toNat_of_residue
    have happly : (a.sub b).residue = a.residue + ((- (b.toNat : ℤ) : ℤ) : ZMod (2 ^ 256)) := residue_apply a (.sub b)
    rw [happly, residue, ← Int.cast_natCast (R := ZMod (2 ^ 256)) a.toNat, ← Int.cast_add, sub_eq_add_neg]
  · apply toNat_of_residue
    rw [Int.cast_add, Int.cast_natCast]
    exact residue_run acc ops
  · apply residue_inj
    rw [residue_run, residue_run, (h.map Op.signed).sum_eq]

/-- Two operands in either order. -/
theorem computes_mod_two :
    let a : Accumulator := ⟨0xFF :: List.replicate 31 0, rfl⟩
    run setToZero [.add a, .sub a, .add a] = run setToZero [.add a, .add a, .sub a] := by
  intro a
  exact computes_mod.2.2 setToZero _ _ ((List.Perm.swap _ _ []).cons _)

end Accumulator

theorem fingerprintOf_eq [Sha256] (items : List Item) :
    (items.foldl Accumulator.addItem Accumulator.setToZero).getFingerprint (UInt64.ofNat items.length) =
      (Accumulator.sum items).getFingerprint (UInt64.ofNat items.length) := by
  rw [Accumulator.foldl_addItem, Accumulator.setToZero_eq, zero_add]

end NE
