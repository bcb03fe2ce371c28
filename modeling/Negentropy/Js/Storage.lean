import Negentropy.Js.Encoding
import Negentropy.Types

/-! The accumulator of `Negentropy.js`, what its protocol calls on a storage, and the storage
that comes with it. -/

namespace NE.Js

/-! ### Accumulators -/

/-- `getUint32(offset, true)` on the four bytes at the offset. -/
def getUint32 (bs : Bytes) : ℤ := bs.foldr (fun b w => b.toNat + 256 * w) 0

/-- `setUint32(offset, v, littleEndian)`: the four bytes it puts at the offset. -/
def setUint32 (v : ℤ) (littleEndian : Bool) : Bytes :=
  let w := toUint32 v
  let bs := [w.toUInt8, (w >>> 8).toUInt8, (w >>> 16).toUInt8, (w >>> 24).toUInt8]
  if littleEndian then bs else bs.reverse

@[simp] theorem setUint32_length (v : ℤ) (littleEndian : Bool) : (setUint32 v littleEndian).length = 4 := by
  cases littleEndian <;> rfl

@[ext] structure Accumulator where
  buf : Bytes
  length_eq : buf.length = ID_SIZE

instance : DecidableEq Accumulator := fun a b => decidable_of_iff (a.buf = b.buf) Accumulator.ext_iff.symm

namespace Accumulator

/-- The loop of `add` over the remaining 32-bit limbs. No sum comes near `2 ^ 53`. -/
def addLimbs : ℕ → ℤ → Bytes → Bytes → Bytes
  | 0, _, _, _ => []
  | limbs + 1, currCarry, p, po =>
      let orig := getUint32 (p.take 4)
      let otherV := getUint32 (po.take 4)
      let next := orig + currCarry + otherV
      let nextCarry := if next > 0xFFFFFFFF then 1 else 0
      setUint32 (toInt32 next &&& toInt32 0xFFFFFFFF).toInt true ++ addLimbs limbs nextCarry (p.drop 4) (po.drop 4)

theorem addLimbs_length (limbs : ℕ) (carry : ℤ) (p po : Bytes) : (addLimbs limbs carry p po).length = 4 * limbs := by
  induction limbs generalizing carry p po with
  | zero => rfl
  | succ limbs ih =>
    simp only [addLimbs, List.length_append, setUint32_length, ih]
    omega

def setToZero : Accumulator := ⟨List.replicate ID_SIZE 0, length_zeros⟩

/-- `add(otherBuf)`, of a buffer that starts at the id. -/
def add (acc : Accumulator) (otherBuf : Bytes) : Accumulator :=
  ⟨addLimbs 8 0 acc.buf otherBuf, addLimbs_length 8 0 acc.buf otherBuf⟩

/-- The loop of `negate` over the remaining limbs. `setUint32` is not given its last argument here. -/
def negateLimbs : ℕ → Bytes → Bytes
  | 0, _ => []
  | limbs + 1, p => setUint32 (~~~ toInt32 (getUint32 (p.take 4))).toInt false ++ negateLimbs limbs (p.drop 4)

theorem negateLimbs_length (limbs : ℕ) (p : Bytes) : (negateLimbs limbs p).length = 4 * limbs := by
  induction limbs generalizing p with
  | zero => rfl
  | succ limbs ih =>
    simp only [negateLimbs, List.length_append, setUint32_length, ih]
    omega

def negate (acc : Accumulator) : Accumulator :=
  add ⟨negateLimbs 8 acc.buf, negateLimbs_length 8 acc.buf⟩ (1 :: List.replicate 31 0)

def getFingerprint [Sha256] (acc : Accumulator) (n : ℤ) : Bytes :=
  (Sha256.sha256 (acc.buf ++ encodeVarInt n)).take FINGERPRINT_SIZE

end Accumulator

/-! ### Storages -/

/-- The calls an iteration makes: `cb` on each item and its index, until it returns
false. -/
def iterateItems {α : Type} (cb : α → Item → ℕ → α × Bool) : List Item → ℕ → α → α
  | [], _, st => st
  | item :: items, index, st =>
      match cb st item index with
      | (st, true) => iterateItems cb items (index + 1) st
      | (st, false) => st

/-- The methods that `Negentropy` calls. What a callback captures is passed in and handed back. -/
class Storage (σ : Type) where
  size : σ → Except Thrown ℕ
  iterate : {α : Type} → σ → (begin_ end_ : ℕ) → (α → Item → ℕ → α × Bool) → α → Except Thrown α
  findLowerBound : σ → (begin_ end_ : ℕ) → Bound → Except Thrown ℕ
  fingerprint : σ → (begin_ end_ : ℕ) → Except Thrown Bytes

structure NegentropyStorageVector where
  items : List Item := []
  isSealed : Bool := false
  deriving DecidableEq

namespace NegentropyStorageVector

def insert (v : NegentropyStorageVector) (timestamp : ℤ) (id : Bytes) : Except Thrown NegentropyStorageVector :=
  if v.isSealed then .error (.error "already sealed")
  else if id.length ≠ ID_SIZE then .error (.error "bad id size for added item")
  else .ok { v with items := v.items ++ [⟨timestamp, id⟩] }

def hasDuplicate : List Item → Bool
  | x :: y :: items => itemCompare x y == 0 || hasDuplicate (y :: items)
  | _ => false

/-- The flag is set, and the items are sorted, also when the call throws. -/
def «seal» (v : NegentropyStorageVector) : Except Thrown Unit × NegentropyStorageVector :=
  if v.isSealed then (.error (.error "already sealed"), v)
  else
    let v := { items := v.items.mergeSort (fun a b => itemCompare a b ≤ 0), isSealed := true }
    if hasDuplicate v.items then (.error (.error "duplicate item inserted"), v) else (.ok (), v)

def «unseal» (v : NegentropyStorageVector) : NegentropyStorageVector := { v with isSealed := false }

def checkSealed (v : NegentropyStorageVector) : Except Thrown Unit :=
  if v.isSealed then .ok () else .error (.error "not sealed")

def checkBounds (v : NegentropyStorageVector) (begin_ end_ : ℕ) : Except Thrown Unit :=
  if begin_ > end_ ∨ end_ > v.items.length then .error (.error "bad range") else .ok ()

def size (v : NegentropyStorageVector) : Except Thrown ℕ := do
  v.checkSealed
  return v.items.length

def getItem (v : NegentropyStorageVector) (i : ℕ) : Except Thrown Item := do
  v.checkSealed
  match v.items[i]? with
  | some item => return item
  | none => throw (.error "out of range")

def iterate {α : Type} (v : NegentropyStorageVector) (begin_ end_ : ℕ) (cb : α → Item → ℕ → α × Bool) (st : α) :
    Except Thrown α := do
  v.checkSealed
  v.checkBounds begin_ end_
  return iterateItems cb ((v.items.drop begin_).take (end_ - begin_)) begin_ st

/-- The loop of `_binarySearch`. The count shrinks in every round, so that as many rounds as it is
empty it; a position below `last` has an item. -/
def binarySearchFrom (arr : List Item) (cmp : Item → Bool) : ℕ → ℕ → ℕ → ℕ
  | 0, first, _ => first
  | rounds + 1, first, count =>
      if count > 0 then
        let step := count / 2
        let it := first + step
        if arr[it]?.any cmp then binarySearchFrom arr cmp rounds (it + 1) (count - (step + 1))
        else binarySearchFrom arr cmp rounds first step
      else first

def binarySearch (arr : List Item) (first last : ℕ) (cmp : Item → Bool) : ℕ :=
  binarySearchFrom arr cmp (last - first) first (last - first)

def findLowerBound (v : NegentropyStorageVector) (begin_ end_ : ℕ) (bound : Bound) : Except Thrown ℕ := do
  v.checkSealed
  v.checkBounds begin_ end_
  return binarySearch v.items begin_ end_ (fun a => itemCompare a bound < 0)

def fingerprint [Sha256] (v : NegentropyStorageVector) (begin_ end_ : ℕ) : Except Thrown Bytes := do
  let out ← v.iterate begin_ end_ (fun out item _ => (out.add item.id, true)) Accumulator.setToZero
  return out.getFingerprint (end_ - begin_)

instance [Sha256] : Storage NegentropyStorageVector where
  size := size
  iterate := iterate
  findLowerBound := findLowerBound
  fingerprint := fingerprint

end NegentropyStorageVector

end NE.Js
