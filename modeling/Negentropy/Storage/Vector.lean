import Mathlib.Data.List.Sort
import Negentropy.Storage.Base

/-! `storage/Vector.h`: the items in one array, sorted and checked when it is sealed. -/

namespace NE.Storage

open Sorted

structure Vector where
  items : List Item := []
  isSealed : Bool := false

namespace Vector

def insert (v : Vector) (createdAt : UInt64) (id : Bytes) : Except Err Vector :=
  if v.isSealed then .error (.err "already sealed")
  else if h : id.length ≠ ID_SIZE then .error (.err "bad id size for added item")
  else .ok { v with items := v.items ++ [⟨createdAt, ⟨id, not_not.mp h⟩⟩] }

def insertItem (v : Vector) (item : Item) : Except Err Vector :=
  v.insert item.timestamp item.id.bytes

/-- Some item equals the one after it. -/
def hasDuplicate : List Item → Bool
  | x :: y :: items => x == y || hasDuplicate (y :: items)
  | _ => false

/-- The flag is set, and the items are sorted, also when the call throws. -/
def «seal» (v : Vector) : Except Err Unit × Vector :=
  if v.isSealed then (.error (.err "already sealed"), v)
  else
    let v := { items := v.items.mergeSort (· ≤ ·), isSealed := true }
    if hasDuplicate v.items then (.error (.err "duplicate item inserted"), v) else (.ok (), v)

def «unseal» (v : Vector) : Vector := { v with isSealed := false }

def checkSealed (v : Vector) : Except Err Unit :=
  if v.isSealed then .ok () else .error (.err "not sealed")

def checkBounds (v : Vector) (begin_ end_ : ℕ) : Except Err Unit :=
  if begin_ > end_ ∨ end_ > v.items.length then .error (.err "bad range") else .ok ()

def size (v : Vector) : Except Err ℕ := do
  v.checkSealed
  return v.items.length

def getItem (v : Vector) (i : ℕ) : Except Err Item := do
  v.checkSealed
  match v.items[i]? with
  | some item => return item
  | none => throw .outOfRange

def iterate {α : Type} (v : Vector) (begin_ end_ : ℕ) (cb : α → Item → ℕ → α × Bool) (st : α) :
    Except Err α := do
  v.checkSealed
  v.checkBounds begin_ end_
  return iterateItems cb (slice v.items begin_ end_) begin_ st

/-- `std::lower_bound` between `items.begin() + begin_` and `items.begin() + end_`. -/
def findLowerBound (v : Vector) (begin_ end_ : ℕ) (bound : Bound) : Except Err ℕ := do
  v.checkSealed
  v.checkBounds begin_ end_
  return begin_ + lowerBound (slice v.items begin_ end_) bound.item

def fingerprint [Sha256] (v : Vector) (begin_ end_ : ℕ) : Except Err Fingerprint := do
  let out ← v.iterate begin_ end_ (fun out item _ => (out.addItem item, true)) Accumulator.setToZero
  return out.getFingerprint (UInt64.ofNat (end_ - begin_))

instance [Sha256] : StorageBase Vector where
  size := size
  getItem := getItem
  iterate := iterate
  findLowerBound := findLowerBound
  fingerprint := fingerprint

/-! ### A sealed vector presents its items -/

section
variable {v : Vector}

theorem checkSealed_ok (h : v.isSealed = true) : v.checkSealed = .ok () := if_pos h

theorem checkBounds_eq (b e : ℕ) :
    v.checkBounds b e = if b ≤ e ∧ e ≤ v.items.length then .ok () else .error (.err "bad range") := by
  by_cases h : b ≤ e ∧ e ≤ v.items.length
  · rw [if_pos h, checkBounds, if_neg (by omega)]
  · rw [if_neg h, checkBounds, if_pos (by omega)]

theorem size_eq (h : v.isSealed = true) : v.size = .ok v.items.length := by
  rw [size, checkSealed_ok h]
  rfl

theorem getItem_eq (h : v.isSealed = true) {i : ℕ} (hi : i < v.items.length) : v.getItem i = .ok v.items[i] := by
  rw [getItem, checkSealed_ok h, List.getElem?_eq_getElem hi]
  rfl

theorem iterate_eq {α : Type} (h : v.isSealed = true) (b e : ℕ) (cb : α → Item → ℕ → α × Bool) (st : α) :
    v.iterate b e cb st =
      if b ≤ e ∧ e ≤ v.items.length then .ok (iterateItems cb (slice v.items b e) b st) else .error (.err "bad range") := by
  rw [iterate, checkSealed_ok h, checkBounds_eq]
  split <;> rfl

/-- The search answers with the lower bound in the window. -/
theorem findLowerBound_eq (h : v.isSealed = true) (hsorted : v.items.Pairwise (· < ·)) {b e : ℕ} (hbe : b ≤ e)
    (he : e ≤ v.items.length) (bound : Bound) :
    v.findLowerBound b e bound = .ok (max b (min (lowerBound v.items bound.item) e)) := by
  have hsl := lowerBound_slice hsorted (k := bound.item) hbe he
  rw [findLowerBound, checkSealed_ok h, checkBounds_eq, if_pos ⟨hbe, he⟩, ← hsl]
  rfl

variable [Sha256]

theorem fingerprint_eq (h : v.isSealed = true) (b e : ℕ) :
    v.fingerprint b e =
      if b ≤ e ∧ e ≤ v.items.length then .ok (fingerprintOf (slice v.items b e)) else .error (.err "bad range") := by
  rw [fingerprint, iterate_eq h]
  split
  · next hbe =>
    have hfold := iterateItems_fold Accumulator.addItem (slice v.items b e) b Accumulator.setToZero
    have hsl := slice_length v.items hbe.2 (b := b)
    simp only [bind, Except.bind, pure, Except.pure, hfold, fingerprintOf, hsl]
  · rfl

theorem reads (h : v.isSealed = true) (hlen : v.items.length < 2 ^ 64) :
    Reads v v.items (fun b e => fingerprintOf (slice v.items b e)) where
  length_lt := hlen
  size := size_eq h
  getItem _ hi := getItem_eq h hi
  iterate := iterate_eq h
  fingerprint := fingerprint_eq h

/-- Besides, its search finds the lower bound, from any position at or before it. -/
theorem presents (h : v.isSealed = true) (hlen : v.items.length < 2 ^ 64) (hsorted : v.items.Pairwise (· < ·)) :
    Presents v v.items (fun b e => fingerprintOf (slice v.items b e)) where
  toReads := reads h hlen
  sorted := hsorted
  findLowerBound b bound hb := by
    have hle := lowerBound_le_length v.items bound.item
    change v.findLowerBound b v.items.length bound = _
    rw [findLowerBound_eq h hsorted (hb.trans hle) le_rfl, Nat.min_eq_left hle, Nat.max_eq_right hb]

end

end Vector

end NE.Storage
