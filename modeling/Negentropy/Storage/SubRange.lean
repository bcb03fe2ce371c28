import Negentropy.Storage.Base

/-! `storage/SubRange.h`: a window of another storage. -/

namespace NE.Storage

/-- Addition of two `size_t`. -/
def uadd (a b : ℕ) : ℕ := (a + b) % 2 ^ 64

/-- Subtraction of two `size_t`. -/
def usub (a b : ℕ) : ℕ := (a + 2 ^ 64 - b) % 2 ^ 64

theorem uadd_of_lt {a b : ℕ} (h : a + b < 2 ^ 64) : uadd a b = a + b := Nat.mod_eq_of_lt h

structure SubRange (β : Type) where
  base : β
  baseSize : ℕ
  subBegin : ℕ
  subEnd : ℕ
  subSize : ℕ

namespace SubRange

variable {β : Type} [StorageBase β]

/-- The constructor. -/
def make (base : β) (lowerBound upperBound : Bound) : Except Err (SubRange β) := do
  let baseSize ← StorageBase.size base
  let subBegin ←
    if lowerBound.sameItem (Bound.ofTimestamp 0) then pure 0
    else StorageBase.findLowerBound base 0 baseSize lowerBound
  let subEnd ←
    if upperBound.sameItem (Bound.ofTimestamp MAX_U64) then pure baseSize
    else StorageBase.findLowerBound base subBegin baseSize upperBound
  let subEnd ←
    if subEnd ≠ baseSize then do
      let item ← StorageBase.getItem base subEnd
      if (Bound.ofItem item).sameItem upperBound then pure (uadd subEnd 1) else pure subEnd
    else pure subEnd
  return { base, baseSize, subBegin, subEnd, subSize := usub subEnd subBegin }

def checkBounds (s : SubRange β) (begin_ end_ : ℕ) : Except Err Unit :=
  if begin_ > end_ ∨ end_ > s.subSize then .error (.err "bad range") else .ok ()

def size (s : SubRange β) : Except Err ℕ := return s.subSize

def getItem (s : SubRange β) (i : ℕ) : Except Err Item := do
  if i ≥ s.subSize then throw (.err "bad index")
  StorageBase.getItem s.base (uadd s.subBegin i)

def iterate {α : Type} (s : SubRange β) (begin_ end_ : ℕ) (cb : α → Item → ℕ → α × Bool) (st : α) :
    Except Err α := do
  s.checkBounds begin_ end_
  StorageBase.iterate s.base (uadd s.subBegin begin_) (uadd s.subBegin end_)
    (fun st item index => cb st item (usub index s.subBegin)) st

def findLowerBound (s : SubRange β) (begin_ end_ : ℕ) (bound : Bound) : Except Err ℕ := do
  s.checkBounds begin_ end_
  let index ← StorageBase.findLowerBound s.base (uadd s.subBegin begin_) (uadd s.subBegin end_) bound
  return min (usub index s.subBegin) s.subSize

def fingerprint (s : SubRange β) (begin_ end_ : ℕ) : Except Err Fingerprint := do
  s.checkBounds begin_ end_
  StorageBase.fingerprint s.base (uadd s.subBegin begin_) (uadd s.subBegin end_)

instance : StorageBase (SubRange β) where
  size := size
  getItem := getItem
  iterate := iterate
  findLowerBound := findLowerBound
  fingerprint := fingerprint

end SubRange

end NE.Storage
