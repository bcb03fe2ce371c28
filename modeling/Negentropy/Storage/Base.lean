import Negentropy.Lib.Sorted
import Negentropy.Types

/-! The storage interface (`storage/base.h`) and what a reader of it relies on. -/

namespace NE

open Sorted

/-- The calls an iteration makes: `cb` on each item and its index, until it returns
false. What a callback captures by reference is its state `α`. -/
def iterateItems {α : Type} (cb : α → Item → ℕ → α × Bool) : List Item → ℕ → α → α
  | [], _, st => st
  | item :: items, index, st =>
      match cb st item index with
      | (st, true) => iterateItems cb items (index + 1) st
      | (st, false) => st

/-- A callback that never stops folds over the items. -/
theorem iterateItems_fold {α : Type} (f : α → Item → α) (items : List Item) (b : ℕ) (st : α) :
    iterateItems (fun st item _ => (f st item, true)) items b st = items.foldl f st := by
  induction items generalizing b st with
  | nil => rfl
  | cons x items ih => exact ih _ _

/-- `StorageBase`. The callback's state is passed in and handed back. -/
class StorageBase (σ : Type) where
  size : σ → Except Err ℕ
  getItem : σ → ℕ → Except Err Item
  iterate : {α : Type} → σ → (begin_ end_ : ℕ) → (α → Item → ℕ → α × Bool) → α → Except Err α
  findLowerBound : σ → (begin_ end_ : ℕ) → Bound → Except Err ℕ
  fingerprint : σ → (begin_ end_ : ℕ) → Except Err Fingerprint

/-- `s` reads like the array `items`, whose windows have the fingerprints `fp`. Nothing is
said of `findLowerBound` here. `size()` is a 64-bit value. -/
structure Reads {σ : Type} [StorageBase σ] (s : σ) (items : List Item) (fp : ℕ → ℕ → Fingerprint) :
    Prop where
  length_lt : items.length < 2 ^ 64
  size : StorageBase.size s = .ok items.length
  getItem : ∀ i (h : i < items.length), StorageBase.getItem s i = .ok items[i]
  iterate : ∀ {α : Type} b e (cb : α → Item → ℕ → α × Bool) (st : α),
    StorageBase.iterate s b e cb st =
      if b ≤ e ∧ e ≤ items.length then .ok (iterateItems cb (slice items b e) b st)
      else .error (.err "bad range")
  fingerprint : ∀ b e, StorageBase.fingerprint s b e =
      if b ≤ e ∧ e ≤ items.length then .ok (fp b e) else .error (.err "bad range")

/-- Besides, the items are sorted and a search that starts at or before the place it is
to find does find it. -/
structure Presents {σ : Type} [StorageBase σ] (s : σ) (items : List Item) (fp : ℕ → ℕ → Fingerprint) :
    Prop extends Reads s items fp where
  sorted : items.Pairwise (· < ·)
  findLowerBound : ∀ b (bound : Bound), b ≤ lowerBound items bound.item →
    StorageBase.findLowerBound s b items.length bound = .ok (lowerBound items bound.item)

/-- The fingerprint of a list of items: the sum of the ids and their number, hashed. -/
def fingerprintOf [Sha256] (items : List Item) : Fingerprint :=
  (items.foldl Accumulator.addItem Accumulator.setToZero).getFingerprint (UInt64.ofNat items.length)

end NE
