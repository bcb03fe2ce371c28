import Negentropy.Js.Order
import Negentropy.Lib.Runs
import Negentropy.Storage.Agree

/-! What the flag of a sealed vector says about its items, in C++ and in JavaScript. It is set
before the items are checked, and stays set when the check throws. -/

namespace NE

open Runs

/-! ### Calls -/

namespace Storage.Vector

inductive Call where
  | insert (createdAt : UInt64) (id : Bytes)
  | «seal»
  | «unseal»
  deriving DecidableEq

/-- The vector after a call, also one that throws. -/
def after (v : Vector) : Call → Vector
  | .insert createdAt id => (v.insert createdAt id).toOption.getD v
  | .seal => v.seal.2
  | .unseal => v.unseal

/-- The flag promises sorted items without repetition. -/
def Promise (v : Vector) : Prop := v.isSealed = true → v.items.Pairwise (· < ·)

/-- If the call is to sort and check the items, no two are the same. -/
def Distinct (v : Vector) (c : Call) : Prop := c = .seal → v.isSealed = false → v.items.Nodup

theorem mergeSort_strict_iff (items : List Item) : (items.mergeSort (· ≤ ·)).Pairwise (· < ·) ↔ items.Nodup := by
  have hperm := List.mergeSort_perm items (· ≤ ·)
  constructor
  · intro h
    exact hperm.nodup_iff.mp (h.imp ne_of_lt)
  · intro h
    have hsorted : (items.mergeSort (· ≤ ·)).Pairwise (· ≤ ·) := List.pairwise_mergeSort' (· ≤ ·) items
    exact (hsorted.and (hperm.nodup_iff.mpr h)).imp fun h => lt_of_le_of_ne h.1 h.2

theorem promise_after_iff (v : Vector) (c : Call) (hv : v.Promise) : (v.after c).Promise ↔ v.Distinct c := by
  cases c with
  | insert createdAt id =>
    refine iff_of_true ?_ (fun h => by cases h)
    have hcases : v.after (.insert createdAt id) = v ∨ (v.after (.insert createdAt id)).isSealed = false := by
      change (v.insert createdAt id).toOption.getD v = v ∨ ((v.insert createdAt id).toOption.getD v).isSealed = false
      unfold Vector.insert
      split
      · exact .inl rfl
      · next hsealed =>
        split
        · exact .inl rfl
        · exact .inr (Bool.eq_false_iff.mpr hsealed)
    rcases hcases with h | h
    · rw [h]
      exact hv
    · intro h'
      rw [h] at h'
      cases h'
  | «seal» =>
    cases hsealed : v.isSealed with
    | true =>
      have hsame : v.after .seal = v := by
        unfold after Vector.seal
        rw [if_pos hsealed]
      rw [hsame]
      refine iff_of_true hv fun _ h => ?_
      rw [hsealed] at h
      cases h
    | false =>
      have hafter : v.after .seal = { items := v.items.mergeSort (· ≤ ·), isSealed := true } := by
        unfold after Vector.seal
        rw [if_neg (by simp [hsealed])]
        dsimp only
        split <;> rfl
      rw [hafter]
      constructor
      · exact fun h _ _ => (mergeSort_strict_iff v.items).mp (h rfl)
      · exact fun h _ => (mergeSort_strict_iff v.items).mpr (h rfl hsealed)
  | «unseal» => exact iff_of_true (fun h => by cases h) (fun h => by cases h)

end Storage.Vector

namespace Js.NegentropyStorageVector

inductive Call where
  | insert (timestamp : ℤ) (id : Bytes)
  | «seal»
  | «unseal»
  deriving DecidableEq

/-- The vector after a call, also one that throws. -/
def after (v : NegentropyStorageVector) : Call → NegentropyStorageVector
  | .insert timestamp id => (v.insert timestamp id).toOption.getD v
  | .seal => v.seal.2
  | .unseal => v.unseal

def Promise (v : NegentropyStorageVector) : Prop := v.isSealed = true → v.items.Pairwise Item.Before

def Distinct (v : NegentropyStorageVector) (c : Call) : Prop := c = .seal → v.isSealed = false → v.items.Nodup

theorem mergeSort_strict_iff (items : List Item) :
    (items.mergeSort (fun a b => itemCompare a b ≤ 0)).Pairwise Item.Before ↔ items.Nodup := by
  have hperm := List.mergeSort_perm items (fun a b => itemCompare a b ≤ 0)
  constructor
  · intro h
    refine hperm.nodup_iff.mp (h.imp fun {a b} hab heq => ?_)
    exact Item.Before.irrefl b (heq ▸ hab)
  · intro h
    exact ((sort_sorted items).and (hperm.nodup_iff.mpr h)).imp fun h => h.1.resolve_right h.2

theorem promise_after_iff (v : NegentropyStorageVector) (c : Call) (hv : v.Promise) :
    (v.after c).Promise ↔ v.Distinct c := by
  cases c with
  | insert timestamp id =>
    refine iff_of_true ?_ (fun h => by cases h)
    have hcases : v.after (.insert timestamp id) = v ∨ (v.after (.insert timestamp id)).isSealed = false := by
      change (v.insert timestamp id).toOption.getD v = v ∨ ((v.insert timestamp id).toOption.getD v).isSealed = false
      unfold NegentropyStorageVector.insert
      split
      · exact .inl rfl
      · next hsealed =>
        split
        · exact .inl rfl
        · exact .inr (Bool.eq_false_iff.mpr hsealed)
    rcases hcases with h | h
    · rw [h]
      exact hv
    · intro h'
      rw [h] at h'
      cases h'
  | «seal» =>
    cases hsealed : v.isSealed with
    | true =>
      have hsame : v.after .seal = v := by
        unfold after NegentropyStorageVector.seal
        rw [if_pos hsealed]
      rw [hsame]
      refine iff_of_true hv fun _ h => ?_
      rw [hsealed] at h
      cases h
    | false =>
      have hafter : v.after .seal =
          { items := v.items.mergeSort (fun a b => itemCompare a b ≤ 0), isSealed := true } := by
        unfold after NegentropyStorageVector.seal
        rw [if_neg (by simp [hsealed])]
        dsimp only
        split <;> rfl
      rw [hafter]
      constructor
      · exact fun h _ _ => (mergeSort_strict_iff v.items).mp (h rfl)
      · exact fun h _ => (mergeSort_strict_iff v.items).mpr (h rfl hsealed)
  | «unseal» => exact iff_of_true (fun h => by cases h) (fun h => by cases h)

end Js.NegentropyStorageVector

/-! ### Runs -/

/-- The flag keeps its promise throughout a run exactly if `seal` never finds an item twice. -/
theorem sealed_sorted_iff (calls : List Storage.Vector.Call) (jsCalls : List Js.NegentropyStorageVector.Call) :
    (Throughout Storage.Vector.after Storage.Vector.Promise {} calls ↔
      EachCall Storage.Vector.after Storage.Vector.Distinct {} calls) ∧
    (Throughout Js.NegentropyStorageVector.after Js.NegentropyStorageVector.Promise {} jsCalls ↔
      EachCall Js.NegentropyStorageVector.after Js.NegentropyStorageVector.Distinct {} jsCalls) :=
  ⟨throughout_iff _ Storage.Vector.promise_after_iff (fun h => by cases h) calls,
    throughout_iff _ Js.NegentropyStorageVector.promise_after_iff (fun h => by cases h) jsCalls⟩

/-- The same item twice: `seal` throws, and after it the storage tells its size. -/
theorem sealed_after_duplicate :
    let v : Storage.Vector := [.insert 1 ItemId.zero.bytes, .insert 1 ItemId.zero.bytes].foldl Storage.Vector.after {}
    let js : Js.NegentropyStorageVector :=
      [.insert 1 ItemId.zero.bytes, .insert 1 ItemId.zero.bytes].foldl Js.NegentropyStorageVector.after {}
    (v.seal.1 = .error (.err "duplicate item inserted") ∧ v.seal.2.size = .ok 2 ∧ ¬ v.seal.2.Promise) ∧
      js.seal.1 = .error (.error "duplicate item inserted") ∧ js.seal.2.size = .ok 2 ∧ ¬ js.seal.2.Promise := by
  have hv : [.insert 1 ItemId.zero.bytes, .insert 1 ItemId.zero.bytes].foldl Storage.Vector.after {} =
      ({ items := [⟨1, ItemId.zero⟩, ⟨1, ItemId.zero⟩] } : Storage.Vector) := rfl
  have hjs : [.insert 1 ItemId.zero.bytes, .insert 1 ItemId.zero.bytes].foldl Js.NegentropyStorageVector.after {} =
      ({ items := [⟨1, ItemId.zero.bytes⟩, ⟨1, ItemId.zero.bytes⟩] } : Js.NegentropyStorageVector) := rfl
  rw [hv, hjs]
  have hsort : [(⟨1, ItemId.zero⟩ : Item), ⟨1, ItemId.zero⟩].mergeSort (· ≤ ·) = [⟨1, ItemId.zero⟩, ⟨1, ItemId.zero⟩] :=
    List.mergeSort_of_pairwise (by decide)
  have hsort' : [(⟨1, ItemId.zero.bytes⟩ : Js.Item), ⟨1, ItemId.zero.bytes⟩].mergeSort (fun a b => Js.itemCompare a b ≤ 0) =
      [⟨1, ItemId.zero.bytes⟩, ⟨1, ItemId.zero.bytes⟩] :=
    List.mergeSort_of_pairwise (by decide)
  simp only [Storage.Vector.seal, Js.NegentropyStorageVector.seal, hsort, hsort']
  refine ⟨⟨by rfl, by rfl, fun h => ?_⟩, by rfl, by rfl, fun h => ?_⟩
  · exact absurd (h rfl) (by decide)
  · exact Js.Item.Before.irrefl _ ((List.pairwise_cons.mp (h rfl)).1 _ (List.mem_singleton_self _))

end NE
