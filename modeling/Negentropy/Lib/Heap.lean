import Mathlib.Data.Multiset.MapFold
import Mathlib.Logic.Function.Basic
import Mathlib.Tactic.Common

/-! A heap as a bag of cells. `Holds h cells` says that the map `h` has exactly these entries, so
that a bag written as a sum names disjoint parts of the heap, and an update of one cell leaves the
others alone. -/

namespace Heap

variable {ι α : Type}

/-- The entries of `h` are these cells. -/
structure Holds (h : ι → Option α) (cells : Multiset (ι × α)) : Prop where
  nodup : (cells.map Prod.fst).Nodup
  some_iff : ∀ id a, h id = some a ↔ (id, a) ∈ cells

variable {h : ι → Option α} {id : ι} {a b : α} {F : Multiset (ι × α)}

theorem Holds.read (hh : Holds h ((id, a) ::ₘ F)) : h id = some a :=
  (hh.some_iff id a).mpr (Multiset.mem_cons_self _ _)

theorem Holds.notMem (hh : Holds h ((id, a) ::ₘ F)) : id ∉ F.map Prod.fst := by
  have hnd := hh.nodup
  rw [Multiset.map_cons, Multiset.nodup_cons] at hnd
  exact hnd.1

theorem Holds.ne_none_iff (hh : Holds h F) {id : ι} : h id ≠ none ↔ id ∈ F.map Prod.fst := by
  rw [Option.ne_none_iff_exists', Multiset.mem_map]
  constructor
  · rintro ⟨a, ha⟩
    exact ⟨(id, a), (hh.some_iff id a).mp ha, rfl⟩
  · rintro ⟨⟨_, a⟩, ha, rfl⟩
    exact ⟨a, (hh.some_iff _ a).mpr ha⟩

theorem holds_empty : Holds (fun _ : ι => (none : Option α)) 0 where
  nodup := by simp
  some_iff := by simp

variable [DecidableEq ι]

/-- A new cell at an unused address. -/
theorem Holds.alloc (hh : Holds h F) (hfree : h id = none) :
    Holds (Function.update h id (some a)) ((id, a) ::ₘ F) where
  nodup := by
    rw [Multiset.map_cons, Multiset.nodup_cons]
    exact ⟨fun hmem => hh.ne_none_iff.mpr hmem hfree, hh.nodup⟩
  some_iff i x := by
    by_cases hi : i = id
    · subst hi
      have hnot : (i, x) ∉ F := fun hx => by simp [(hh.some_iff i x).mpr hx] at hfree
      simp [hnot, eq_comm]
    · simp [hi, hh.some_iff]

theorem Holds.free (hh : Holds h ((id, a) ::ₘ F)) : Holds (Function.update h id none) F where
  nodup := by
    have hnd := hh.nodup
    rw [Multiset.map_cons, Multiset.nodup_cons] at hnd
    exact hnd.2
  some_iff i x := by
    by_cases hi : i = id
    · subst hi
      have hnot : (i, x) ∉ F := fun hx => hh.notMem (Multiset.mem_map_of_mem Prod.fst hx)
      simp [hnot]
    · rw [Function.update_of_ne hi, hh.some_iff]
      simp [hi]

theorem Holds.write (hh : Holds h ((id, a) ::ₘ F)) : Holds (Function.update h id (some b)) ((id, b) ::ₘ F) := by
  have hw : Holds (Function.update (Function.update h id none) id (some b)) _ :=
    hh.free.alloc (Function.update_self id none h)
  rwa [Function.update_idem] at hw

end Heap
