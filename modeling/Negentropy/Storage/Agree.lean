import Mathlib.Data.Finset.Sort
import Negentropy.Sha256
import Negentropy.Storage.BTree.Runs
import Negentropy.Storage.Vector

/-! The tree and the sealed vector over the same items answer alike, whatever the history of
the tree. -/

namespace NE.Storage

open BTree Sorted

/-! ### What a vector holds -/

/-- The vector is sealed and holds exactly these items. -/
structure Vector.Holds (v : Vector) (s : Finset Item) : Prop where
  isSealed : v.isSealed = true
  sorted : v.items.Pairwise (· < ·)
  toFinset : v.items.toFinset = s

theorem hasDuplicate_false {xs : List Item} (hs : xs.Pairwise (· ≤ ·)) (h : Vector.hasDuplicate xs = false) :
    xs.Pairwise (· < ·) := by
  induction xs with
  | nil => exact List.Pairwise.nil
  | cons x xs ih =>
    cases xs with
    | nil => exact List.pairwise_singleton _ _
    | cons y ys =>
      obtain ⟨hx, hs⟩ := List.pairwise_cons.mp hs
      simp only [Vector.hasDuplicate, Bool.or_eq_false_iff, beq_eq_false_iff_ne] at h
      have hys := ih hs h.2
      have hxy : x < y := lt_of_le_of_ne (hx y List.mem_cons_self) h.1
      refine List.pairwise_cons.mpr ⟨fun z hz => ?_, hys⟩
      rcases List.mem_cons.mp hz with rfl | hz
      · exact hxy
      · exact hxy.trans ((List.pairwise_cons.mp hys).1 z hz)

/-- What a call of `seal` that does not throw leaves. -/
theorem Vector.seal_holds {v w : Vector} (h : v.seal = (.ok (), w)) : w.Holds v.items.toFinset := by
  unfold Vector.seal at h
  split at h
  · cases h
  · dsimp only at h
    split at h
    · cases h
    · next hdup =>
      cases h
      have hsorted : (v.items.mergeSort (· ≤ ·)).Pairwise (· ≤ ·) := List.pairwise_mergeSort' (· ≤ ·) v.items
      refine ⟨rfl, hasDuplicate_false hsorted (by simpa using hdup), ?_⟩
      exact List.toFinset_eq_of_perm _ _ (List.mergeSort_perm _ _)

/-- The one sorted list of these items. -/
theorem sort_eq {xs : List Item} {s : Finset Item} (hxs : xs.Pairwise (· < ·)) (h : xs.toFinset = s) :
    s.sort (· ≤ ·) = xs := by
  rw [← h]
  exact (List.toFinset_sort (· ≤ ·) (hxs.imp ne_of_lt)).mpr (hxs.imp le_of_lt)

theorem length_eq {xs : List Item} {s : Finset Item} (hxs : xs.Pairwise (· < ·)) (h : xs.toFinset = s) :
    xs.length = s.card := by
  rw [← h, List.toFinset_card_of_nodup (hxs.imp ne_of_lt)]

/-- A tree and a vector of the same items: both are the one sorted list. -/
theorem BTreeMem.reachable_holds (cfg : Config) (ops : List BTreeMem.Op) {v : Vector}
    (hv : v.Holds (BTreeMem.itemsAfter ∅ ops)) :
    ∃ t levels, BTreeMem.run ({} : BTreeMem cfg) ops = .ok (BTreeMem.answers ∅ ops, t) ∧ Represents cfg t levels v.items := by
  obtain ⟨t, levels, xs, hrun, h, hxs⟩ := BTreeMem.reachable cfg ops
  obtain rfl : xs = v.items := (sort_eq h.sorted hxs).symm.trans (sort_eq hv.sorted hv.toFinset)
  exact ⟨t, levels, hrun, h⟩

/-! ### The two as storages -/

section
variable [Sha256] {cfg : Config}

/-- A tree presents its items too. -/
theorem BTreeMem.presents {t : BTreeMem cfg} {levels : List (List (Levels.Entry Item))} {xs : List Item}
    (h : Represents cfg t levels xs) (hlen : xs.length < 2 ^ 64) :
    Presents t xs (fun b e => fingerprintOf (slice xs b e)) where
  length_lt := hlen
  size := h.size_ok
  getItem _ hi := h.getItem_ok hi
  iterate {α} b e cb st := by
    change BTree.iterate t b e cb st = _
    split
    · next hbe => exact h.iterate_ok hbe.1 hbe.2 cb st
    · next hbe => simp only [BTree.iterate, h.checkBounds_eq, if_neg hbe, bind, Except.bind]
  fingerprint b e := by
    change BTree.fingerprint t b e = _
    split
    · next hbe => exact h.fingerprint_ok hbe.1 hbe.2
    · next hbe => simp only [BTree.fingerprint, h.checkBounds_eq, if_neg hbe, bind, Except.bind]
  sorted := h.sorted
  findLowerBound b bound hb := by
    have hle := lowerBound_le_length xs bound.item
    change BTree.findLowerBound t b xs.length bound = _
    rw [h.findLowerBound_ok (hb.trans hle) le_rfl, Nat.min_eq_left hle]
    split_ifs with hzero hnil
    · subst hnil
      rfl
    · rw [hzero] at hb ⊢
      exact congrArg Except.ok (Nat.le_zero.mp hb)
    · rfl

/-- A tree reads like the sorted array, whatever calls have made it. -/
theorem reads_like_vector (cfg : Config) (ops : List BTreeMem.Op) {v : Vector}
    (hv : v.Holds (BTreeMem.itemsAfter ∅ ops)) :
    ∃ t, BTreeMem.run ({} : BTreeMem cfg) ops = .ok (BTreeMem.answers ∅ ops, t) ∧
      (∃ n, BTree.size t = .ok n ∧ v.size = .ok n ∧
        (∀ i < n, ∃ item, BTree.getItem t i = .ok item ∧ v.getItem i = .ok item) ∧
        (∀ {α : Type} b e (cb : α → Item → ℕ → α × Bool) (st : α), b ≤ e → e ≤ n →
          ∃ st', BTree.iterate t b e cb st = .ok st' ∧ v.iterate b e cb st = .ok st') ∧
        ∀ b e, b ≤ e → e ≤ n → ∃ f, BTree.fingerprint t b e = .ok f ∧ v.fingerprint b e = .ok f) := by
  obtain ⟨t, levels, hrun, h⟩ := BTreeMem.reachable_holds cfg ops hv
  refine ⟨t, hrun, v.items.length, h.size_ok, Vector.size_eq hv.isSealed, fun i hi => ?_, fun b e cb st hbe he => ?_,
    fun b e hbe he => ?_⟩
  · exact ⟨_, h.getItem_ok hi, Vector.getItem_eq hv.isSealed hi⟩
  · have hvec := Vector.iterate_eq hv.isSealed b e cb st
    rw [if_pos ⟨hbe, he⟩] at hvec
    exact ⟨_, h.iterate_ok hbe he cb st, hvec⟩
  · have hvec := Vector.fingerprint_eq hv.isSealed b e
    rw [if_pos ⟨hbe, he⟩] at hvec
    exact ⟨_, h.fingerprint_ok hbe he, hvec⟩

end

section

local instance agreeSha256 : Sha256 := SHA256.real

/-- Nine items inserted, over several nodes, and one of them erased. -/
def sampleOps : List BTreeMem.Op := (itemsAt (List.range 9)).map .insertItem ++ [.eraseItem (sampleItem 4 0)]

theorem sampleOps_items : (itemsAt [0, 1, 2, 3, 5, 6, 7, 8]).toFinset = BTreeMem.itemsAfter ∅ sampleOps := by decide +kernel

/-- Against the vector of the others. -/
theorem reads_like_vector_eight :
    let v : Vector := { items := itemsAt [0, 1, 2, 3, 5, 6, 7, 8], isSealed := true }
    ∃ t, BTreeMem.run ({} : BTreeMem Config.fuzzTest) sampleOps = .ok (BTreeMem.answers ∅ sampleOps, t) ∧
      BTree.getItem t 4 = .ok (sampleItem 5 0) ∧
      (∃ xs, BTree.iterate t 2 7 (fun out item _ => (out ++ [item], true)) [] = .ok xs ∧
        v.iterate 2 7 (fun out item _ => (out ++ [item], true)) [] = .ok xs) ∧
      BTree.fingerprint t 2 7 = v.fingerprint 2 7 := by
  intro v
  obtain ⟨t, hrun, n, -, hsize, hget, hiterate, hfp⟩ := reads_like_vector Config.fuzzTest sampleOps (v := v)
    ⟨rfl, itemsAt_sorted (by decide) (by decide), sampleOps_items⟩
  obtain rfl : n = 8 := by
    cases hsize
    rfl
  obtain ⟨item, hitem, hvitem⟩ := hget 4 (by decide)
  obtain ⟨xs, hxs, hvxs⟩ := hiterate 2 7 (fun out item _ => (out ++ [item], true)) [] (by decide) (by decide)
  obtain ⟨f, hf, hvf⟩ := hfp 2 7 (by decide) (by decide)
  cases hvitem
  exact ⟨t, hrun, hitem, ⟨xs, hxs, hvxs⟩, hf.trans hvf.symm⟩

end

end NE.Storage
