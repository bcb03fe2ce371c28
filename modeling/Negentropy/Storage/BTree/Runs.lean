import Negentropy.Storage.BTree.Read
import Negentropy.Storage.BTreeMem

/-! The tree in memory over a whole history of calls: it is the sorted set of the items inserted
and not erased since. -/

namespace NE.Storage.BTreeMem

open BTree Heap Levels

variable {cfg : Config}

/-- Ids are given out once, and 0 never. -/
structure Fresh (t : BTreeMem cfg) : Prop where
  pos : 0 < t.nextNodeId
  lt : ∀ id, t.nodeStorageMap id ≠ none → 0 < id ∧ id < t.nextNodeId

theorem Fresh.read {t : BTreeMem cfg} (h : Fresh t) (id : ℕ) : t.getNodeRead id = t.nodeStorageMap id := by
  rw [getNodeRead]
  split_ifs with h0
  · subst h0
    by_contra hne
    exact absurd (h.lt 0 (Ne.symm hne)).1 (lt_irrefl 0)
  · rfl

instance : LawfulNodeStore cfg (BTreeMem cfg) where
  Valid := Fresh
  nodes t := t.nodeStorageMap
  nodes_zero {t} h := by
    by_contra hne
    exact absurd (h.lt 0 hne).1 (lt_irrefl 0)
  read_zero {t} h := rfl
  read {t id node} h hnode := congrArg Except.ok ((h.read id).trans hnode)
  prepare {t id node} h hnode := ⟨t, congrArg (fun ptr => Except.ok (ptr, t)) ((h.read id).trans hnode), h, rfl, rfl⟩
  write {t id node} new h hnode := by
    refine ⟨⟨h.pos, fun i hi => ?_⟩, ?_, rfl⟩
    · by_cases hid : i = id
      · subst hid
        exact h.lt i (by simp [hnode])
      · refine h.lt i ?_
        simpa [NodeStore.writeNode, writeNode, hid] using hi
    · funext i
      simp [NodeStore.writeNode, writeNode, Function.update_apply]
  make {t} h := by
    have hfree : t.nodeStorageMap t.nextNodeId = none := by
      by_contra hne
      exact absurd (h.lt _ hne).2 (lt_irrefl _)
    refine ⟨_, _, rfl, h.pos.ne', hfree, ⟨Nat.succ_pos _, fun i hi => ?_⟩, ?_, rfl⟩
    · by_cases hid : i = t.nextNodeId
      · subst hid
        exact ⟨h.pos, Nat.lt_succ_self _⟩
      · have hi' : t.nodeStorageMap i ≠ none := by simpa [hid] using hi
        exact ⟨(h.lt i hi').1, (h.lt i hi').2.trans (Nat.lt_succ_self _)⟩
    · funext i
      by_cases hid : i = t.nextNodeId
      · subst hid
        simp [hfree]
      · simp [hid]
  delete {t id node} h hnode := by
    refine ⟨_, rfl, ⟨h.pos, fun i hi => h.lt i ?_⟩, ?_, rfl⟩
    · by_cases hid : i = id
      · subst hid
        simp [hnode]
      · simpa [deleteNode, hid] using hi
    · funext i
      simp [deleteNode, Function.update_apply]
  setRoot {t} root h := ⟨⟨h.pos, h.lt⟩, rfl, rfl⟩
  card_le {t cells} h hholds := by
    have hsub : (cells.map Prod.fst).toFinset ⊆ Finset.range t.nextNodeId := by
      intro id hid
      rw [Multiset.mem_toFinset, ← hholds.ne_none_iff] at hid
      exact Finset.mem_range.mpr (h.lt id hid).2
    have hcard := Finset.card_le_card hsub
    rw [Multiset.toFinset_card_of_nodup hholds.nodup, Multiset.card_map, Finset.card_range] at hcard
    exact hcard

/-! ### Histories -/

/-- What a set answers to a call. -/
def Op.answer (s : Finset Item) : Op → Bool
  | .insertItem item => decide (item ∉ s)
  | .eraseItem item => decide (item ∈ s)

/-- What the call leaves of it. -/
def Op.after (s : Finset Item) : Op → Finset Item
  | .insertItem item => insert item s
  | .eraseItem item => s.erase item

def answers (s : Finset Item) : List Op → List Bool
  | [] => []
  | op :: ops => op.answer s :: answers (op.after s) ops

/-- The items inserted and not erased since. -/
def itemsAfter (s : Finset Item) (ops : List Op) : Finset Item := ops.foldl Op.after s

theorem itemsAfter_inserts (s : Finset Item) (xs : List Item) :
    itemsAfter s (xs.map .insertItem) = s ∪ xs.toFinset := by
  induction xs generalizing s with
  | nil => simp [itemsAfter]
  | cons x xs ih =>
    change itemsAfter (insert x s) (xs.map .insertItem) = _
    rw [ih, List.toFinset_cons, Finset.insert_union, Finset.union_insert]

variable {t : BTreeMem cfg} {levels : List (List (Entry Item))} {xs : List Item}

theorem empty_represents : Represents cfg ({} : BTreeMem cfg) [] [] where
  stack := rfl
  sorted := List.Pairwise.nil
  rooted := rfl
  stores := ⟨⟨Nat.one_pos, fun _ h => absurd rfl h⟩, rfl, holds_empty⟩

/-- One call. -/
theorem apply_ok (h : Represents cfg t levels xs) (op : Op) :
    ∃ t' levels' xs', t.apply op = .ok (op.answer xs.toFinset, t') ∧ Represents cfg t' levels' xs' ∧
      xs'.toFinset = op.after xs.toFinset := by
  cases op with
  | insertItem item =>
    obtain ⟨t', levels', xs', heq, h', hxs'⟩ := h.insertItem_ok item
    refine ⟨t', levels', xs', ?_, h', ?_⟩
    · simpa [apply, Op.answer] using heq
    · ext y
      simp [Op.after, hxs']
  | eraseItem item =>
    obtain ⟨t', levels', xs', heq, h', hxs'⟩ := h.eraseItem_ok item
    refine ⟨t', levels', xs', ?_, h', ?_⟩
    · simpa [apply, Op.answer] using heq
    · ext y
      simp [Op.after, hxs', and_comm]

/-- A whole history. -/
theorem run_ok (ops : List Op) (h : Represents cfg t levels xs) :
    ∃ t' levels' xs', t.run ops = .ok (answers xs.toFinset ops, t') ∧ Represents cfg t' levels' xs' ∧
      xs'.toFinset = itemsAfter xs.toFinset ops := by
  induction ops generalizing t levels xs with
  | nil => exact ⟨t, levels, xs, rfl, h, rfl⟩
  | cons op ops ih =>
    obtain ⟨t1, levels1, xs1, happly, h1, hxs1⟩ := apply_ok h op
    obtain ⟨t2, levels2, xs2, hrun, h2, hxs2⟩ := ih h1
    refine ⟨t2, levels2, xs2, ?_, h2, ?_⟩
    · rw [hxs1] at hrun
      simp only [run, happly, hrun, bind, Except.bind]
      rfl
    · rw [hxs2, hxs1]
      rfl

/-- A tree that some history has left. -/
theorem reachable (cfg : Config) (ops : List Op) :
    ∃ t levels xs, run ({} : BTreeMem cfg) ops = .ok (answers ∅ ops, t) ∧ Represents cfg t levels xs ∧
      xs.toFinset = itemsAfter ∅ ops := by
  simpa using run_ok ops (@empty_represents cfg)

/-- The tree is the sorted set: it gives the answers of the set, and the size and the items that
it then reads out are those of the set. -/
theorem run_is_sorted_set (cfg : Config) (ops : List Op) :
    ∃ t xs, run ({} : BTreeMem cfg) ops = .ok (answers ∅ ops, t) ∧ BTree.size t = .ok (itemsAfter ∅ ops).card ∧
      BTree.iterate t 0 (itemsAfter ∅ ops).card (fun out item _ => (out ++ [item], true)) [] = .ok xs ∧
      xs.Pairwise (· < ·) ∧ ∀ y, y ∈ xs ↔ y ∈ itemsAfter ∅ ops := by
  obtain ⟨t, levels, xs, hrun, h, hxs⟩ := reachable cfg ops
  have hcard : (itemsAfter ∅ ops).card = xs.length := by
    rw [← hxs, List.toFinset_card_of_nodup (h.sorted.imp ne_of_lt)]
  have hiterate := h.iterate_ok (Nat.zero_le _) le_rfl (fun out item _ => (out ++ [item], true)) []
  rw [iterateItems_fold (fun out item => out ++ [item]), Sorted.slice_full] at hiterate
  refine ⟨t, xs, hrun, hcard ▸ h.size_ok, ?_, h.sorted, fun y => ?_⟩
  · rw [hcard, hiterate]
    simp [← List.flatMap_def]
  · rw [← hxs, List.mem_toFinset]

end NE.Storage.BTreeMem
