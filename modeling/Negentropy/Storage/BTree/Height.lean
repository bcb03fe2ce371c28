import Negentropy.Storage.BTree.Runs

/-! The height of the tree is logarithmic in the number of its items, and the number of its nodes linear: a call follows
few nodes, and none are wasted. -/

namespace NE.BTree

open Heap Levels NodeStore

section
variable {τ : Type} [NodeStore τ] {cfg : Config} [LawfulNodeStore cfg τ] {t : τ} {levels : List (List (Entry Item))}
  {xs : List Item} (h : Represents cfg t levels xs)
include h

theorem Represents.pow_height_le : cfg.MIN_ITEMS ^ (levels.length - 1) ≤ max 1 xs.length := by
  by_cases hroot : getRootNodeId t = 0
  · simp [(h.empty hroot).1]
  · obtain ⟨e, Ls, rfl, -, hwide⟩ := h.top hroot
    rcases eq_or_ne Ls [] with rfl | hLs
    · simp
    · -- the root has two children, and from there on only the last node of a level may be small
      have hstack := h.stack.2.2
      have hlt := hstack.pow_mul_lt (show 1 < (children [e]).length by simpa using Nat.lt_of_succ_le (hwide hLs))
      rw [Nat.mul_one, List.length_map] at hlt
      exact hlt.le.trans (le_max_right _ _)

theorem Represents.mul_card_le :
    (cfg.MIN_ITEMS - 1) * (cellsOf cfg levels).card ≤ xs.length + (cfg.MIN_ITEMS - 1) * levels.length := by
  rw [card_cellsOf]
  by_cases hroot : getRootNodeId t = 0
  · simp [(h.empty hroot).1]
  · obtain ⟨e, Ls, rfl, -⟩ := h.top hroot
    have htwo := cfg.two_le_min
    have hmin : cfg.MIN_ITEMS - 1 + 1 = cfg.MIN_ITEMS := by omega
    have hstack := h.stack
    rw [TreeStack, ← hmin] at hstack
    have hle := hstack.mul_sum_length_le (by simp)
    rw [@List.length_map _ _ xs] at hle
    exact (Nat.le_add_right _ _).trans hle

/-- A search leaves a breadcrumb at every level. -/
theorem Represents.search_length (x : Item) :
    ∃ found breadcrumbs, searchItem t (getRootNodeId t) x = .ok (found, breadcrumbs) ∧ breadcrumbs.length = levels.length := by
  by_cases hroot : getRootNodeId t = 0
  · refine ⟨false, [], ?_, by simp [(h.empty hroot).1]⟩
    rw [searchItem, hroot]
    cases maxDepth t with
    | zero => rfl
    | succ depth =>
      rw [searchFrom, h.stores.getNodeRead_zero]
      rfl
  · obtain ⟨pre, y, post, fs, -, hsearch, -, hlevels, -⟩ := h.searchItem_ok hroot x
    refine ⟨_, _, hsearch, ?_⟩
    rw [List.length_map, ← List.length_map (f := Focus.level), hlevels, List.length_reverse]

end

end NE.BTree

namespace NE.Storage.BTreeMem

open BTree

/-- Whatever the history: on `n` items a search goes through at most `1 + log n` nodes, the logarithm being to the base of
`MIN_ITEMS`, and the nodes in storage number at most `n / (MIN_ITEMS - 1)` besides those. -/
theorem search_logarithmic (cfg : Config) (ops : List Op) :
    ∃ t height, run ({} : BTreeMem cfg) ops = .ok (answers ∅ ops, t) ∧
      cfg.MIN_ITEMS ^ (height - 1) ≤ max 1 (itemsAfter ∅ ops).card ∧
      (∀ x, ∃ found breadcrumbs, searchItem t t.rootNodeId x = .ok (found, breadcrumbs) ∧ breadcrumbs.length = height) ∧
      ∃ ids : Finset ℕ, (∀ id, t.nodeStorageMap id ≠ none ↔ id ∈ ids) ∧
        (cfg.MIN_ITEMS - 1) * ids.card ≤ (itemsAfter ∅ ops).card + (cfg.MIN_ITEMS - 1) * height := by
  obtain ⟨t, levels, xs, hrun, h, hxs⟩ := reachable cfg ops
  have hcard : (itemsAfter ∅ ops).card = xs.length := by
    rw [← hxs, List.toFinset_card_of_nodup (h.sorted.imp ne_of_lt)]
  have hholds := h.stores.holds
  refine ⟨t, levels.length, hrun, hcard ▸ h.pow_height_le, fun x => h.search_length x,
    ((cellsOf cfg levels).map Prod.fst).toFinset, fun id => ?_, ?_⟩
  · rw [Multiset.mem_toFinset]
    exact hholds.ne_none_iff
  · rw [Multiset.toFinset_card_of_nodup hholds.nodup, Multiset.card_map, hcard]
    exact h.mul_card_le

end NE.Storage.BTreeMem
