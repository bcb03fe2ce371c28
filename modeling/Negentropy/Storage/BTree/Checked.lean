import Mathlib.Data.List.GetD
import Negentropy.Storage.BTree.Leaves

/-! `verify` of `storage/btree/debug.h` accepts just the storages that are a tree, up to what it does not look at. -/

namespace NE.BTree

open Generations Stateful NodeStore

/-- The storage is a tree of this height, as far as `verify` looks at it: above the leaves it ignores the links between
siblings, and behind the last leaf the link may lead to a node that is not there. -/
structure Checked (cfg : Config) (nodes : ℕ → Option Node) (root height : ℕ) : Prop where
  rooted : root ≠ 0 → 0 < height
  stored : ∀ id, nodes id ≠ none ↔ ∃ depth < height, id ∈ level cfg nodes root depth
  distinct : ((List.range height).flatMap (level cfg nodes root)).Nodup
  leaves : ∀ depth < height, ∀ id ∈ level cfg nodes root depth, ∀ k ∈ keysOf (nodeAt cfg nodes id),
    k.nodeId = 0 ↔ depth + 1 = height
  sized : ∀ id node, nodes id = some node → Sized cfg node
  ascending : ∀ id node, nodes id = some node → (keysOf node).Pairwise (· < ·)
  first : ∀ id node, nodes id = some node → ∀ k ∈ keysOf node, k.nodeId ≠ 0 →
    ∃ child, nodes k.nodeId = some child ∧ (child.key 0).item = k.item
  sums : ∀ depth < height, ∀ id node, id ∈ level cfg nodes root depth → nodes id = some node →
    node.accumCount = (itemsBelow cfg nodes (height - depth) id).length ∧
    node.accum.toNat = ((itemsBelow cfg nodes (height - depth) id).map fun x => LittleEndian.value x.id.bytes).sum % 2 ^ 256
  linked : ∀ depth, depth + 1 = height →
    Linked nodes 0 ((level cfg nodes root depth).headD 0) (level cfg nodes root depth)
  ordered : ∀ depth, depth + 1 = height → ((level cfg nodes root depth).flatMap (itemsBelow cfg nodes 1)).Pairwise (· < ·)

/-! ### The whole tree -/

section
variable {cfg : Config} {nodes : ℕ → Option Node} {root h : ℕ}

/-- No item is among the keys of a node above the leaves. -/
def NoStrays (cfg : Config) (nodes : ℕ → Option Node) (ids : List ℕ) : Prop :=
  ∀ id ∈ ids, isLeaf cfg nodes id = false → ∀ k ∈ keysOf (nodeAt cfg nodes id), k.nodeId ≠ 0

theorem sum_split (p : ℕ → Bool) (f : ℕ → ℕ) (ids : List ℕ) :
    (ids.map f).sum = ((ids.filter p).map f).sum + ((ids.filter (!p ·)).map f).sum := by
  induction ids with
  | nil => rfl
  | cons id ids ih =>
    cases hp : p id <;> simp [hp, ih] <;> omega

theorem Under.mem_preorder (hu : Under cfg nodes h root) {y : ℕ} (hy : y ∈ preorder (kids cfg nodes) h root) :
    ∃ i ≤ h, y ∈ Generations.generation (kids cfg nodes) [root] i ∧ Under cfg nodes (h - i) y := by
  obtain ⟨i, hi, hgen⟩ := (Generations.mem_preorder _).mp hy
  obtain ⟨m, rfl, hm⟩ := hu.generation hgen
  exact ⟨i, hi, hgen, by rwa [Nat.add_sub_cancel]⟩

/-- A leaf has items only. -/
theorem Under.leaf (hu : Under cfg nodes h root) {y : ℕ} (hy : y ∈ preorder (kids cfg nodes) h root)
    (hleaf : isLeaf cfg nodes y = true) : Under cfg nodes 0 y := by
  obtain ⟨i, -, -, hm⟩ := hu.mem_preorder hy
  obtain ⟨node, ha⟩ := hm.accepted
  rw [isLeaf, decide_eq_true_eq, nodeAt_of_stored ha.stored] at hleaf
  rwa [ha.leaf.mp hleaf] at hm

theorem length_ownItems_leaf {y : ℕ} (hu : Under cfg nodes 0 y) :
    (ownItems cfg nodes y).length = (keyItems cfg nodes y).length := by
  obtain ⟨node, ha⟩ := hu.accepted
  have hzero := ((under_zero ha.stored).mp hu).2
  rw [ownItems_eq ha.stored, keyItems, nodeAt_of_stored ha.stored, List.filter_eq_self.mpr fun k hk => by simpa using hzero k hk]

variable (harray : ∀ id node, nodes id = some node → node.items.length = cfg.MAX_ITEMS + 1)
include harray

/-- The items of the leaves are all items there are just when the other nodes have none. -/
theorem Under.leaves_iff (hu : Under cfg nodes h root) {W R : List ℕ}
    (hsplit : (preorder (kids cfg nodes) h root).filter (isLeaf cfg nodes) = W ++ R) :
    (W.flatMap (keyItems cfg nodes)).length = (itemsBelow cfg nodes (h + 1) root).length ↔
      R = [] ∧ NoStrays cfg nodes (preorder (kids cfg nodes) h root) := by
  have hleaf : ∀ y ∈ W ++ R, Under cfg nodes 0 y := by
    intro y hy
    rw [← hsplit] at hy
    exact hu.leaf (List.mem_filter.mp hy).1 (List.mem_filter.mp hy).2
  have hW : (W.flatMap (keyItems cfg nodes)).length = (W.map fun id => (ownItems cfg nodes id).length).sum := by
    rw [List.length_flatMap, List.map_congr_left fun y hy => (length_ownItems_leaf (hleaf y (by simp [hy]))).symm]
  have hR : (R.map fun id => (ownItems cfg nodes id).length).sum = 0 ↔ R = [] := by
    refine ⟨fun hsum => List.eq_nil_iff_forall_not_mem.mpr fun y hy => ?_, by rintro rfl; rfl⟩
    obtain ⟨node, ha⟩ := (hleaf y (by simp [hy])).accepted
    have h0 := List.sum_eq_zero_iff.mp hsum _ (List.mem_map_of_mem hy)
    have hlen := harray y node ha.stored
    rw [length_ownItems_leaf (hleaf y (by simp [hy])), keyItems, nodeAt_of_stored ha.stored, keysOf, List.length_map,
      List.length_take] at h0
    have hpos := ha.sized.pos
    omega
  have hrest : (((preorder (kids cfg nodes) h root).filter (!isLeaf cfg nodes ·)).map fun id =>
      (ownItems cfg nodes id).length).sum = 0 ↔ NoStrays cfg nodes (preorder (kids cfg nodes) h root) := by
    rw [List.sum_eq_zero_iff, List.forall_mem_map]
    simp [ownItems, NoStrays]
  rw [hW, hu.length_itemsBelow, sum_split (isLeaf cfg nodes) _ (preorder _ _ _), hsplit, List.map_append, List.sum_append, ← hR,
    ← hrest]
  omega

end

section
variable {cfg : Config} {nodes : ℕ → Option Node} {root h : ℕ}

variable (cfg nodes root h) in
/-- What `verify` finds out before the check for leaks, the root being so many levels above the leaves. -/
structure Verified : Prop where
  under : Under cfg nodes h root
  nodup : (preorder (kids cfg nodes) h root).Nodup
  strays : NoStrays cfg nodes (preorder (kids cfg nodes) h root)
  linked : Linked nodes 0 ((Generations.generation (kids cfg nodes) [root] h).headD 0)
    (Generations.generation (kids cfg nodes) [root] h)
  ordered : ((Generations.generation (kids cfg nodes) [root] h).flatMap (keyItems cfg nodes)).Pairwise (· < ·)

theorem Under.itemsBelow_one {y : ℕ} (hu : Under cfg nodes 0 y) : itemsBelow cfg nodes 1 y = keyItems cfg nodes y := by
  obtain ⟨node, ha⟩ := hu.accepted
  rw [itemsBelow_eq ha.stored, itemsUnder_of_zero ((under_zero ha.stored).mp hu).2, keyItems, nodeAt_of_stored ha.stored]

theorem Verified.checked (hv : Verified cfg nodes root h) (hroot : root ≠ 0)
    (hstored : ∀ id, nodes id ≠ none ↔ id ∈ preorder (kids cfg nodes) h root) : Checked cfg nodes root (h + 1) where
  rooted _ := Nat.succ_pos h
  stored id := by
    rw [hstored, mem_preorder]
    simp only [level_eq_generation hroot, Nat.lt_succ_iff]
  distinct := by
    rw [List.flatMap_congr fun depth _ => level_eq_generation hroot depth]
    exact (preorder_perm _ h root).nodup_iff.mp hv.nodup
  leaves := by
    intro depth hd id hid k hk
    rw [level_eq_generation hroot] at hid
    obtain ⟨hle, ha⟩ := hv.under.accepted_at hid
    have hpre := (mem_preorder _).mpr ⟨depth, hle, hid⟩
    by_cases hlast : depth = h
    · subst hlast
      obtain ⟨m, hm, hu⟩ := hv.under.generation hid
      obtain rfl : m = 0 := by omega
      simpa using ((under_zero ha.stored).mp hu).2 k hk
    · have hleaf : isLeaf cfg nodes id = false := by
        rw [isLeaf, decide_eq_false_iff_not, ha.leaf]
        omega
      have hstray := hv.strays id hpre hleaf k hk
      omega
  sized id node hnode := by
    obtain ⟨i, -, -, hu⟩ := hv.under.mem_preorder ((hstored id).mp (by simp [hnode]))
    obtain ⟨node', ha⟩ := hu.accepted
    obtain rfl := Option.some.inj (hnode.symm.trans ha.stored)
    exact ha.sized
  ascending id node hnode := by
    obtain ⟨i, -, -, hu⟩ := hv.under.mem_preorder ((hstored id).mp (by simp [hnode]))
    obtain ⟨node', ha⟩ := hu.accepted
    obtain rfl := Option.some.inj (hnode.symm.trans ha.stored)
    exact ha.ascending
  first id node hnode k hk hk0 := by
    obtain ⟨i, -, -, hu⟩ := hv.under.mem_preorder ((hstored id).mp (by simp [hnode]))
    obtain ⟨node', ha⟩ := hu.accepted
    obtain rfl := Option.some.inj (hnode.symm.trans ha.stored)
    obtain ⟨child, hchild, -, hfirst⟩ := ha.first k hk hk0
    exact ⟨child, hchild, hfirst⟩
  sums depth hd id node hid hnode := by
    rw [level_eq_generation hroot] at hid
    obtain ⟨hle, ha⟩ := hv.under.accepted_at hid
    rw [nodeAt_of_stored hnode] at ha
    obtain ⟨hcount, haccum⟩ := ha.totals
    rw [← hcount, ← haccum, Nat.sub_add_comm hle]
    simp [tally, Accumulator.setToZero_eq, Accumulator.toNat_sum]
  linked depth hd := by
    obtain rfl : depth = h := by omega
    rw [level_eq_generation hroot]
    exact hv.linked
  ordered depth hd := by
    obtain rfl : depth = h := by omega
    have hleaves : ∀ y ∈ level cfg nodes root depth, itemsBelow cfg nodes 1 y = keyItems cfg nodes y := by
      intro y hy
      rw [level_eq_generation hroot] at hy
      obtain ⟨m, hm, hu⟩ := hv.under.generation hy
      obtain rfl : m = 0 := by omega
      exact hu.itemsBelow_one
    rw [List.flatMap_congr hleaves, level_eq_generation hroot]
    exact hv.ordered

section
variable (hc : Checked cfg nodes root (h + 1)) (harray : ∀ id node, nodes id = some node → node.items.length = cfg.MAX_ITEMS + 1)
include hc harray

theorem Checked.accepted {m depth y : ℕ} (hm : m + depth = h) (hy : y ∈ level cfg nodes root depth) :
    ∃ node, Accepted cfg nodes m y node := by
  obtain ⟨node, hnode⟩ := Option.ne_none_iff_exists'.mp ((hc.stored y).mpr ⟨depth, by omega, hy⟩)
  have hsized := hc.sized y node hnode
  refine ⟨node, hnode, hsized, ?_, hc.ascending y node hnode, fun k hk hk0 => ?_, ?_⟩
  · have hlen := harray y node hnode
    have hpos := hsized.pos
    have hmem : node.key 0 ∈ keysOf (nodeAt cfg nodes y) := by
      rw [nodeAt_of_stored hnode, keysOf, Node.key, List.mem_take_iff_getElem]
      exact ⟨0, by omega, by simp [List.getD_eq_getElem?_getD, List.getElem?_eq_getElem (show 0 < node.items.length by omega)]⟩
    rw [hc.leaves depth (by omega) y hy _ hmem]
    omega
  · obtain ⟨child, hchild, hfirst⟩ := hc.first y node hnode k hk hk0
    exact ⟨child, hchild, (hc.sized _ _ hchild).pos.ne', hfirst⟩
  · obtain ⟨hcount, haccum⟩ := hc.sums depth (by omega) y node hy hnode
    rw [show h + 1 - depth = m + 1 by omega] at hcount haccum
    refine ⟨by simp [tally, hcount], Accumulator.toNat_inj ?_⟩
    rw [haccum]
    simp [tally, Accumulator.setToZero_eq, Accumulator.toNat_sum]

theorem Checked.under {m depth y : ℕ} (hm : m + depth = h) (hy : y ∈ level cfg nodes root depth) : Under cfg nodes m y := by
  obtain ⟨node, ha⟩ := hc.accepted harray hm hy
  have hleaves := hc.leaves depth (by omega) y hy
  rw [nodeAt_of_stored ha.stored] at hleaves
  induction m generalizing depth y node with
  | zero => exact (under_zero ha.stored).mpr ⟨ha, fun k hk => (hleaves k hk).mpr (by omega)⟩
  | succ m ih =>
    refine (under_succ ha.stored).mpr ⟨ha, fun k hk hk0 => ?_⟩
    have hkid : k.nodeId ∈ level cfg nodes root (depth + 1) :=
      List.mem_flatMap.mpr ⟨y, hy, (mem_kids ha.stored).mpr ⟨k, hk, hk0, rfl⟩⟩
    obtain ⟨child, hchild⟩ := hc.accepted harray (show m + (depth + 1) = h by omega) hkid
    have hnext := hc.leaves (depth + 1) (by omega) _ hkid
    rw [nodeAt_of_stored hchild.stored] at hnext
    exact ih (by omega) hkid child hchild hnext

theorem Checked.verified (hroot : root ≠ 0) : Verified cfg nodes root h := by
  have hu : Under cfg nodes h root := hc.under harray (Nat.add_zero h) (by simp [level, hroot])
  refine ⟨hu, ?_, fun id hid hleaf k hk => ?_, ?_, ?_⟩
  · rw [(preorder_perm _ h root).nodup_iff, ← List.flatMap_congr fun depth _ => level_eq_generation hroot depth]
    exact hc.distinct
  · obtain ⟨i, hi, hgen, hm⟩ := hu.mem_preorder hid
    obtain ⟨node, ha⟩ := hm.accepted
    rw [isLeaf, nodeAt_of_stored ha.stored, decide_eq_false_iff_not, ha.leaf] at hleaf
    rw [← level_eq_generation hroot] at hgen
    rw [Ne, hc.leaves i (by omega) id hgen k hk]
    omega
  · rw [← level_eq_generation hroot]
    exact hc.linked h rfl
  · have hleaves : ∀ y ∈ level cfg nodes root h, itemsBelow cfg nodes 1 y = keyItems cfg nodes y := fun y hy =>
      (hc.under harray (Nat.zero_add h) hy).itemsBelow_one
    rw [← level_eq_generation hroot, ← List.flatMap_congr hleaves]
    exact hc.ordered h rfl

end

end

section
variable {τ : Type} [NodeStore τ] {cfg : Config} {nodes : ℕ → Option Node} {t : τ} {n : ℕ}

theorem verifyTree_zero (hroot : getRootNodeId t = 0) : verifyTree cfg t (n + 1) = .ok {} := by
  simp [verifyTree, verifyNode, hroot, pure, Except.pure, bind, Except.bind]

theorem getNodeRead_of_readNode {id : ℕ} {node : Node} (h : readNode t id = .ok node) :
    getNodeRead t id = .ok (some node) := by
  obtain ⟨ptr, hread, hderef⟩ := except_bind_eq_ok.mp h
  cases ptr with
  | none => simp [deref] at hderef
  | some node' =>
    obtain rfl := Except.ok.inj hderef
    exact hread

section
variable (hnext : ∀ id node, nodes id = some node → getNodeRead t node.nextSibling = .ok (nodes node.nextSibling))
  (hread : ∀ id node, id ≠ 0 → (readNode t id = .ok node ↔ nodes id = some node))
include hnext hread

theorem verifyTree_of_verified {h : ℕ} (harray : ∀ id node, nodes id = some node → node.items.length = cfg.MAX_ITEMS + 1)
    (hroot : getRootNodeId t ≠ 0) (hn : h < n) (hv : Verified cfg nodes (getRootNodeId t) h) :
    verifyTree cfg t n = .ok (VerifyContext.add cfg nodes {} h (preorder (kids cfg nodes) h (getRootNodeId t))) := by
  have hu := hv.under
  have hids : (VerifyContext.add cfg nodes {} (0 + h) (preorder (kids cfg nodes) h (getRootNodeId t))).leafNodeIds =
      generation (kids cfg nodes) [getRootNodeId t] h := by
    rw [add_of_ne_nil (preorder_ne_nil _ _), hu.filter_preorder]
    rfl
  obtain ⟨first, rest, hleaves⟩ := List.exists_cons_of_ne_nil hu.exists_leaf
  have hcount := (hu.leaves_iff harray (hu.filter_preorder.trans (List.append_nil _).symm)).mpr ⟨rfl, hv.strays⟩
  have hlinked := hv.linked
  have hordered := hv.ordered
  rw [hleaves] at hlinked hordered hcount
  have hfirst : getNodeRead t first = .ok (nodes first) := by
    obtain ⟨-, node, hnode, -⟩ := hlinked
    have hmem : first ∈ level cfg nodes (getRootNodeId t) h := by simp [level_eq_generation hroot, hleaves]
    rw [getNodeRead_of_readNode ((hread first node (ne_zero_of_mem_level hmem).1).mpr hnode), hnode]
  rw [verifyTree]
  simp only [except_bind_eq_ok, verifyNode_eq_ok hread hroot]
  refine ⟨_, ⟨h, hn, hu, ⟨fun _ => by simp, hv.nodup, by simp⟩, rfl⟩, ?_⟩
  simp only [hids, hleaves, except_bind_eq_ok, throwIf_eq_ok, hfirst, Except.ok.injEq, exists_eq_left']
  refine ⟨_, @verifyLeaves_of_linked _ _ cfg nodes t hnext _ _ _ [] hlinked hordered, (), ?_, by simp [pure, Except.pure]⟩
  simpa [tally] using hcount

/-- Each level has a node of its own, and so there are no more of them than ids. -/
theorem Checked.verifyTree_ok {height : ℕ} (hc : Checked cfg nodes (getRootNodeId t) height)
    (harray : ∀ id node, nodes id = some node → node.items.length = cfg.MAX_ITEMS + 1)
    {ids : List ℕ} (hids : ∀ id, nodes id ≠ none → id ∈ ids) (hrounds : ids.length < n) :
    ∃ ctx, verifyTree cfg t n = .ok ctx ∧ ∀ id, nodes id ≠ none ↔ id ∈ ctx.allNodeIds := by
  obtain ⟨n, rfl⟩ := Nat.exists_eq_add_one_of_ne_zero (Nat.ne_zero_of_lt hrounds)
  by_cases hroot : getRootNodeId t = 0
  · refine ⟨{}, verifyTree_zero hroot, fun id => ?_⟩
    rw [hc.stored]
    refine ⟨?_, fun hid => absurd hid (Finset.notMem_empty id)⟩
    rintro ⟨d, -, hid⟩
    exact absurd hroot (ne_zero_of_mem_level hid).2
  · obtain ⟨h, rfl⟩ := Nat.exists_eq_add_one_of_ne_zero (hc.rooted hroot).ne'
    have hv := hc.verified harray hroot
    have hstored : ∀ id, nodes id ≠ none ↔ id ∈ preorder (kids cfg nodes) h (getRootNodeId t) := by
      intro id
      rw [hc.stored, mem_preorder]
      simp only [level_eq_generation hroot, Nat.lt_succ_iff]
    have hsub : (preorder (kids cfg nodes) h (getRootNodeId t)).Subperm ids :=
      List.subperm_of_subset hv.nodup fun id hid => hids id ((hstored id).mpr hid)
    have hle := hsub.length_le
    have hlt := hv.under.lt_length_preorder
    refine ⟨_, verifyTree_of_verified hnext hread harray hroot (by omega) hv, fun id => ?_⟩
    rw [hstored, add_of_ne_nil (preorder_ne_nil _ _)]
    simp only [Finset.mem_union, Finset.notMem_empty, false_or, List.mem_toFinset]

end

variable (hget : ∀ id, getNodeRead t id = .ok (nodes id))
include hget

theorem readNode_eq_ok {id : ℕ} {node : Node} : readNode t id = .ok node ↔ nodes id = some node := by
  rw [readNode, hget]
  cases nodes id <;> simp [bind, Except.bind, deref]

/-- All but the check for leaks. -/
theorem verifyTree_eq_ok {ctx : VerifyContext} (harray : ∀ id node, nodes id = some node → node.items.length = cfg.MAX_ITEMS + 1)
    (hroot : getRootNodeId t ≠ 0) : verifyTree cfg t n = .ok ctx ↔
      ∃ h < n, Verified cfg nodes (getRootNodeId t) h ∧
        ctx = VerifyContext.add cfg nodes {} h (preorder (kids cfg nodes) h (getRootNodeId t)) := by
  have hread : ∀ id node, id ≠ 0 → (readNode t id = .ok node ↔ nodes id = some node) := fun _ _ _ => readNode_eq_ok hget
  constructor
  · intro hverify
    rw [verifyTree] at hverify
    simp only [except_bind_eq_ok, verifyNode_eq_ok hread hroot] at hverify
    obtain ⟨r, ⟨h, hn, hu, hadmits, rfl⟩, hwalk⟩ := hverify
    have hids : (VerifyContext.add cfg nodes {} (0 + h) (preorder (kids cfg nodes) h (getRootNodeId t))).leafNodeIds =
        generation (kids cfg nodes) [getRootNodeId t] h := by
      rw [add_of_ne_nil (preorder_ne_nil _ _), hu.filter_preorder]
      rfl
    obtain ⟨first, rest, hleaves⟩ := List.exists_cons_of_ne_nil hu.exists_leaf
    simp only [hids, hleaves, except_bind_eq_ok, throwIf_eq_ok, hget, Except.ok.injEq, exists_eq_left'] at hwalk
    obtain ⟨total, hwalk, -, htotal, hctx⟩ := hwalk
    obtain ⟨W, R, hsplit, hlinked, hasc, rfl⟩ := (@verifyLeaves_eq_ok _ _ cfg nodes t hget _ _ _ _ [] List.Pairwise.nil).mp hwalk
    have hcount := not_not.mp htotal
    rw [List.nil_append] at hcount hasc
    obtain ⟨rfl, hstrays⟩ := (hu.leaves_iff harray (hu.filter_preorder.trans (hleaves.trans hsplit))).mp (by simpa [tally] using hcount)
    rw [List.append_nil] at hsplit
    refine ⟨h, hn, ⟨hu, hadmits.nodup, hstrays, ?_, ?_⟩, ?_⟩
    · rw [hleaves]
      change Linked nodes 0 first (first :: rest)
      rwa [hsplit]
    · rwa [hleaves, hsplit]
    · simpa [pure, Except.pure] using hctx.symm
  · rintro ⟨h, hn, hv, rfl⟩
    exact verifyTree_of_verified (fun _ node _ => hget node.nextSibling) hread harray hroot hn hv

end

/-! ### Well-formed trees -/

section
variable {cfg : Config} {nodes : ℕ → Option Node} {root height : ℕ} (hw : WellFormed cfg nodes root height)
include hw

theorem WellFormed.nodes_zero : nodes 0 = none := by
  by_contra hne
  obtain ⟨d, -, hid⟩ := (hw.stored 0).mp hne
  exact (ne_zero_of_mem_level hid).1 rfl

/-- From any place in a level on the nodes follow each other. -/
theorem WellFormed.linked_drop {depth n i : ℕ} (hd : depth < height) (hi : i + n = (level cfg nodes root depth).length) :
    Linked nodes (if i = 0 then 0 else (level cfg nodes root depth).getD (i - 1) 0) ((level cfg nodes root depth).getD i 0)
      ((level cfg nodes root depth).drop i) := by
  induction n generalizing i with
  | zero =>
    rw [List.drop_eq_nil_of_le (by omega), Linked, List.getD_eq_default _ _ (by omega)]
    exact hw.nodes_zero
  | succ n ih =>
    have hlt : i < (level cfg nodes root depth).length := by omega
    obtain ⟨node, hnode⟩ := Option.ne_none_iff_exists'.mp ((hw.stored _).mpr ⟨depth, hd, List.getElem_mem hlt⟩)
    obtain ⟨hnext, hprev⟩ := hw.linked depth i _ node (List.getElem?_eq_getElem hlt) hnode
    have hrest := @ih (i + 1) (by omega)
    rw [if_neg (Nat.succ_ne_zero i), Nat.add_sub_cancel, List.getD_eq_getElem _ _ hlt] at hrest
    rw [List.drop_eq_getElem_cons hlt, List.getD_eq_getElem _ _ hlt]
    exact ⟨rfl, node, hnode, hprev, hnext ▸ hrest⟩

/-- Links between siblings lead to nodes that there are. -/
theorem WellFormed.nextSibling_cases {id : ℕ} {node : Node} (hnode : nodes id = some node) :
    node.nextSibling = 0 ∨ ∃ next, nodes node.nextSibling = some next := by
  obtain ⟨depth, hdepth, hid⟩ := (hw.stored id).mp (by simp [hnode])
  obtain ⟨i, hi⟩ := List.mem_iff_getElem?.mp hid
  rw [(hw.linked depth i id node hi hnode).1, List.getD_eq_getElem?_getD]
  cases hlink : (level cfg nodes root depth)[i + 1]? with
  | none => exact Or.inl rfl
  | some next => exact Or.inr (Option.ne_none_iff_exists'.mp ((hw.stored next).mpr ⟨depth, hdepth, List.mem_of_getElem? hlink⟩))

theorem WellFormed.checked (hroot : root ≠ 0 → 0 < height) : Checked cfg nodes root height where
  rooted := hroot
  stored := hw.stored
  distinct := hw.distinct
  leaves := hw.leaves
  sized id node hnode := by
    obtain ⟨hpos, hle, hge⟩ := hw.size id node hnode
    refine ⟨hpos, hle, hge, fun k hk => ?_⟩
    obtain ⟨j, hj, rfl⟩ := List.mem_iff_getElem.mp hk
    rw [List.length_drop] at hj
    have hkey := (hw.zeroed id node hnode).2 (node.numItems + j) (by omega)
    rw [Node.key, List.getD_eq_getElem _ _ (by omega)] at hkey
    rwa [List.getElem_drop]
  ascending := hw.ascending
  first := hw.first
  sums depth _ id node hid hnode := hw.sums depth id node hid hnode
  linked depth hd := by
    have hlinked := @WellFormed.linked_drop _ _ _ _ hw depth _ 0 (by omega) (Nat.zero_add _)
    rwa [List.drop_zero, if_pos rfl, List.getD_eq_getElem?_getD, ← List.head?_eq_getElem?, ← List.headD_eq_head?_getD] at hlinked
  ordered depth hd := by
    have hordered := hw.ordered depth (by omega)
    rwa [show height - depth = 1 by omega] at hordered

end

end NE.BTree

namespace NE.Storage.BTreeMem

open BTree

variable {cfg : Config} {t : BTreeMem cfg}

theorem getNodeRead_of_zero (h : t.nodeStorageMap 0 = none) : t.getNodeRead = t.nodeStorageMap := by
  funext id
  rw [getNodeRead]
  split_ifs with h0
  · rw [h0, h]
  · rfl

/-- An empty tree. -/
theorem checked_zero {height : ℕ} (hroot : t.rootNodeId = 0) :
    Checked cfg t.nodeStorageMap t.rootNodeId height ↔ ∀ id, t.nodeStorageMap id = none := by
  have hlevel (d : ℕ) : level cfg t.nodeStorageMap t.rootNodeId d = [] :=
    List.eq_nil_iff_forall_not_mem.mpr fun id hid => (ne_zero_of_mem_level hid).2 hroot
  constructor
  · intro hc id
    by_contra hne
    obtain ⟨d, -, hid⟩ := (hc.stored id).mp hne
    simp [hlevel] at hid
  · intro hnone
    have hdistinct : ((List.range height).flatMap (level cfg t.nodeStorageMap t.rootNodeId)).Nodup := by
      rw [List.flatMap_eq_nil_iff.mpr fun d _ => hlevel d]
      exact List.nodup_nil
    exact ⟨fun h => absurd hroot h, by simp [hnone, hlevel], hdistinct, by simp [hlevel], by simp [hnone], by simp [hnone],
      by simp [hnone], by simp [hlevel], by simp [hlevel, Linked, hnone], by simp [hlevel]⟩

/-- The keys of the map, in any order. -/
def Keys (t : BTreeMem cfg) (keys : List ℕ) : Prop := ∀ id, id ∈ keys ↔ t.nodeStorageMap id ≠ none

section
variable {keys : List ℕ} (hkeys : t.Keys keys)
include hkeys

/-- The check for leaks: the nodes met are just those in storage. -/
theorem leaks_eq_ok {allNodeIds : Finset ℕ} :
    (¬ ∃ id ∈ keys, id ∉ allNodeIds) ∧ (¬ ∃ id ∈ allNodeIds, t.nodeStorageMap id = none) ↔
      ∀ id, t.nodeStorageMap id ≠ none ↔ id ∈ allNodeIds := by
  constructor
  · intro h id
    refine ⟨fun hne => by_contra fun hmem => h.1 ⟨id, (hkeys id).mpr hne, hmem⟩, fun hmem hnone => ?_⟩
    exact h.2 ⟨id, hmem, hnone⟩
  · intro h
    refine ⟨fun hleak => ?_, fun hdangling => ?_⟩
    · obtain ⟨id, hid, hmem⟩ := hleak
      exact hmem ((h id).mp ((hkeys id).mp hid))
    · obtain ⟨id, hmem, hnone⟩ := hdangling
      exact (h id).mpr hmem hnone

theorem verify_eq_ok {rounds : ℕ} : t.verify rounds keys = .ok () ↔
    ∃ ctx, verifyTree cfg t rounds = .ok ctx ∧ ∀ id, t.nodeStorageMap id ≠ none ↔ id ∈ ctx.allNodeIds := by
  rw [verify]
  simp only [Stateful.except_bind_eq_ok, throwIf_eq_ok, ← leaks_eq_ok hkeys]
  simp

variable {rounds : ℕ} (harray : ∀ id node, t.nodeStorageMap id = some node → node.items.length = cfg.MAX_ITEMS + 1)
include harray

theorem checked_of_verify (hverify : t.verify rounds keys = .ok ()) :
    ∃ height, Checked cfg t.nodeStorageMap t.rootNodeId height := by
  obtain ⟨ctx, htree, hstored⟩ := (verify_eq_ok hkeys).mp hverify
  by_cases hroot : t.rootNodeId = 0
  · cases rounds with
    | zero => simp [verifyTree, verifyNode, throw, throwThe, MonadExceptOf.throw, bind, Except.bind] at htree
    | succ n =>
      rw [verifyTree_zero hroot] at htree
      obtain rfl := Except.ok.inj htree
      exact ⟨0, (checked_zero hroot).mpr fun id => by simpa using hstored id⟩
  · have harray' : ∀ id node, t.getNodeRead id = some node → node.items.length = cfg.MAX_ITEMS + 1 := by
      intro id node hnode
      rw [getNodeRead] at hnode
      split_ifs at hnode
      exact harray id node hnode
    obtain ⟨h, -, hv, rfl⟩ := (verifyTree_eq_ok (fun _ => rfl) harray' hroot).mp htree
    rw [add_of_ne_nil (preorder_ne_nil _ _)] at hstored
    simp only [Finset.mem_union, Finset.notMem_empty, false_or, List.mem_toFinset] at hstored
    have hzero : t.nodeStorageMap 0 = none := by
      by_contra hne
      obtain ⟨i, -, -, hu⟩ := hv.under.mem_preorder ((hstored 0).mp hne)
      obtain ⟨node, ha⟩ := hu.accepted
      exact absurd ha.stored (by simp [getNodeRead])
    rw [getNodeRead_of_zero hzero] at hv hstored
    exact ⟨h + 1, hv.checked hroot hstored⟩

theorem verify_of_checked {height : ℕ} (hc : Checked cfg t.nodeStorageMap t.rootNodeId height) {ids : List ℕ}
    (hids : ∀ id, t.nodeStorageMap id ≠ none → id ∈ ids) (hrounds : ids.length < rounds) : t.verify rounds keys = .ok () := by
  have hzero : t.nodeStorageMap 0 = none := by
    by_contra hne
    obtain ⟨d, -, hid⟩ := (hc.stored 0).mp hne
    exact (ne_zero_of_mem_level hid).1 rfl
  have hget (id : ℕ) : NodeStore.getNodeRead t id = .ok (t.nodeStorageMap id) :=
    congrArg Except.ok (congrFun (getNodeRead_of_zero hzero) id)
  exact (verify_eq_ok hkeys).mpr
    (hc.verifyTree_ok (fun _ node _ => hget node.nextSibling) (fun _ _ _ => readNode_eq_ok hget) harray hids hrounds)

/-- `verify` accepts just the storages that are a tree, as far as it looks at them. The tree has no more levels than the map
has keys, so the bound on the depth does not matter. -/
theorem verify_iff (hrounds : keys.length < rounds) :
    t.verify rounds keys = .ok () ↔ ∃ height, Checked cfg t.nodeStorageMap t.rootNodeId height := by
  refine ⟨checked_of_verify hkeys harray, fun h => ?_⟩
  obtain ⟨height, hc⟩ := h
  exact verify_of_checked hkeys harray hc (fun id => (hkeys id).mpr) hrounds

end

/-- A leaf that the root does not lead to, under an id that was not given out. -/
example : ({ nodeStorageMap := fun id => if id = 5 then some (Node.zero .fuzzTest) else none, rootNodeId := 0, nextNodeId := 1 } :
    BTreeMem .fuzzTest).verify 2 [5] = .error (.err "verify: memory leak") := by
  rw [verify, verifyTree_zero rfl]
  rfl

/-- The tree of the items with these timestamps, put in one after the other. -/
def ofTimestamps (cfg : Config) (timestamps : List UInt64) : BTreeMem cfg :=
  match run ({} : BTreeMem cfg) (timestamps.map fun timestamp => .insertItem { timestamp }) with
  | .ok r => r.2
  | .error _ => {}

theorem ofTimestamps_represents (cfg : Config) (timestamps : List UInt64) :
    ∃ levels xs, Represents cfg (ofTimestamps cfg timestamps) levels xs := by
  obtain ⟨t, levels, xs, hrun, h, -⟩ := reachable cfg (timestamps.map fun timestamp => .insertItem { timestamp })
  refine ⟨levels, xs, ?_⟩
  rw [ofTimestamps, hrun]
  exact h

/-- The ids below the next one that are in the map. -/
theorem keys_of_lt (hids : ∀ id, t.nodeStorageMap id ≠ none → id < t.nextNodeId) :
    t.Keys ((List.range t.nextNodeId).filter fun id => (t.nodeStorageMap id).isSome) := by
  intro id
  rw [List.mem_filter, List.mem_range, Option.isSome_iff_ne_none]
  exact ⟨And.right, fun hne => ⟨hids id hne, hne⟩⟩

theorem verify_iff_eight : let t := ofTimestamps .fuzzTest [5, 1, 7, 3, 8, 2, 6, 4]
    ∃ keys, t.Keys keys ∧
      (t.verify (keys.length + 1) keys = .ok () ↔ ∃ height, Checked .fuzzTest t.nodeStorageMap t.rootNodeId height) := by
  obtain ⟨levels, xs, h⟩ := ofTimestamps_represents .fuzzTest [5, 1, 7, 3, 8, 2, 6, 4]
  have hkeys := keys_of_lt fun id hne => (h.stores.valid.lt id hne).2
  exact ⟨_, hkeys, verify_iff hkeys (fun id node hnode => (h.wellFormed.zeroed id node hnode).1) (Nat.lt_succ_self _)⟩

theorem verify_of_wellFormed {height rounds : ℕ} {keys : List ℕ} (hids : ∀ id, t.nodeStorageMap id ≠ none → id < t.nextNodeId)
    (hkeys : t.Keys keys) (hw : WellFormed cfg t.nodeStorageMap t.rootNodeId height) (hroot : t.rootNodeId ≠ 0 → 0 < height)
    (hrounds : t.nextNodeId < rounds) : t.verify rounds keys = .ok () := by
  refine verify_of_checked hkeys (fun id node hnode => (hw.zeroed id node hnode).1) (hw.checked hroot)
    (fun id hne => List.mem_range.mpr (hids id hne)) ?_
  rwa [List.length_range]

/-- Whatever the history, `verify` finds nothing wrong. -/
theorem run_verifies (cfg : Config) (ops : List Op) :
    ∃ t, run ({} : BTreeMem cfg) ops = .ok (answers ∅ ops, t) ∧ (∃ keys, t.Keys keys) ∧
      ∀ keys, t.Keys keys → ∀ rounds, t.nextNodeId < rounds → t.verify rounds keys = .ok () := by
  obtain ⟨t, levels, xs, hrun, h, -⟩ := reachable cfg ops
  have hids : ∀ id, t.nodeStorageMap id ≠ none → id < t.nextNodeId := fun id hne => (h.stores.valid.lt id hne).2
  refine ⟨t, hrun, ⟨_, keys_of_lt hids⟩, fun keys hkeys rounds => verify_of_wellFormed hids hkeys h.wellFormed fun hroot => ?_⟩
  obtain ⟨e, Ls, rfl, -⟩ := h.top hroot
  exact Nat.succ_pos _

end NE.Storage.BTreeMem
