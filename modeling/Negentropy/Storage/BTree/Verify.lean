import Negentropy.Storage.BTree.Runs

/-! The representation invariant, said of the nodes in storage alone (`storage/btree/debug.h` checks
most of it): the levels are read off the root by following the keys. -/

namespace NE.BTree

open Heap Levels NodeStore LawfulNodeStore

section
variable (cfg : Config) (nodes : ℕ → Option Node) (root : ℕ)

def nodeAt (id : ℕ) : Node := (nodes id).getD (Node.zero cfg)

def keysOf (node : Node) : List Key := node.items.take node.numItems

def childIds (node : Node) : List ℕ := ((keysOf node).map Key.nodeId).filter (· ≠ 0)

/-- The ids of a level in key order; the root is at depth 0. -/
def level : ℕ → List ℕ
  | 0 => if root = 0 then [] else [root]
  | depth + 1 => (level depth).flatMap fun id => childIds (nodeAt cfg nodes id)

/-- The items under a node, in key order, down to `height` levels. -/
def itemsBelow : ℕ → ℕ → List Item
  | 0, _ => []
  | height + 1, id => (keysOf (nodeAt cfg nodes id)).flatMap fun k =>
      if k.nodeId = 0 then [k.item] else itemsBelow height k.nodeId

/-- The storage is a tree of this height. -/
structure WellFormed (height : ℕ) : Prop where
  stored : ∀ id, nodes id ≠ none ↔ ∃ depth < height, id ∈ level cfg nodes root depth
  distinct : ((List.range height).flatMap (level cfg nodes root)).Nodup
  leaves : ∀ depth < height, ∀ id ∈ level cfg nodes root depth, ∀ k ∈ keysOf (nodeAt cfg nodes id),
    k.nodeId = 0 ↔ depth + 1 = height
  size : ∀ id node, nodes id = some node → 0 < node.numItems ∧ node.numItems ≤ cfg.MAX_ITEMS ∧
    (node.nextSibling ≠ 0 → cfg.MIN_ITEMS ≤ node.numItems)
  ascending : ∀ id node, nodes id = some node → (keysOf node).Pairwise (· < ·)
  first : ∀ id node, nodes id = some node → ∀ k ∈ keysOf node, k.nodeId ≠ 0 →
    ∃ child, nodes k.nodeId = some child ∧ (child.key 0).item = k.item
  sums : ∀ depth id node, id ∈ level cfg nodes root depth → nodes id = some node →
    node.accumCount = (itemsBelow cfg nodes (height - depth) id).length ∧
    node.accum.toNat = ((itemsBelow cfg nodes (height - depth) id).map fun x => LittleEndian.value x.id.bytes).sum % 2 ^ 256
  zeroed : ∀ id node, nodes id = some node → node.items.length = cfg.MAX_ITEMS + 1 ∧
    ∀ i, node.numItems ≤ i → node.key i = Key.zero
  linked : ∀ depth i id node, (level cfg nodes root depth)[i]? = some id → nodes id = some node →
    node.nextSibling = (level cfg nodes root depth).getD (i + 1) 0 ∧
    node.prevSibling = if i = 0 then 0 else (level cfg nodes root depth).getD (i - 1) 0
  ordered : ∀ depth < height, ((level cfg nodes root depth).flatMap (itemsBelow cfg nodes (height - depth))).Pairwise (· < ·)
  wideRoot : ∀ node, nodes root = some node → (node.key 0).nodeId ≠ 0 → 2 ≤ node.numItems

end

section
variable {τ : Type} [NodeStore τ] {cfg : Config} [LawfulNodeStore cfg τ] {t : τ} {levels : List (List (Entry Item))}
  {xs : List Item}

theorem keysOf_nodeOf (e : Entry Item) (p n : ℕ) : keysOf (nodeOf cfg e p n) = e.children.map keyOf := by
  rw [keysOf, nodeOf_numItems, ← List.length_map keyOf]
  exact pad_take cfg _

theorem mem_cellsOf {id : ℕ} {node : Node} :
    (id, node) ∈ cellsOf cfg levels ↔ ∃ L ∈ levels, (id, node) ∈ segment (nodeOf cfg) 0 L 0 := by
  induction levels with
  | nil => simp
  | cons L Ls ih => simp [ih]

theorem map_fst_cellsOf (levels : List (List (Entry Item))) :
    (cellsOf cfg levels).map Prod.fst = (levels.flatMap (List.map Entry.id) : Multiset ℕ) := by
  induction levels with
  | nil => rfl
  | cons L Ls ih =>
    rw [cellsOf_cons, Multiset.map_add, map_fst_segment, ih, List.flatMap_cons, Multiset.coe_add]

/-- From any level down, the levels are a tree. -/
theorem stack_drop {top : List (Child Item)} (h : TreeStack cfg top levels xs) {depth : ℕ} (hd : depth < levels.length) :
    TreeStack cfg (levels[depth].map Entry.toChild) (levels[depth] :: levels.drop (depth + 1)) xs := by
  induction levels generalizing top depth with
  | nil => simp at hd
  | cons L Ls ih =>
    obtain ⟨rfl, hfits, h⟩ := h
    cases depth with
    | zero => exact ⟨rfl, hfits, h⟩
    | succ depth => exact ih h (by simpa using hd)

section
variable (h : Represents cfg t levels xs)
include h

theorem Represents.stack_drop {depth : ℕ} (hd : depth < levels.length) :
    TreeStack cfg (levels[depth].map Entry.toChild) (levels[depth] :: levels.drop (depth + 1)) xs :=
  BTree.stack_drop h.stack hd

/-- A node in storage is the node of an entry, in its place. -/
theorem Represents.node_eq {id : ℕ} {node : Node} (hnode : nodes cfg t id = some node) :
    ∃ depth, ∃ hd : depth < levels.length, ∃ A e B, levels[depth] = A ++ e :: B ∧ id = e.id ∧
      node = nodeOf cfg e (lastId 0 A) (headId B 0) := by
  obtain ⟨L, hL, hmem⟩ := mem_cellsOf.mp ((h.stores.holds.some_iff id node).mp hnode)
  obtain ⟨A, e, B, rfl, rfl, rfl⟩ := mem_segment_iff.mp hmem
  obtain ⟨depth, hd, hlevel⟩ := List.mem_iff_getElem.mp hL
  exact ⟨depth, hd, A, e, B, hlevel, rfl, rfl⟩

theorem Represents.node_of {A B : List (Entry Item)} {e : Entry Item} (hL : A ++ e :: B ∈ levels) :
    nodes cfg t e.id = some (nodeOf cfg e (lastId 0 A) (headId B 0)) :=
  h.stores.cell (mem_cellsOf.mpr ⟨_, hL, mem_segment_iff.mpr ⟨A, e, B, rfl, rfl, rfl⟩⟩)

theorem Represents.keysOf_nodeAt {L : List (Entry Item)} (hL : L ∈ levels) {e : Entry Item} (he : e ∈ L) :
    keysOf (nodeAt cfg (nodes cfg t) e.id) = e.children.map keyOf := by
  obtain ⟨A, B, rfl⟩ := List.append_of_mem he
  rw [nodeAt, h.node_of hL]
  exact keysOf_nodeOf e _ _

/-- Children are single items at the lowest level, and nodes above it. -/
theorem Represents.child_id {depth : ℕ} (hd : depth < levels.length) {c : Child Item} (hc : c ∈ children levels[depth]) :
    c.id = 0 ↔ depth + 1 = levels.length := by
  have hstack := (h.stack_drop hd).2.2
  by_cases hlast : depth + 1 = levels.length
  · rw [List.drop_eq_nil_of_le hlast.ge] at hstack
    have hleaf : children levels[depth] = xs.map Child.leaf := hstack
    rw [hleaf] at hc
    obtain ⟨x, -, rfl⟩ := List.mem_map.mp hc
    simp [hlast]
  · have hd' : depth + 1 < levels.length := by omega
    rw [List.drop_eq_getElem_cons hd'] at hstack
    rw [← hstack.1] at hc
    obtain ⟨m, hm, rfl⟩ := List.mem_map.mp hc
    obtain ⟨A, B, hsplit⟩ := List.append_of_mem hm
    have hcell : (m.id, nodeOf cfg m (lastId 0 A) (headId B 0)) ∈ cellsOf cfg levels :=
      mem_cellsOf.mpr ⟨_, List.getElem_mem hd', mem_segment_iff.mpr ⟨A, m, B, hsplit, rfl, rfl⟩⟩
    simp [hlast, h.stores.id_ne_zero hcell]

/-- Following the keys from a level leads to the next one. -/
theorem Represents.level_eq (depth : ℕ) :
    level cfg (nodes cfg t) (getRootNodeId t) depth = (levels.getD depth []).map Entry.id := by
  induction depth with
  | zero =>
    rw [level]
    split_ifs with hroot
    · simp [(h.empty hroot).1]
    · obtain ⟨e, Ls, rfl, hid, -⟩ := h.top hroot
      simp [hid]
  | succ depth ih =>
    rw [level, ih]
    by_cases hd : depth < levels.length
    · have hlevel : levels.getD depth [] = levels[depth] := by simp [List.getD_eq_getElem?_getD, hd]
      have hids : ∀ e ∈ levels[depth], childIds (nodeAt cfg (nodes cfg t) e.id) = (e.children.map Child.id).filter (· ≠ 0) := by
        intro e he
        rw [childIds, h.keysOf_nodeAt (List.getElem_mem hd) he, List.map_map]
        rfl
      have hflat : levels[depth].flatMap (fun e => (e.children.map Child.id).filter (· ≠ 0)) =
          ((children levels[depth]).map Child.id).filter (· ≠ 0) := by
        rw [children, List.map_flatMap, List.filter_flatMap]
      rw [hlevel, List.flatMap_map, List.flatMap_congr hids, hflat]
      by_cases hlast : depth + 1 = levels.length
      · have hnil : levels.getD (depth + 1) [] = [] := by simp [List.getD_eq_getElem?_getD, hlast]
        rw [hnil, List.map_nil, List.filter_eq_nil_iff]
        intro id hid
        obtain ⟨c, hc, rfl⟩ := List.mem_map.mp hid
        simp [(h.child_id hd hc).mpr hlast]
      · have hd' : depth + 1 < levels.length := by omega
        have hstack := (h.stack_drop hd).2.2
        rw [List.drop_eq_getElem_cons hd'] at hstack
        have hnext : levels.getD (depth + 1) [] = levels[depth + 1] := by simp [List.getD_eq_getElem?_getD, hd']
        rw [hnext, List.filter_eq_self.mpr, ← hstack.1, List.map_map]
        · rfl
        · intro id hid
          obtain ⟨c, hc, rfl⟩ := List.mem_map.mp hid
          simpa using fun h0 => hlast ((h.child_id hd hc).mp h0)
    · rw [List.getD_eq_getElem?_getD, List.getD_eq_getElem?_getD, List.getElem?_eq_none (by omega), List.getElem?_eq_none (by omega)]
      rfl

/-- The items below an entry are those that its keys lead to. -/
theorem Represents.itemsBelow_eq {depth n : ℕ} (hd : depth < levels.length) (hn : depth + n = levels.length) {e : Entry Item}
    (he : e ∈ levels[depth]) : itemsBelow cfg (nodes cfg t) n e.id = items e.children := by
  induction n generalizing depth e with
  | zero => omega
  | succ n ih =>
    rw [itemsBelow, h.keysOf_nodeAt (List.getElem_mem hd) he, List.flatMap_map, items]
    refine List.flatMap_congr fun c hc => ?_
    have hmem : c ∈ children levels[depth] := List.mem_flatMap.mpr ⟨e, he, hc⟩
    have hchild := h.child_id hd hmem
    have hstack := (h.stack_drop hd).2.2
    rw [keyOf_nodeId, keyOf_item]
    by_cases hlast : depth + 1 = levels.length
    · rw [if_pos (hchild.mpr hlast)]
      rw [List.drop_eq_nil_of_le hlast.ge] at hstack
      have hleaf : children levels[depth] = xs.map Child.leaf := hstack
      rw [hleaf] at hmem
      obtain ⟨x, -, rfl⟩ := List.mem_map.mp hmem
      rfl
    · have hd' : depth + 1 < levels.length := by omega
      rw [if_neg fun h0 => hlast (hchild.mp h0)]
      rw [List.drop_eq_getElem_cons hd'] at hstack
      rw [← hstack.1] at hmem
      obtain ⟨m, hm, rfl⟩ := List.mem_map.mp hmem
      exact ih hd' (by omega) hm

theorem Represents.items_level {depth : ℕ} (hd : depth < levels.length) : items (children levels[depth]) = xs := by
  rw [(h.stack_drop hd).2.2.items_eq, items_leaf]

/-- An id of a level, and the entry it is of. -/
theorem Represents.mem_level {depth id : ℕ} (hid : id ∈ level cfg (nodes cfg t) (getRootNodeId t) depth) :
    ∃ hd : depth < levels.length, ∃ e ∈ levels[depth], e.id = id := by
  rw [h.level_eq] at hid
  by_cases hd : depth < levels.length
  · exact ⟨hd, by simpa [List.getD_eq_getElem?_getD, hd] using hid⟩
  · simp [List.getD_eq_getElem?_getD, hd] at hid

theorem Represents.items_sublist {depth : ℕ} (hd : depth < levels.length) {e : Entry Item} (he : e ∈ levels[depth]) :
    (items e.children).Pairwise (· < ·) ∧ ∀ c ∈ e.children, c.below ≠ [] := by
  obtain ⟨A, B, hsplit⟩ := List.append_of_mem he
  have hitems := h.items_level hd
  have hs := h.sorted
  rw [← hitems, hsplit, children_append, children_cons, items_append, items_append] at hs
  exact ⟨(List.pairwise_append.mp (List.pairwise_append.mp hs).2.1).1, fun c hc =>
    (h.stack_drop hd).2.2.below_ne_nil (leaf_below_ne_nil xs) c (List.mem_flatMap.mpr ⟨e, he, hc⟩)⟩

omit h in
theorem firsts_ascending {cs : List (Child Item)} (hs : (items cs).Pairwise (· < ·)) (hne : ∀ c ∈ cs, c.below ≠ []) :
    (cs.map keyOf).Pairwise (· < ·) := by
  induction cs with
  | nil => exact List.Pairwise.nil
  | cons c cs ih =>
    rw [List.map_cons, List.pairwise_cons]
    refine ⟨fun k hk => ?_, ih ?_ fun d hd => hne d (by simp [hd])⟩
    · obtain ⟨d, hd, rfl⟩ := List.mem_map.mp hk
      exact firstOf_lt hs (hne c (by simp)) hd (hne d (by simp [hd]))
    · rw [items_cons] at hs
      exact (List.pairwise_append.mp hs).2.1

omit h in
theorem range_flatMap_getD (Ls : List (List (Entry Item))) :
    (List.range Ls.length).flatMap (fun depth => (Ls.getD depth []).map Entry.id) = Ls.flatMap (List.map Entry.id) := by
  have hmap : (List.range Ls.length).map (fun depth => Ls.getD depth []) = Ls := by
    apply List.ext_getElem
    · simp
    · intro i h₁ h₂
      simp [List.getD_eq_getElem?_getD, h₂]
  conv_rhs => rw [← hmap]
  rw [List.flatMap_map]

/-- A tree in a store is well formed there. -/
theorem Represents.wellFormed : WellFormed cfg (nodes cfg t) (getRootNodeId t) levels.length where
  stored id := by
    rw [h.stores.holds.ne_none_iff, map_fst_cellsOf, Multiset.mem_coe, List.mem_flatMap]
    constructor
    · rintro ⟨L, hL, hid⟩
      obtain ⟨depth, hd, rfl⟩ := List.mem_iff_getElem.mp hL
      refine ⟨depth, hd, ?_⟩
      rw [h.level_eq]
      simpa [List.getD_eq_getElem?_getD, hd] using hid
    · rintro ⟨depth, hd, hid⟩
      obtain ⟨_, e, he, rfl⟩ := h.mem_level hid
      exact ⟨levels[depth], List.getElem_mem hd, List.mem_map_of_mem he⟩
  distinct := by
    have hnodup := h.stores.holds.nodup
    rw [map_fst_cellsOf, Multiset.coe_nodup, ← range_flatMap_getD] at hnodup
    rwa [List.flatMap_congr fun depth _ => (h.level_eq depth).symm] at hnodup
  leaves := by
    intro depth hd id hid k hk
    obtain ⟨_, e, he, rfl⟩ := h.mem_level hid
    rw [h.keysOf_nodeAt (List.getElem_mem hd) he] at hk
    obtain ⟨c, hc, rfl⟩ := List.mem_map.mp hk
    exact h.child_id hd (List.mem_flatMap.mpr ⟨e, he, hc⟩)
  size := by
    intro id node hnode
    obtain ⟨depth, hd, A, e, B, hlevel, rfl, rfl⟩ := h.node_eq hnode
    obtain ⟨hne, hmax, hmin⟩ := (hlevel ▸ (h.stack_drop hd).2.1 : Fits _ _ (A ++ e :: B)).mid
    rw [nodeOf_numItems, nodeOf_nextSibling]
    refine ⟨List.length_pos_iff.mpr hne, hmax, fun hnext => hmin ?_⟩
    rintro rfl
    exact hnext rfl
  ascending := by
    intro id node hnode
    obtain ⟨depth, hd, A, e, B, hlevel, rfl, rfl⟩ := h.node_eq hnode
    obtain ⟨hs, hne⟩ := h.items_sublist hd (show e ∈ levels[depth] by rw [hlevel]; simp)
    rw [keysOf_nodeOf]
    exact firsts_ascending hs hne
  first := by
    intro id node hnode k hk hid
    obtain ⟨depth, hd, A, e, B, hlevel, rfl, rfl⟩ := h.node_eq hnode
    rw [keysOf_nodeOf] at hk
    obtain ⟨c, hc, rfl⟩ := List.mem_map.mp hk
    have hmem : c ∈ children levels[depth] := by
      rw [hlevel]
      simp [hc]
    rcases backed_of_stack (h.stack_drop hd).2.2 c hmem with ⟨h0, -⟩ | ⟨child, hchild, -, -, hfirst⟩
    · exact absurd h0 hid
    · obtain ⟨L, hL, hcell⟩ := mem_cellsOf.mp hchild
      exact ⟨child, h.stores.cell (mem_cellsOf.mpr ⟨L, List.mem_of_mem_drop hL, hcell⟩), hfirst⟩
  sums := by
    intro depth id node hid hnode
    obtain ⟨hd, e, he, rfl⟩ := h.mem_level hid
    obtain ⟨A, B, hsplit⟩ := List.append_of_mem he
    have hnode' := h.node_of (show A ++ e :: B ∈ levels by rw [← hsplit]; exact List.getElem_mem hd)
    rw [hnode] at hnode'
    obtain rfl := Option.some.inj hnode'
    rw [h.itemsBelow_eq hd (by omega) he, nodeOf_accumCount, nodeOf_accum]
    exact ⟨rfl, Accumulator.toNat_sum _⟩
  zeroed := by
    intro id node hnode
    obtain ⟨depth, hd, A, e, B, hlevel, rfl, rfl⟩ := h.node_eq hnode
    have hmax := (hlevel ▸ (h.stack_drop hd).2.1 : Fits _ _ (A ++ e :: B)).mid.2.1
    refine ⟨pad_length (by simp; omega), fun i hi => ?_⟩
    rw [nodeOf_numItems] at hi
    rw [nodeOf, mkNode_key, List.getD_eq_getElem?_getD, List.getElem?_eq_none (by simpa using hi)]
    rfl
  linked := by
    intro depth i id node hget hnode
    obtain ⟨hd, -⟩ := h.mem_level (List.mem_of_getElem? hget)
    have hlevel : level cfg (nodes cfg t) (getRootNodeId t) depth = levels[depth].map Entry.id := by
      rw [h.level_eq]
      simp [List.getD_eq_getElem?_getD, hd]
    rw [hlevel] at hget ⊢
    rw [List.getElem?_map, Option.map_eq_some_iff] at hget
    obtain ⟨e, he, rfl⟩ := hget
    obtain ⟨hi, hei⟩ := List.getElem?_eq_some_iff.mp he
    have hsplit : levels[depth] = levels[depth].take i ++ e :: levels[depth].drop (i + 1) := by
      rw [← hei, ← List.drop_eq_getElem_cons hi, List.take_append_drop]
    have hnode' := h.node_of (hsplit ▸ List.getElem_mem hd)
    rw [hnode] at hnode'
    obtain rfl := Option.some.inj hnode'
    rw [nodeOf_nextSibling, nodeOf_prevSibling, headId_eq, lastId_eq]
    constructor
    · simp [List.getD_eq_getElem?_getD]
    · rcases i with - | i
      · simp
      · have hi' : i < levels[depth].length := by omega
        simp [List.getD_eq_getElem?_getD, List.getLast?_take, hi']
  ordered := by
    intro depth hd
    have hbelow : ∀ e ∈ levels[depth], itemsBelow cfg (nodes cfg t) (levels.length - depth) e.id = items e.children :=
      fun e he => h.itemsBelow_eq hd (by omega) he
    have hitems : levels[depth].flatMap (fun e => items e.children) = items (children levels[depth]) := by
      rw [items, children, List.flatMap_assoc]
      rfl
    rw [h.level_eq, show levels.getD depth [] = levels[depth] by simp [List.getD_eq_getElem?_getD, hd], List.flatMap_map,
      List.flatMap_congr hbelow, hitems, h.items_level hd]
    exact h.sorted
  wideRoot := by
    intro node hnode hid
    have hroot : getRootNodeId t ≠ 0 := fun hroot => by
      rw [hroot, nodes_zero h.stores.valid] at hnode
      simp at hnode
    obtain ⟨e, Ls, rfl, heid, hwide⟩ := h.top hroot
    have hnode' : nodes cfg t e.id = some (nodeOf cfg e 0 0) := @Represents.node_of _ _ _ _ _ _ _ h [] [] e (by simp)
    rw [heid, hnode] at hnode'
    obtain rfl := Option.some.inj hnode'
    obtain ⟨c, cs, hcs⟩ := List.exists_cons_of_ne_nil (h.stack.2.1.ne_nil e (by simp))
    have hkey : (nodeOf cfg e 0 0).key 0 = keyOf c := nodeOf_key (show e.children = [] ++ c :: cs from hcs)
    rw [hkey, keyOf_nodeId] at hid
    rw [nodeOf_numItems]
    refine hwide ?_
    rintro rfl
    exact hid ((@Represents.child_id _ _ _ _ _ _ _ h 0 (by simp) c (by simp [hcs])).mpr rfl)

end

end

end NE.BTree

namespace NE.Storage.BTreeMem

open BTree

/-- Whatever the history, the storage is a well-formed tree. -/
theorem run_wellFormed (cfg : Config) (ops : List Op) :
    ∃ t height, run ({} : BTreeMem cfg) ops = .ok (answers ∅ ops, t) ∧
      WellFormed cfg t.nodeStorageMap t.rootNodeId height := by
  obtain ⟨t, levels, xs, hrun, h, -⟩ := reachable cfg ops
  exact ⟨t, levels.length, hrun, h.wellFormed⟩

end NE.Storage.BTreeMem
