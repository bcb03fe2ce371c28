import Negentropy.Storage.BTree.Accepted

/-! The levels of a tree that the recursion of `verify` accepted, its items, and the walk along its leaves. -/

namespace NE.BTree

open Generations Stateful NodeStore

section
variable (cfg : Config) (nodes : ℕ → Option Node)

/-- From `nodeId` on these nodes follow each other, the first coming after `prev`. -/
def Linked : (prev nodeId : ℕ) → List ℕ → Prop
  | _, nodeId, [] => nodes nodeId = none
  | prev, nodeId, id :: ids =>
      nodeId = id ∧ ∃ node, nodes id = some node ∧ node.prevSibling = prev ∧ Linked id node.nextSibling ids

/-- The items of a node itself. -/
def ownItems (id : ℕ) : List Item := ((keysOf (nodeAt cfg nodes id)).filter (·.nodeId = 0)).map Key.item

end

/-! ### The levels of what was accepted -/

section
variable {cfg : Config} {nodes : ℕ → Option Node} {root h x y : ℕ}

theorem ne_zero_of_mem_level {d : ℕ} (hy : y ∈ level cfg nodes root d) : y ≠ 0 ∧ root ≠ 0 := by
  induction d generalizing y with
  | zero =>
    rw [level] at hy
    split_ifs at hy with hroot
    · simp at hy
    · obtain rfl := List.mem_singleton.mp hy
      exact ⟨hroot, hroot⟩
  | succ d ih =>
    obtain ⟨x, hx, hy⟩ := List.mem_flatMap.mp hy
    exact ⟨by simpa using (List.mem_filter.mp hy).2, (ih hx).2⟩

theorem level_eq_generation (hroot : root ≠ 0) (d : ℕ) : level cfg nodes root d = generation (kids cfg nodes) [root] d := by
  induction d with
  | zero => rw [level, if_neg hroot, generation_zero]
  | succ d ih => rw [level, ih]; rfl

theorem Under.kid (hu : Under cfg nodes h x) {k : ℕ} (hk : k ∈ kids cfg nodes x) : ∃ m, h = m + 1 ∧ Under cfg nodes m k := by
  cases h with
  | zero => simp [hu.2] at hk
  | succ m => exact ⟨m, rfl, hu.2 k hk⟩

theorem Under.generation (hu : Under cfg nodes h x) {i : ℕ} (hy : y ∈ generation (kids cfg nodes) [x] i) :
    ∃ m, h = m + i ∧ Under cfg nodes m y := by
  induction i generalizing h x with
  | zero =>
    obtain rfl : y = x := by simpa using hy
    exact ⟨h, rfl, hu⟩
  | succ i ih =>
    obtain ⟨k, hk, hy⟩ := (mem_generation_kids _).mp hy
    obtain ⟨m, rfl, hk⟩ := hu.kid hk
    obtain ⟨m', rfl, hy⟩ := ih hk hy
    exact ⟨m', rfl, hy⟩

theorem Under.accepted_at (hu : Under cfg nodes h x) {i : ℕ} (hy : y ∈ Generations.generation (kids cfg nodes) [x] i) :
    i ≤ h ∧ Accepted cfg nodes (h - i) y (nodeAt cfg nodes y) := by
  obtain ⟨m, rfl, hy⟩ := hu.generation hy
  obtain ⟨node, ha⟩ := hy.accepted
  rw [nodeAt_of_stored ha.stored, Nat.add_sub_cancel]
  exact ⟨Nat.le_add_left _ _, ha⟩

theorem Under.filter_preorder (hu : Under cfg nodes h x) :
    (preorder (kids cfg nodes) h x).filter (isLeaf cfg nodes) = Generations.generation (kids cfg nodes) [x] h := by
  refine Generations.filter_preorder _ fun i hi y hy => ?_
  rw [isLeaf, decide_eq_true_eq, (hu.accepted_at hy).2.leaf]
  omega

theorem Under.exists_kid (hu : Under cfg nodes (h + 1) x) : ∃ k ∈ kids cfg nodes x, Under cfg nodes h k := by
  obtain ⟨node, ha⟩ := hu.accepted
  have hk : (node.key 0).nodeId ≠ 0 := fun h0 => Nat.succ_ne_zero h (ha.leaf.mp h0)
  have hmem : (node.key 0).nodeId ∈ kids cfg nodes x :=
    (mem_kids ha.stored).mpr ⟨_, key_zero_mem ha.sized.pos.ne' hk, hk, rfl⟩
  exact ⟨_, hmem, hu.2 _ hmem⟩

/-- There is a leaf. -/
theorem Under.exists_leaf (hu : Under cfg nodes h x) : Generations.generation (kids cfg nodes) [x] h ≠ [] := by
  induction h generalizing x with
  | zero => simp
  | succ h ih =>
    obtain ⟨k, hk, hu⟩ := hu.exists_kid
    obtain ⟨y, hy⟩ := List.exists_mem_of_ne_nil _ (ih hu)
    exact List.ne_nil_of_mem ((mem_generation_kids _).mpr ⟨k, hk, hy⟩)

theorem Under.lt_length_preorder (hu : Under cfg nodes h x) : h < (preorder (kids cfg nodes) h x).length := by
  induction h generalizing x with
  | zero => simp [preorder]
  | succ h ih =>
    obtain ⟨k, hk, hu⟩ := hu.exists_kid
    have hsub : (preorder (kids cfg nodes) h k).length ≤ ((kids cfg nodes x).flatMap (preorder (kids cfg nodes) h)).length :=
      (List.sublist_flatten_of_mem (List.mem_map_of_mem hk)).length_le
    have hlt := ih hu
    rw [preorder, List.length_cons]
    omega

end

/-! ### How many items there are -/

section
variable {cfg : Config} {nodes : ℕ → Option Node} {h x : ℕ}

theorem ownItems_eq {id : ℕ} {node : Node} (hnode : nodes id = some node) :
    ownItems cfg nodes id = ((keysOf node).filter (·.nodeId = 0)).map Key.item := by
  rw [ownItems, nodeAt_of_stored hnode]

theorem length_itemsUnder {ks : List Key} (hks : ∀ k ∈ ks, k.nodeId ≠ 0 → (itemsBelow cfg nodes (h + 1) k.nodeId).length =
      ((preorder (kids cfg nodes) h k.nodeId).map fun id => (ownItems cfg nodes id).length).sum) :
    (itemsUnder cfg nodes (h + 1) ks).length =
      (ks.filter (·.nodeId = 0)).length + ((forest cfg nodes h ks).map fun id => (ownItems cfg nodes id).length).sum := by
  induction ks with
  | nil => rfl
  | cons k ks ih =>
    have hrec := ih fun j hj => hks j (List.mem_cons_of_mem _ hj)
    by_cases hk : k.nodeId = 0
    · rw [itemsUnder_cons_zero hk, forest_cons_zero hk, List.filter_cons_of_pos (by simpa using hk), List.length_append, hrec]
      simp only [List.length_cons, List.length_nil]
      omega
    · rw [itemsUnder_cons hk, forest_cons hk, List.filter_cons_of_neg (by simpa using hk), List.length_append, hrec,
        hks k List.mem_cons_self hk, List.map_append, List.sum_append]
      omega

/-- Each item below is an item of one of the nodes. -/
theorem Under.length_itemsBelow (hu : Under cfg nodes h x) : (itemsBelow cfg nodes (h + 1) x).length =
    ((preorder (kids cfg nodes) h x).map fun id => (ownItems cfg nodes id).length).sum := by
  obtain ⟨node, ha⟩ := hu.accepted
  induction h generalizing x node with
  | zero =>
    have hzero := ((under_zero ha.stored).mp hu).2
    have hall : (keysOf node).filter (·.nodeId = 0) = keysOf node := List.filter_eq_self.mpr fun k hk => by simpa using hzero k hk
    rw [itemsBelow_eq ha.stored, itemsUnder_of_zero hzero]
    simp [preorder, ownItems_eq ha.stored, hall]
  | succ h ih =>
    have hkeys := ((under_succ ha.stored).mp hu).2
    rw [itemsBelow_eq ha.stored, preorder_eq ha.stored, length_itemsUnder fun k hk hk0 => ?_, List.map_cons, List.sum_cons,
      ownItems_eq ha.stored, List.length_map]
    obtain ⟨child, hchild⟩ := (hkeys k hk hk0).accepted
    exact ih (hkeys k hk hk0) child hchild

end

/-! ### The walk along the leaves -/

section
variable {τ : Type} [NodeStore τ] {cfg : Config} {nodes : ℕ → Option Node} {t : τ}

/-- What the walk carries, these items having been seen. -/
def upTo (seen : List Item) : Option Item × ℕ := (seen.getLast?, seen.length)

theorem pairwise_concat_iff {seen : List Item} {x : Item} (hseen : seen.Pairwise (· < ·)) :
    (seen ++ [x]).Pairwise (· < ·) ↔ ¬ ∃ prev ∈ seen.getLast?, ¬ prev < x := by
  rw [← List.isChain_iff_pairwise] at hseen ⊢
  rw [List.isChain_append]
  simp [hseen]

theorem verifyItems_eq_ok {ks : List Key} {seen : List Item} {st : Option Item × ℕ} (hseen : seen.Pairwise (· < ·)) :
    verifyItems ks (upTo seen) = .ok st ↔
      (seen ++ ks.map Key.item).Pairwise (· < ·) ∧ upTo (seen ++ ks.map Key.item) = st := by
  induction ks generalizing seen with
  | nil => simp [verifyItems, pure, Except.pure, hseen]
  | cons k ks ih =>
    have hstep : (some k.item, (upTo seen).2 + 1) = upTo (seen ++ [k.item]) := by
      simp [upTo]
    have hsplit : seen ++ (k :: ks).map Key.item = (seen ++ [k.item]) ++ ks.map Key.item := by
      simp
    rw [verifyItems, hsplit]
    simp only [except_bind_eq_ok, throwIf_eq_ok, hstep]
    constructor
    · rintro ⟨-, hlast, h⟩
      exact (ih ((pairwise_concat_iff hseen).mpr hlast)).mp h
    · rintro ⟨hasc, h⟩
      have hconcat := (List.pairwise_append.mp hasc).1
      exact ⟨(), (pairwise_concat_iff hseen).mp hconcat, (ih hconcat).mpr ⟨hasc, h⟩⟩

variable (cfg nodes) in
/-- The items of all keys of a node. -/
def keyItems (id : ℕ) : List Item := (keysOf (nodeAt cfg nodes id)).map Key.item

section
variable (hnext : ∀ id node, nodes id = some node → getNodeRead t node.nextSibling = .ok (nodes node.nextSibling))
include hnext

/-- Along leaves that follow each other the walk comes to the end. -/
theorem verifyLeaves_of_linked {leafNodeIds : List ℕ} {nodeId prevSibling : ℕ} {seen : List Item}
    (hlinked : Linked nodes prevSibling nodeId leafNodeIds)
    (hasc : (seen ++ leafNodeIds.flatMap (keyItems cfg nodes)).Pairwise (· < ·)) :
    verifyLeaves t leafNodeIds nodeId (nodes nodeId) prevSibling (upTo seen) =
      .ok (seen ++ leafNodeIds.flatMap (keyItems cfg nodes)).length := by
  induction leafNodeIds generalizing nodeId prevSibling seen with
  | nil =>
    rw [show nodes nodeId = none from hlinked]
    simp [verifyLeaves, upTo, pure, Except.pure]
  | cons leafNodeId leafNodeIds ih =>
    obtain ⟨rfl, node, hnode, rfl, hlinked⟩ := hlinked
    have hitems : keyItems cfg nodes nodeId = (keysOf node).map Key.item := by rw [keyItems, nodeAt_of_stored hnode]
    rw [List.flatMap_cons, hitems, ← List.append_assoc] at hasc ⊢
    have hseen := (List.pairwise_append.mp hasc).1
    have hstep := (verifyItems_eq_ok (List.pairwise_append.mp hseen).1).mpr ⟨hseen, rfl⟩
    rw [hnode]
    simp only [verifyLeaves, except_bind_eq_ok, throwIf_eq_ok, hnext nodeId node hnode, Except.ok.injEq, exists_eq_left']
    exact ⟨(), by simp, (), by simp, _, hstep, ih hlinked hasc⟩

end

variable (hget : ∀ id, getNodeRead t id = .ok (nodes id))
include hget

theorem verifyLeaves_eq_ok {leafNodeIds : List ℕ} {nodeId prevSibling n : ℕ} {seen : List Item}
    (hseen : seen.Pairwise (· < ·)) :
    verifyLeaves t leafNodeIds nodeId (nodes nodeId) prevSibling (upTo seen) = .ok n ↔
      ∃ W R, leafNodeIds = W ++ R ∧ Linked nodes prevSibling nodeId W ∧
        (seen ++ W.flatMap (keyItems cfg nodes)).Pairwise (· < ·) ∧ n = (seen ++ W.flatMap (keyItems cfg nodes)).length := by
  induction leafNodeIds generalizing nodeId prevSibling seen with
  | nil =>
    cases hnode : nodes nodeId with
    | none =>
      simp only [verifyLeaves, pure, Except.pure, Except.ok.injEq, List.nil_eq_append_iff]
      constructor
      · rintro rfl
        exact ⟨[], [], ⟨rfl, rfl⟩, hnode, by simpa using hseen, by simp [upTo]⟩
      · rintro ⟨W, R, ⟨rfl, rfl⟩, -, -, rfl⟩
        simp [upTo]
    | some node =>
      simp only [verifyLeaves, throw, throwThe, MonadExceptOf.throw, reduceCtorEq, List.nil_eq_append_iff, false_iff]
      rintro ⟨W, R, ⟨rfl, rfl⟩, hnone, -⟩
      exact absurd (hnode.symm.trans hnone) (by simp)
  | cons leafNodeId leafNodeIds ih =>
    cases hnode : nodes nodeId with
    | none =>
      simp only [verifyLeaves, pure, Except.pure, Except.ok.injEq]
      constructor
      · rintro rfl
        exact ⟨[], _, rfl, hnode, by simpa using hseen, by simp [upTo]⟩
      · rintro ⟨W, R, hsplit, hlinked, -, rfl⟩
        cases W with
        | nil => simp [upTo]
        | cons id W =>
          obtain ⟨rfl, node, hsome, -⟩ := hlinked
          exact absurd (hnode.symm.trans hsome) (by simp)
    | some node =>
      have hitems : keyItems cfg nodes nodeId = (keysOf node).map Key.item := by rw [keyItems, nodeAt_of_stored hnode]
      simp only [verifyLeaves, except_bind_eq_ok, throwIf_eq_ok, hget, Except.ok.injEq, exists_eq_left',
        verifyItems_eq_ok hseen, not_not]
      constructor
      · rintro ⟨-, rfl, -, rfl, st, ⟨hasc, rfl⟩, h⟩
        obtain ⟨W, R, rfl, hlinked, hasc, rfl⟩ := (ih hasc).mp h
        refine ⟨nodeId :: W, R, rfl, ⟨rfl, node, hnode, rfl, hlinked⟩, ?_, ?_⟩
        · rwa [List.flatMap_cons, hitems, ← List.append_assoc]
        · rw [List.flatMap_cons, hitems, ← List.append_assoc]
          rfl
      · rintro ⟨W, R, hsplit, hlinked, hasc, hn⟩
        cases W with
        | nil => exact absurd (hnode.symm.trans hlinked) (by simp)
        | cons id W =>
          obtain ⟨rfl, rfl⟩ := List.cons.inj hsplit
          obtain ⟨rfl, node', hnode', rfl, hlinked⟩ := hlinked
          obtain rfl := Option.some.inj (hnode.symm.trans hnode')
          rw [List.flatMap_cons, hitems, ← List.append_assoc] at hasc hn
          exact ⟨(), rfl, (), rfl, _, ⟨(List.pairwise_append.mp hasc).1, rfl⟩,
            (ih (List.pairwise_append.mp hasc).1).mpr ⟨W, R, rfl, hlinked, hasc, hn⟩⟩

end

end NE.BTree
