import Negentropy.Lib.Generations
import Negentropy.Storage.BTree.Debug
import Negentropy.Storage.BTree.Verify

/-! What the recursion of `verify` (`storage/btree/debug.h`) demands of a node and of those below, and what it leaves. -/

namespace NE.BTree

open Generations Stateful NodeStore

theorem throwIf_eq_ok {p : Prop} [Decidable p] {what : String} {u : Unit} : throwIf p what = .ok u ↔ ¬ p := by
  rw [throwIf]
  split_ifs with h <;> simp [h]

/-- The sum and the count after these items. -/
def tally (sum : Accumulator × ℕ) (xs : List Item) : Accumulator × ℕ := (sum.1 + Accumulator.sum xs, sum.2 + xs.length)

section
variable (cfg : Config) (nodes : ℕ → Option Node)

def kids (id : ℕ) : List ℕ := childIds (nodeAt cfg nodes id)

def isLeaf (id : ℕ) : Bool := decide (((nodeAt cfg nodes id).key 0).nodeId = 0)

/-- The key repeats the first item of its child. -/
def Leads (k : Key) : Prop := ∃ child, nodes k.nodeId = some child ∧ child.numItems ≠ 0 ∧ (child.key 0).item = k.item

/-- What is demanded of a node by itself. -/
structure Sized (node : Node) : Prop where
  pos : 0 < node.numItems
  le : node.numItems ≤ cfg.MAX_ITEMS
  ge : node.nextSibling ≠ 0 → cfg.MIN_ITEMS ≤ node.numItems
  zeroed : ∀ k ∈ node.items.drop node.numItems, k = Key.zero

/-- The sums of a node over these items. -/
def Totals (node : Node) (sum : Accumulator × ℕ) : Prop := sum.2 = node.accumCount ∧ sum.1 = node.accum

/-- What is demanded of a node so many levels above the leaves. -/
structure Accepted (h id : ℕ) (node : Node) : Prop where
  stored : nodes id = some node
  sized : Sized cfg node
  leaf : (node.key 0).nodeId = 0 ↔ h = 0
  ascending : (keysOf node).Pairwise (· < ·)
  first : ∀ k ∈ keysOf node, k.nodeId ≠ 0 → Leads nodes k
  totals : Totals node (tally (Accumulator.setToZero, 0) (itemsBelow cfg nodes (h + 1) id))

/-- A tree of accepted nodes with all leaves so many levels down. -/
def Under : ℕ → ℕ → Prop
  | 0, id => (∃ node, Accepted cfg nodes 0 id node) ∧ kids cfg nodes id = []
  | h + 1, id => (∃ node, Accepted cfg nodes (h + 1) id node) ∧ ∀ k ∈ kids cfg nodes id, Under h k

/-- The context after these nodes. -/
def VerifyContext.add (ctx : VerifyContext) (leafDepth : ℕ) (ids : List ℕ) : VerifyContext :=
  if ids = [] then ctx
  else ⟨some leafDepth, ctx.allNodeIds ∪ ids.toFinset, ctx.leafNodeIds ++ ids.filter (isLeaf cfg nodes)⟩

/-- The nodes under these keys, and the items. -/
def forest (h : ℕ) (ks : List Key) : List ℕ :=
  ((ks.map Key.nodeId).filter (· ≠ 0)).flatMap (preorder (kids cfg nodes) h)

def itemsUnder (h : ℕ) (ks : List Key) : List Item :=
  ks.flatMap fun k => if k.nodeId = 0 then [k.item] else itemsBelow cfg nodes h k.nodeId

end

/-- None of these nodes has been there before, and their leaves fit. -/
structure Admits (ctx : VerifyContext) (leafDepth : ℕ) (ids : List ℕ) : Prop where
  depth : ids ≠ [] → ∀ d ∈ ctx.leafDepth, d = leafDepth
  nodup : ids.Nodup
  fresh : ∀ id ∈ ids, id ∉ ctx.allNodeIds

section
variable {cfg : Config} {nodes : ℕ → Option Node} {ctx : VerifyContext} {leafDepth : ℕ} {ids xs ys : List ℕ}

@[simp] theorem add_nil : ctx.add cfg nodes leafDepth [] = ctx := rfl

theorem add_of_ne_nil (h : ids ≠ []) : ctx.add cfg nodes leafDepth ids =
    ⟨some leafDepth, ctx.allNodeIds ∪ ids.toFinset, ctx.leafNodeIds ++ ids.filter (isLeaf cfg nodes)⟩ := if_neg h

theorem add_append : ctx.add cfg nodes leafDepth (xs ++ ys) =
    (ctx.add cfg nodes leafDepth xs).add cfg nodes leafDepth ys := by
  rcases eq_or_ne xs [] with rfl | hxs
  · simp
  · rcases eq_or_ne ys [] with rfl | hys
    · simp
    · rw [add_of_ne_nil (by simp [hxs]), add_of_ne_nil hys, add_of_ne_nil hxs]
      simp [Finset.union_assoc]

@[simp] theorem admits_nil : Admits ctx leafDepth [] := ⟨by simp, List.nodup_nil, by simp⟩

theorem admits_append : Admits ctx leafDepth (xs ++ ys) ↔
    Admits ctx leafDepth xs ∧ Admits (ctx.add cfg nodes leafDepth xs) leafDepth ys := by
  rcases eq_or_ne xs [] with rfl | hxs
  · simp
  · rw [add_of_ne_nil hxs]
    constructor
    · rintro ⟨hdepth, hnodup, hfresh⟩
      obtain ⟨hx, hy, hdisj⟩ := List.nodup_append.mp hnodup
      refine ⟨⟨fun _ => hdepth (by simp [hxs]), hx, fun id hid => hfresh id (by simp [hid])⟩, ⟨by simp, hy, fun id hid => ?_⟩⟩
      have hnew := hfresh id (by simp [hid])
      simp only [Finset.mem_union, List.mem_toFinset, not_or]
      exact ⟨hnew, fun hmem => hdisj id hmem id hid rfl⟩
    · rintro ⟨⟨hdepth, hx, hfreshx⟩, ⟨-, hy, hfreshy⟩⟩
      simp only [Finset.mem_union, List.mem_toFinset, not_or] at hfreshy
      refine ⟨fun _ => hdepth hxs, List.nodup_append.mpr ⟨hx, hy, ?_⟩, fun id hid => ?_⟩
      · rintro a ha b hb rfl
        exact (hfreshy a hb).2 ha
      · rcases List.mem_append.mp hid with hid | hid
        · exact hfreshx id hid
        · exact (hfreshy id hid).1

@[simp] theorem tally_nil (sum : Accumulator × ℕ) : tally sum [] = sum := by
  simp [tally]

theorem tally_append (sum : Accumulator × ℕ) (xs ys : List Item) : tally sum (xs ++ ys) = tally (tally sum xs) ys := by
  simp [tally, add_assoc]

theorem tally_item (sum : Accumulator × ℕ) (x : Item) : (sum.1.addItem x, sum.2 + 1) = tally sum [x] := by
  simp [tally, Accumulator.addItem_eq]

theorem preorder_ne_nil (h id : ℕ) : preorder (kids cfg nodes) h id ≠ [] := by
  cases h <;> simp [preorder]

@[simp] theorem forest_nil (h : ℕ) : forest cfg nodes h [] = [] := rfl

theorem forest_cons_zero {h : ℕ} {k : Key} {ks : List Key} (hk : k.nodeId = 0) :
    forest cfg nodes h (k :: ks) = forest cfg nodes h ks := by
  simp [forest, hk]

theorem forest_cons {h : ℕ} {k : Key} {ks : List Key} (hk : k.nodeId ≠ 0) :
    forest cfg nodes h (k :: ks) = preorder (kids cfg nodes) h k.nodeId ++ forest cfg nodes h ks := by
  simp [forest, hk]

theorem forest_eq_nil {h : ℕ} {ks : List Key} : forest cfg nodes h ks = [] ↔ ∀ k ∈ ks, k.nodeId = 0 := by
  simp [forest, preorder_ne_nil]

@[simp] theorem itemsUnder_nil (h : ℕ) : itemsUnder cfg nodes h [] = [] := rfl

theorem itemsUnder_cons_zero {h : ℕ} {k : Key} {ks : List Key} (hk : k.nodeId = 0) :
    itemsUnder cfg nodes h (k :: ks) = [k.item] ++ itemsUnder cfg nodes h ks := by
  simp [itemsUnder, hk]

theorem itemsUnder_cons {h : ℕ} {k : Key} {ks : List Key} (hk : k.nodeId ≠ 0) :
    itemsUnder cfg nodes h (k :: ks) = itemsBelow cfg nodes h k.nodeId ++ itemsUnder cfg nodes h ks := by
  simp [itemsUnder, hk]

theorem itemsUnder_of_zero {h : ℕ} {ks : List Key} (hks : ∀ k ∈ ks, k.nodeId = 0) :
    itemsUnder cfg nodes h ks = ks.map Key.item := by
  rw [itemsUnder, List.flatMap_congr fun k hk => if_pos (hks k hk)]
  exact List.map_eq_flatMap.symm

theorem pairwise_cons_iff {k : Key} {ks : List Key} :
    (k :: ks).Pairwise (· < ·) ↔ ¬ (∃ next ∈ ks.head?, ¬ k.item < next.item) ∧ ks.Pairwise (· < ·) := by
  rw [List.pairwise_cons]
  refine and_congr_left fun hks => ?_
  cases ks with
  | nil => simp
  | cons next ks =>
    simp only [List.head?_cons, Option.mem_def, Option.some.injEq, exists_eq_left', not_not]
    refine ⟨fun h => h next List.mem_cons_self, fun h j hj => ?_⟩
    rcases List.mem_cons.mp hj with rfl | hj
    · exact h
    · exact h.trans ((List.pairwise_cons.mp hks).1 j hj)

end

/-! ### The recursion -/

section
variable {τ : Type} [NodeStore τ] {cfg : Config} {nodes : ℕ → Option Node} {t : τ} {n depth h : ℕ} {k : Key}
  {ks : List Key} {ctx : VerifyContext} {sum : Accumulator × ℕ} {r : VerifyContext × (Accumulator × ℕ)}

variable (cfg nodes) in
/-- What `verify` of a node leaves. -/
structure Passed (n depth h id : ℕ) (ctx : VerifyContext) (out : Accumulator × ℕ)
    (r : VerifyContext × (Accumulator × ℕ)) : Prop where
  rounds : h < n
  under : Under cfg nodes h id
  admits : Admits ctx (depth + h) (preorder (kids cfg nodes) h id)
  eq : r = (ctx.add cfg nodes (depth + h) (preorder (kids cfg nodes) h id), tally out (itemsBelow cfg nodes (h + 1) id))

variable (cfg nodes) in
/-- What the loop over the keys leaves, the children being so many levels above the leaves. -/
structure Looped (n depth h : ℕ) (ks : List Key) (ctx : VerifyContext) (sum : Accumulator × ℕ)
    (r : VerifyContext × (Accumulator × ℕ)) : Prop where
  rounds : (∃ k ∈ ks, k.nodeId ≠ 0) → h < n
  under : ∀ k ∈ ks, k.nodeId ≠ 0 → Leads nodes k ∧ Under cfg nodes h k.nodeId
  ascending : ks.Pairwise (· < ·)
  admits : Admits ctx (depth + 1 + h) (forest cfg nodes h ks)
  eq : r = (ctx.add cfg nodes (depth + 1 + h) (forest cfg nodes h ks), tally sum (itemsUnder cfg nodes (h + 1) ks))

/-- Without children it does not matter how far down the leaves would be. -/
theorem Looped.of_zero (hks : ∀ k ∈ ks, k.nodeId = 0) (hl : Looped cfg nodes n depth h ks ctx sum r) (h' : ℕ) :
    Looped cfg nodes n depth h' ks ctx sum r where
  rounds := by
    rintro ⟨k, hk, hne⟩
    exact absurd (hks k hk) hne
  under k hk hne := absurd (hks k hk) hne
  ascending := hl.ascending
  admits := by
    rw [forest_eq_nil.mpr hks]
    exact admits_nil
  eq := by
    rw [hl.eq, forest_eq_nil.mpr hks, forest_eq_nil.mpr hks, itemsUnder_of_zero hks, itemsUnder_of_zero hks]
    rfl

theorem looped_nil : Looped cfg nodes n depth h [] ctx sum r ↔ (ctx, sum) = r := by
  constructor
  · intro hl
    simpa using hl.eq.symm
  · rintro rfl
    exact ⟨by simp, by simp, List.Pairwise.nil, admits_nil, by simp⟩

/-- A key of an item. -/
theorem looped_cons_zero (hk : k.nodeId = 0) : Looped cfg nodes n depth h (k :: ks) ctx sum r ↔
    ¬ (∃ next ∈ ks.head?, ¬ k.item < next.item) ∧ Looped cfg nodes n depth h ks ctx (tally sum [k.item]) r := by
  constructor
  · rintro ⟨hn, hunder, hasc, hadmits, heq⟩
    rw [forest_cons_zero hk] at hadmits
    rw [forest_cons_zero hk, itemsUnder_cons_zero hk, tally_append] at heq
    exact ⟨(pairwise_cons_iff.mp hasc).1, fun ⟨j, hj, hne⟩ => hn ⟨j, List.mem_cons_of_mem _ hj, hne⟩,
      fun j hj => hunder j (List.mem_cons_of_mem _ hj), (pairwise_cons_iff.mp hasc).2, hadmits, heq⟩
  · rintro ⟨hhead, hn, hunder, hasc, hadmits, heq⟩
    have htail : ∀ j ∈ k :: ks, j.nodeId ≠ 0 → j ∈ ks := by
      intro j hj hne
      rcases List.mem_cons.mp hj with rfl | hj
      · exact absurd hk hne
      · exact hj
    refine ⟨fun ⟨j, hj, hne⟩ => hn ⟨j, htail j hj hne, hne⟩, fun j hj hne => hunder j (htail j hj hne) hne,
      pairwise_cons_iff.mpr ⟨hhead, hasc⟩, ?_, ?_⟩
    · rwa [forest_cons_zero hk]
    · rwa [forest_cons_zero hk, itemsUnder_cons_zero hk, tally_append]

/-- A key of a child. -/
theorem looped_cons (hk : k.nodeId ≠ 0) : Looped cfg nodes n depth h (k :: ks) ctx sum r ↔
    Leads nodes k ∧ ∃ r1, Passed cfg nodes n (depth + 1) h k.nodeId ctx sum r1 ∧
      ¬ (∃ next ∈ ks.head?, ¬ k.item < next.item) ∧ Looped cfg nodes n depth h ks r1.1 r1.2 r := by
  constructor
  · rintro ⟨hn, hunder, hasc, hadmits, heq⟩
    rw [forest_cons hk, admits_append] at hadmits
    rw [forest_cons hk, itemsUnder_cons hk, tally_append, add_append] at heq
    obtain ⟨hleads, hk'⟩ := hunder k List.mem_cons_self hk
    exact ⟨hleads, _, ⟨hn ⟨k, List.mem_cons_self, hk⟩, hk', hadmits.1, rfl⟩, (pairwise_cons_iff.mp hasc).1,
      fun ⟨j, hj, hne⟩ => hn ⟨j, List.mem_cons_of_mem _ hj, hne⟩, fun j hj => hunder j (List.mem_cons_of_mem _ hj),
      (pairwise_cons_iff.mp hasc).2, hadmits.2, heq⟩
  · rintro ⟨hleads, r1, ⟨hn, hk', hadmits1, rfl⟩, hhead, hn', hunder, hasc, hadmits, heq⟩
    refine ⟨fun _ => hn, fun j hj hne => ?_, pairwise_cons_iff.mpr ⟨hhead, hasc⟩, ?_, ?_⟩
    · rcases List.mem_cons.mp hj with rfl | hj
      · exact ⟨hleads, hk'⟩
      · exact hunder j hj hne
    · rw [forest_cons hk]
      exact admits_append.mpr ⟨hadmits1, hadmits⟩
    · rwa [forest_cons hk, itemsUnder_cons hk, tally_append, add_append]

/-- The leaves under the next keys are as far down as those under the one before. -/
theorem Passed.level_eq {h' : ℕ} {r1 : VerifyContext × (Accumulator × ℕ)}
    (hp : Passed cfg nodes n (depth + 1) h k.nodeId ctx sum r1) (hl : Looped cfg nodes n depth h' ks r1.1 r1.2 r) :
    Looped cfg nodes n depth h ks r1.1 r1.2 r := by
  by_cases hks : ∀ k ∈ ks, k.nodeId = 0
  · exact hl.of_zero hks h
  · have hdepth := hl.admits.depth (fun hnil => hks (forest_eq_nil.mp hnil)) (depth + 1 + h) (by
      rw [hp.eq, add_of_ne_nil (preorder_ne_nil _ _)]
      rfl)
    obtain rfl : h = h' := by omega
    exact hl

variable (hread : ∀ id node, id ≠ 0 → (readNode t id = .ok node ↔ nodes id = some node))
include hread

theorem keys_eq_ok (ih : ∀ id depth ctx out r, id ≠ 0 →
      (verifyNode cfg t n id depth ctx out = .ok r ↔ ∃ h, Passed cfg nodes n depth h id ctx out r)) :
    verifyNode.keys cfg t n depth ks ctx sum = .ok r ↔ ∃ h, Looped cfg nodes n depth h ks ctx sum r := by
  induction ks generalizing ctx sum with
  | nil => simp [verifyNode.keys, looped_nil, pure, Except.pure]
  | cons k ks ihks =>
    rw [verifyNode.keys]
    by_cases hk : k.nodeId = 0
    · simp only [hk, if_true, pure_bind, except_bind_eq_ok, throwIf_eq_ok, looped_cons_zero hk, tally_item, ihks]
      simp
    · simp only [hk, if_false, except_bind_eq_ok, throwIf_eq_ok, hread _ _ hk, ih _ _ _ _ _ hk, ihks,
        looped_cons hk]
      constructor
      · rintro ⟨child, hchild, -, hfirst, r1, ⟨h, hp⟩, -, hhead, h', hl⟩
        exact ⟨h, ⟨child, hchild, fun h0 => hfirst (Or.inl h0), not_not.mp fun hne => hfirst (Or.inr hne)⟩, r1, hp, hhead,
          hp.level_eq hl⟩
      · rintro ⟨h, ⟨child, hchild, hne, hfirst⟩, r1, hp, hhead, hl⟩
        exact ⟨child, hchild, (), by simp [hne, hfirst], r1, ⟨h, hp⟩, (), hhead, h, hl⟩

section
variable {id : ℕ} {node : Node}

omit hread

theorem nodeAt_of_stored (hnode : nodes id = some node) : nodeAt cfg nodes id = node := by
  simp [nodeAt, hnode]

theorem noteLeaf_interior (hk : (node.key 0).nodeId ≠ 0) : noteLeaf ctx id depth node = .ok ctx := if_neg hk

variable (cfg) in
theorem noteLeaf_leaf (hnode : nodes id = some node) (hk : (node.key 0).nodeId = 0) {ctx1 : VerifyContext} :
    noteLeaf { ctx with allNodeIds := insert id ctx.allNodeIds } id depth node = .ok ctx1 ↔
      (∀ d ∈ ctx.leafDepth, d = depth) ∧ ctx.add cfg nodes depth [id] = ctx1 := by
  have hleaf : isLeaf cfg nodes id = true := by
    rw [isLeaf, nodeAt_of_stored hnode]
    simpa using hk
  have hadd : ctx.add cfg nodes depth [id] = ⟨some depth, insert id ctx.allNodeIds, ctx.leafNodeIds ++ [id]⟩ := by
    rw [add_of_ne_nil (by simp), List.filter_cons_of_pos hleaf, List.filter_nil]
    simp only [VerifyContext.mk.injEq, true_and, and_true]
    ext
    simp
  rw [hadd, noteLeaf, if_pos hk]
  simp only [except_bind_eq_ok, throwIf_eq_ok, pure, Except.pure, Except.ok.injEq]
  simp

/-- A node that is no leaf, before those under it. -/
theorem add_interior (hnode : nodes id = some node) (hk : (node.key 0).nodeId ≠ 0) {leafDepth : ℕ} {ids : List ℕ} (hids : ids ≠ []) :
    ({ ctx with allNodeIds := insert id ctx.allNodeIds } : VerifyContext).add cfg nodes leafDepth ids =
      ctx.add cfg nodes leafDepth (id :: ids) := by
  have hleaf : ¬ isLeaf cfg nodes id = true := by
    rw [isLeaf, nodeAt_of_stored hnode]
    simpa using hk
  rw [add_of_ne_nil hids, add_of_ne_nil (by simp), List.filter_cons_of_neg hleaf]
  simp

theorem admits_interior {leafDepth : ℕ} {ids : List ℕ} (hids : ids ≠ []) : Admits ctx leafDepth (id :: ids) ↔
    id ∉ ctx.allNodeIds ∧ Admits { ctx with allNodeIds := insert id ctx.allNodeIds } leafDepth ids := by
  constructor
  · rintro ⟨hdepth, hnodup, hfresh⟩
    obtain ⟨hid, hnodup⟩ := List.nodup_cons.mp hnodup
    refine ⟨hfresh id List.mem_cons_self, fun _ => hdepth (by simp), hnodup, fun j hj => ?_⟩
    rw [Finset.mem_insert, not_or]
    exact ⟨fun hji => hid (hji ▸ hj), hfresh j (List.mem_cons_of_mem _ hj)⟩
  · rintro ⟨hid, hdepth, hnodup, hfresh⟩
    simp only [Finset.mem_insert, not_or] at hfresh
    refine ⟨fun _ => hdepth hids, List.nodup_cons.mpr ⟨fun hmem => (hfresh id hmem).1 rfl, hnodup⟩, fun j hj => ?_⟩
    rcases List.mem_cons.mp hj with rfl | hj
    · exact hid
    · exact (hfresh j hj).2

theorem kids_eq (hnode : nodes id = some node) : kids cfg nodes id = ((keysOf node).map Key.nodeId).filter (· ≠ 0) := by
  rw [kids, nodeAt_of_stored hnode, childIds]

theorem mem_kids (hnode : nodes id = some node) {child : ℕ} :
    child ∈ kids cfg nodes id ↔ ∃ k ∈ keysOf node, k.nodeId ≠ 0 ∧ k.nodeId = child := by
  rw [kids_eq hnode]
  simp only [List.mem_filter, List.mem_map, decide_eq_true_eq]
  constructor
  · rintro ⟨⟨k, hk, rfl⟩, hne⟩
    exact ⟨k, hk, hne, rfl⟩
  · rintro ⟨k, hk, hne, rfl⟩
    exact ⟨⟨k, hk, rfl⟩, hne⟩

theorem preorder_eq (hnode : nodes id = some node) (h : ℕ) :
    preorder (kids cfg nodes) (h + 1) id = id :: forest cfg nodes h (keysOf node) := by
  rw [preorder, kids_eq hnode, forest]

theorem itemsBelow_eq (hnode : nodes id = some node) (h : ℕ) :
    itemsBelow cfg nodes (h + 1) id = itemsUnder cfg nodes h (keysOf node) := by
  rw [itemsBelow, nodeAt_of_stored hnode, itemsUnder]

/-- The first key is among the keys, if it is there at all. -/
theorem key_zero_mem (hne : node.numItems ≠ 0) (hk : (node.key 0).nodeId ≠ 0) : node.key 0 ∈ keysOf node := by
  cases hitems : node.items with
  | nil => simp [Node.key, hitems, Key.zero] at hk
  | cons k ks =>
    obtain ⟨m, hm⟩ := Nat.exists_eq_succ_of_ne_zero hne
    simp [Node.key, keysOf, hitems, hm]

end

theorem verifyNode_succ {id : ℕ} {out : Accumulator × ℕ} (hid : id ≠ 0) :
    verifyNode cfg t (n + 1) id depth ctx out = .ok r ↔
      id ∉ ctx.allNodeIds ∧ ∃ node, nodes id = some node ∧ Sized cfg node ∧
        ∃ ctx1, noteLeaf { ctx with allNodeIds := insert id ctx.allNodeIds } id depth node = .ok ctx1 ∧
          ∃ r1, verifyNode.keys cfg t n depth (keysOf node) ctx1 (Accumulator.setToZero, 0) = .ok r1 ∧
            Totals node r1.2 ∧ (r1.1, (out.1 + r1.2.1, out.2 + r1.2.2)) = r := by
  rw [verifyNode]
  simp only [hid, if_false, except_bind_eq_ok, throwIf_eq_ok, hread _ _ hid]
  constructor
  · rintro ⟨-, hnew, node, hnode, -, hne, -, hmin, -, hmax, ctx1, hleaf, r1, hl, -, hzero, -, hcount, -, hsum, heq⟩
    refine ⟨hnew, node, hnode, ⟨Nat.pos_of_ne_zero hne, not_lt.mp hmax, fun hnext => not_lt.mp fun hlt => hmin ⟨hnext, hlt⟩,
      fun k hk => not_not.mp fun hk0 => hzero ⟨k, hk, hk0⟩⟩, ctx1, hleaf, r1, hl, ⟨not_not.mp hcount, not_not.mp hsum⟩, ?_⟩
    exact Except.ok.inj heq
  · rintro ⟨hnew, node, hnode, ⟨hpos, hmax, hmin, hzero⟩, ctx1, hleaf, r1, hl, ⟨hcount, hsum⟩, rfl⟩
    refine ⟨(), hnew, node, hnode, (), hpos.ne', (), fun h => absurd (hmin h.1) (not_le.mpr h.2), (), not_lt.mpr hmax, ctx1,
      hleaf, r1, hl, (), ?_, (), not_not.mpr hcount, (), not_not.mpr hsum, rfl⟩
    rintro ⟨k, hk, hk0⟩
    exact hk0 (hzero k hk)

end

section
variable {τ : Type} [NodeStore τ] {cfg : Config} {nodes : ℕ → Option Node} {t : τ} {n depth h id : ℕ} {node : Node}
  {ctx : VerifyContext} {out : Accumulator × ℕ} {r : VerifyContext × (Accumulator × ℕ)}

theorem under_zero (hnode : nodes id = some node) :
    Under cfg nodes 0 id ↔ Accepted cfg nodes 0 id node ∧ ∀ k ∈ keysOf node, k.nodeId = 0 := by
  have hkids : kids cfg nodes id = [] ↔ ∀ k ∈ keysOf node, k.nodeId = 0 := by
    rw [kids_eq hnode]
    simp
  rw [Under, hkids]
  refine and_congr_left fun _ => ⟨?_, fun ha => ⟨node, ha⟩⟩
  rintro ⟨node', ha⟩
  obtain rfl := Option.some.inj (hnode.symm.trans ha.stored)
  exact ha

theorem under_succ (hnode : nodes id = some node) : Under cfg nodes (h + 1) id ↔
    Accepted cfg nodes (h + 1) id node ∧ ∀ k ∈ keysOf node, k.nodeId ≠ 0 → Under cfg nodes h k.nodeId := by
  rw [Under]
  constructor
  · rintro ⟨⟨node', ha⟩, hkids⟩
    obtain rfl := Option.some.inj (hnode.symm.trans ha.stored)
    exact ⟨ha, fun k hk hk0 => hkids _ ((mem_kids hnode).mpr ⟨k, hk, hk0, rfl⟩)⟩
  · rintro ⟨ha, hkeys⟩
    refine ⟨⟨node, ha⟩, fun child hchild => ?_⟩
    obtain ⟨k, hk, hk0, rfl⟩ := (mem_kids hnode).mp hchild
    exact hkeys k hk hk0

theorem Under.accepted (hu : Under cfg nodes h id) : ∃ node, Accepted cfg nodes h id node := by
  cases h with
  | zero => exact hu.1
  | succ h => exact hu.1

theorem totals_add (out : Accumulator × ℕ) (xs : List Item) :
    (out.1 + (tally (Accumulator.setToZero, 0) xs).1, out.2 + (tally (Accumulator.setToZero, 0) xs).2) = tally out xs := by
  simp [tally, Accumulator.setToZero_eq]

/-- A leaf. -/
theorem passed_leaf (hnode : nodes id = some node) (hk : (node.key 0).nodeId = 0) :
    (∃ h, Passed cfg nodes (n + 1) depth h id ctx out r) ↔
      id ∉ ctx.allNodeIds ∧ Sized cfg node ∧ (∀ d ∈ ctx.leafDepth, d = depth) ∧
        ∃ h r1, Looped cfg nodes n depth h (keysOf node) (ctx.add cfg nodes depth [id]) (Accumulator.setToZero, 0) r1 ∧
          Totals node r1.2 ∧ (r1.1, (out.1 + r1.2.1, out.2 + r1.2.2)) = r := by
  constructor
  · rintro ⟨h, -, hunder, hadmits, rfl⟩
    obtain ⟨node', ha⟩ := hunder.accepted
    obtain rfl := Option.some.inj (hnode.symm.trans ha.stored)
    obtain rfl := ha.leaf.mp hk
    have hzero := ((under_zero hnode).mp hunder).2
    refine ⟨hadmits.fresh id (by simp [preorder]), ha.sized, hadmits.depth (preorder_ne_nil _ _), 0,
      (ctx.add cfg nodes depth [id], tally (Accumulator.setToZero, 0) (itemsBelow cfg nodes 1 id)), ⟨?_, ?_, ha.ascending, ?_, ?_⟩, ha.totals, ?_⟩
    · rintro ⟨k, hk, hk0⟩
      exact absurd (hzero k hk) hk0
    · exact fun k hk hk0 => absurd (hzero k hk) hk0
    · rw [forest_eq_nil.mpr hzero]
      exact admits_nil
    · rw [forest_eq_nil.mpr hzero, add_nil, itemsBelow_eq hnode, itemsUnder_of_zero hzero, itemsUnder_of_zero hzero]
    · rw [totals_add]
      rfl
  · rintro ⟨hnew, hsized, hdepth, h, r1, hl, htotals, rfl⟩
    have hzero : ∀ k ∈ keysOf node, k.nodeId = 0 := by
      by_contra hne
      have hlevel := hl.admits.depth (fun hnil => hne (forest_eq_nil.mp hnil)) depth rfl
      omega
    have hr1 : r1 = (ctx.add cfg nodes depth [id], tally (Accumulator.setToZero, 0) (itemsBelow cfg nodes 1 id)) := by
      rw [(hl.of_zero hzero 0).eq, forest_eq_nil.mpr hzero, add_nil, itemsBelow_eq hnode, itemsUnder_of_zero hzero,
        itemsUnder_of_zero hzero]
    refine ⟨0, Nat.succ_pos n, (under_zero hnode).mpr ⟨⟨hnode, hsized, by simp [hk], hl.ascending,
      fun k hk hk0 => absurd (hzero k hk) hk0, ?_⟩, hzero⟩, ⟨fun _ => hdepth, by simp [preorder], by simpa [preorder] using hnew⟩, ?_⟩
    · rwa [hr1] at htotals
    · rw [hr1, totals_add]
      rfl

/-- A node that is no leaf. -/
theorem passed_interior (hnode : nodes id = some node) (hk : (node.key 0).nodeId ≠ 0) :
    (∃ h, Passed cfg nodes (n + 1) depth h id ctx out r) ↔
      id ∉ ctx.allNodeIds ∧ Sized cfg node ∧
        ∃ h r1, Looped cfg nodes n depth h (keysOf node) { ctx with allNodeIds := insert id ctx.allNodeIds }
          (Accumulator.setToZero, 0) r1 ∧ Totals node r1.2 ∧ (r1.1, (out.1 + r1.2.1, out.2 + r1.2.2)) = r := by
  constructor
  · rintro ⟨h, hn, hunder, hadmits, rfl⟩
    obtain ⟨node', ha⟩ := hunder.accepted
    obtain rfl := Option.some.inj (hnode.symm.trans ha.stored)
    obtain ⟨h, rfl⟩ := Nat.exists_eq_succ_of_ne_zero fun h0 => hk (ha.leaf.mpr h0)
    have hkeys := ((under_succ hnode).mp hunder).2
    have hne : forest cfg nodes h (keysOf node) ≠ [] := fun hnil =>
      hk (forest_eq_nil.mp hnil _ (key_zero_mem ha.sized.pos.ne' hk))
    have hdepth : depth + 1 + h = depth + (h + 1) := by omega
    rw [preorder_eq hnode, admits_interior hne] at hadmits
    refine ⟨hadmits.1, ha.sized, h,
      (ctx.add cfg nodes (depth + 1 + h) (id :: forest cfg nodes h (keysOf node)),
        tally (Accumulator.setToZero, 0) (itemsBelow cfg nodes (h + 2) id)), ⟨fun _ => Nat.lt_of_succ_lt_succ hn, fun k hk hk0 => ⟨ha.first k hk hk0, hkeys k hk hk0⟩, ha.ascending, ?_, ?_⟩,
      ha.totals, ?_⟩
    · rw [hdepth]
      exact hadmits.2
    · rw [add_interior hnode hk hne, itemsBelow_eq hnode]
    · rw [totals_add, preorder_eq hnode, hdepth]
  · rintro ⟨hnew, hsized, h, r1, hl, htotals, rfl⟩
    have hmem := key_zero_mem hsized.pos.ne' hk
    have hne : forest cfg nodes h (keysOf node) ≠ [] := fun hnil => hk (forest_eq_nil.mp hnil _ hmem)
    have hdepth : depth + 1 + h = depth + (h + 1) := by omega
    have hr1 : r1 = (ctx.add cfg nodes (depth + (h + 1)) (preorder (kids cfg nodes) (h + 1) id),
        tally (Accumulator.setToZero, 0) (itemsBelow cfg nodes (h + 2) id)) := by
      rw [hl.eq, add_interior hnode hk hne, itemsBelow_eq hnode, preorder_eq hnode, hdepth]
    refine ⟨h + 1, Nat.succ_lt_succ (hl.rounds ⟨_, hmem, hk⟩), (under_succ hnode).mpr ⟨⟨hnode, hsized, by simp [hk],
      hl.ascending, fun k hk hk0 => (hl.under k hk hk0).1, ?_⟩, fun k hk hk0 => (hl.under k hk hk0).2⟩, ?_, ?_⟩
    · rwa [hr1] at htotals
    · rw [preorder_eq hnode, ← hdepth]
      exact (admits_interior hne).mpr ⟨hnew, hl.admits⟩
    · rw [hr1, totals_add]

end

section
variable {τ : Type} [NodeStore τ] {cfg : Config} {nodes : ℕ → Option Node} {t : τ}
  (hread : ∀ id node, id ≠ 0 → (readNode t id = .ok node ↔ nodes id = some node))
include hread

theorem verifyNode_eq_ok {n depth id : ℕ} {ctx : VerifyContext} {out : Accumulator × ℕ} {r : VerifyContext × (Accumulator × ℕ)}
    (hid : id ≠ 0) : verifyNode cfg t n id depth ctx out = .ok r ↔ ∃ h, Passed cfg nodes n depth h id ctx out r := by
  induction n generalizing id depth ctx out r with
  | zero =>
    constructor
    · intro h
      simp [verifyNode, throw, throwThe, MonadExceptOf.throw] at h
    · rintro ⟨h, hp⟩
      exact absurd hp.rounds (Nat.not_lt_zero _)
  | succ n ih =>
    have hkeys := fun ks ctx sum r => @keys_eq_ok _ _ cfg nodes t n depth ks ctx sum r hread fun _ _ _ _ _ hid => ih hid
    rw [verifyNode_succ hread hid]
    constructor
    · rintro ⟨hnew, node, hnode, hsized, ctx1, hleaf, r1, hl, hsums, heq⟩
      obtain ⟨h, hl⟩ := (hkeys _ _ _ _).mp hl
      by_cases hk : (node.key 0).nodeId = 0
      · obtain ⟨hdepth, rfl⟩ := (noteLeaf_leaf cfg hnode hk).mp hleaf
        exact (passed_leaf hnode hk).mpr ⟨hnew, hsized, hdepth, h, r1, hl, hsums, heq⟩
      · rw [noteLeaf_interior hk] at hleaf
        obtain rfl := Except.ok.inj hleaf
        exact (passed_interior hnode hk).mpr ⟨hnew, hsized, h, r1, hl, hsums, heq⟩
    · rintro ⟨h, hp⟩
      obtain ⟨node, hnode⟩ : ∃ node, nodes id = some node := by
        cases h with
        | zero => exact hp.under.1.imp fun node ha => ha.stored
        | succ h => exact hp.under.1.imp fun node ha => ha.stored
      by_cases hk : (node.key 0).nodeId = 0
      · obtain ⟨hnew, hsized, hdepth, h, r1, hl, hsums, heq⟩ := (passed_leaf hnode hk).mp ⟨h, hp⟩
        exact ⟨hnew, node, hnode, hsized, _, (noteLeaf_leaf cfg hnode hk).mpr ⟨hdepth, rfl⟩, r1, (hkeys _ _ _ _).mpr ⟨h, hl⟩, hsums, heq⟩
      · obtain ⟨hnew, hsized, h, r1, hl, hsums, heq⟩ := (passed_interior hnode hk).mp ⟨h, hp⟩
        exact ⟨hnew, node, hnode, hsized, _, noteLeaf_interior hk, r1, (hkeys _ _ _ _).mpr ⟨h, hl⟩, hsums, heq⟩

end

end NE.BTree
