import Negentropy.Accumulator
import Negentropy.Lib.Heap
import Negentropy.Lib.Levels
import Negentropy.Lib.Stateful
import Negentropy.Storage.BTree.Slots

/-! The node storage under a B+tree. A store that keeps the laws of `LawfulNodeStore` is seen as
a bag of cells, and each operation of the tree says what it does to the bag. -/

namespace NE.BTree

open Heap Levels NodeStore

/-! ### What a node holds -/

/-- The first item under a child. -/
def firstOf (c : Child Item) : Item := c.below.headD {}

/-- The key that a node keeps for a child. -/
def keyOf (c : Child Item) : Key := ⟨firstOf c, c.id⟩

/-- A node with these keys over these items. -/
def mkNode (cfg : Config) (ks : List Key) (below : List Item) (prev next : ℕ) : Node where
  numItems := ks.length
  accumCount := below.length
  nextSibling := next
  prevSibling := prev
  accum := Accumulator.sum below
  items := pad cfg ks

/-- The node of an entry. -/
def nodeOf (cfg : Config) (e : Entry Item) (prev next : ℕ) : Node :=
  mkNode cfg (e.children.map keyOf) (items e.children) prev next

section
variable {cfg : Config} {ks : List Key} {below : List Item} {p n : ℕ} {e : Entry Item}

@[simp] theorem keyOf_nodeId (c : Child Item) : (keyOf c).nodeId = c.id := rfl
@[simp] theorem keyOf_item (c : Child Item) : (keyOf c).item = firstOf c := rfl
@[simp] theorem firstOf_leaf (x : Item) : firstOf (Child.leaf x) = x := rfl

theorem firstOf_mem {c : Child Item} (h : c.below ≠ []) : firstOf c ∈ c.below := by
  obtain ⟨x, xs, hx⟩ := List.exists_cons_of_ne_nil h
  simp [firstOf, hx]

/-- The first item under an entry is the first under its first child. -/
theorem firstOf_toChild {c : Child Item} {cs : List (Child Item)} (he : e.children = c :: cs) (hc : c.below ≠ []) :
    firstOf e.toChild = firstOf c := by
  obtain ⟨x, xs, hx⟩ := List.exists_cons_of_ne_nil hc
  simp [firstOf, he, hx]

@[simp] theorem mkNode_numItems : (mkNode cfg ks below p n).numItems = ks.length := rfl
@[simp] theorem mkNode_accumCount : (mkNode cfg ks below p n).accumCount = below.length := rfl
@[simp] theorem mkNode_nextSibling : (mkNode cfg ks below p n).nextSibling = n := rfl
@[simp] theorem mkNode_prevSibling : (mkNode cfg ks below p n).prevSibling = p := rfl
@[simp] theorem mkNode_accum : (mkNode cfg ks below p n).accum = Accumulator.sum below := rfl
@[simp] theorem mkNode_items : (mkNode cfg ks below p n).items = pad cfg ks := rfl
@[simp] theorem nodeOf_numItems : (nodeOf cfg e p n).numItems = e.children.length := by simp [nodeOf]
@[simp] theorem nodeOf_accumCount : (nodeOf cfg e p n).accumCount = (items e.children).length := rfl
@[simp] theorem nodeOf_nextSibling : (nodeOf cfg e p n).nextSibling = n := rfl
@[simp] theorem nodeOf_prevSibling : (nodeOf cfg e p n).prevSibling = p := rfl
@[simp] theorem nodeOf_accum : (nodeOf cfg e p n).accum = Accumulator.sum (items e.children) := rfl

theorem mkNode_key (i : ℕ) : (mkNode cfg ks below p n).key i = ks.getD i Key.zero := pad_getD i

theorem nodeOf_key {before after : List (Child Item)} {c : Child Item} (he : e.children = before ++ c :: after) :
    (nodeOf cfg e p n).key before.length = keyOf c := by
  simp [nodeOf, mkNode_key, he, List.getD_eq_getElem?_getD]

end

/-! ### Stores -/

/-- What the tree relies on in its node storage: it is a map from ids other than 0 to nodes,
and `maxDepth` is no less than the number of its nodes. -/
class LawfulNodeStore (cfg : Config) (τ : Type) [NodeStore τ] where
  Valid : τ → Prop
  nodes : τ → ℕ → Option Node
  nodes_zero : ∀ {t}, Valid t → nodes t 0 = none
  read_zero : ∀ {t}, Valid t → getNodeRead t 0 = .ok none
  read : ∀ {t id node}, Valid t → nodes t id = some node → getNodeRead t id = .ok (some node)
  prepare : ∀ {t id node}, Valid t → nodes t id = some node →
    ∃ t', getNodeWrite t id = .ok (some node, t') ∧ Valid t' ∧ nodes t' = nodes t ∧ getRootNodeId t' = getRootNodeId t
  write : ∀ {t id node} new, Valid t → nodes t id = some node →
    Valid (writeNode t id new) ∧ nodes (writeNode t id new) = Function.update (nodes t) id (some new) ∧
      getRootNodeId (writeNode t id new) = getRootNodeId t
  make : ∀ {t}, Valid t → ∃ id t', makeNode t = (id, t') ∧ id ≠ 0 ∧ nodes t id = none ∧ Valid t' ∧
    nodes t' = Function.update (nodes t) id (some (Node.zero cfg)) ∧ getRootNodeId t' = getRootNodeId t
  delete : ∀ {t id node}, Valid t → nodes t id = some node →
    ∃ t', deleteNode t id = .ok t' ∧ Valid t' ∧ nodes t' = Function.update (nodes t) id none ∧
      getRootNodeId t' = getRootNodeId t
  setRoot : ∀ {t} root, Valid t → Valid (setRootNodeId t root) ∧ nodes (setRootNodeId t root) = nodes t ∧
    getRootNodeId (setRootNodeId t root) = root
  card_le : ∀ {t cells}, Valid t → Holds (nodes t) cells → cells.card ≤ maxDepth t

open LawfulNodeStore

section
variable {τ : Type} [NodeStore τ]

/-- The store has this root and exactly these nodes. -/
structure Stores (cfg : Config) [LawfulNodeStore cfg τ] (t : τ) (root : ℕ) (cells : Multiset (ℕ × Node)) : Prop where
  valid : Valid cfg t
  root_eq : getRootNodeId t = root
  holds : Holds (nodes cfg t) cells

variable {cfg : Config} [LawfulNodeStore cfg τ] {t : τ} {root id : ℕ} {node : Node} {F : Multiset (ℕ × Node)}

namespace Stores

theorem cell (h : Stores cfg t root F) (hmem : (id, node) ∈ F) : nodes cfg t id = some node :=
  (h.holds.some_iff id node).mpr hmem

theorem getNodeRead_eq (h : Stores cfg t root F) (hmem : (id, node) ∈ F) : getNodeRead t id = .ok (some node) :=
  LawfulNodeStore.read h.valid (h.cell hmem)

theorem readNode_eq (h : Stores cfg t root F) (hmem : (id, node) ∈ F) : readNode t id = .ok node := by
  rw [readNode, h.getNodeRead_eq hmem]
  rfl

theorem getNodeRead_zero (h : Stores cfg t root F) : getNodeRead t 0 = .ok none := read_zero h.valid

theorem id_ne_zero (h : Stores cfg t root F) (hmem : (id, node) ∈ F) : id ≠ 0 := by
  rintro rfl
  have hnone := nodes_zero h.valid
  rw [h.cell hmem] at hnone
  exact absurd hnone (by simp)

theorem write (h : Stores cfg t root ((id, node) ::ₘ F)) (new : Node) :
    Stores cfg (writeNode t id new) root ((id, new) ::ₘ F) := by
  obtain ⟨hvalid, hnodes, hroot⟩ := LawfulNodeStore.write new h.valid h.holds.read
  exact ⟨hvalid, hroot.trans h.root_eq, hnodes ▸ h.holds.write⟩

theorem getNodeWrite_eq (h : Stores cfg t root F) (hmem : (id, node) ∈ F) :
    ∃ t', getNodeWrite t id = .ok (some node, t') ∧ Stores cfg t' root F := by
  obtain ⟨t', heq, hvalid, hnodes, hroot⟩ := LawfulNodeStore.prepare h.valid (h.cell hmem)
  exact ⟨t', heq, hvalid, hroot.trans h.root_eq, hnodes ▸ h.holds⟩

theorem modify (h : Stores cfg t root ((id, node) ::ₘ F)) (f : Node → Node) :
    ∃ t', modifyNode t id f = .ok t' ∧ Stores cfg t' root ((id, f node) ::ₘ F) := by
  obtain ⟨t', heq, h'⟩ := h.getNodeWrite_eq (Multiset.mem_cons_self _ _)
  refine ⟨writeNode t' id (f node), ?_, h'.write _⟩
  rw [modifyNode, heq]
  rfl

theorem make (h : Stores cfg t root F) :
    ∃ id t', makeNode t = (id, t') ∧ id ≠ 0 ∧ Stores cfg t' root ((id, Node.zero cfg) ::ₘ F) := by
  obtain ⟨id, t', heq, hid, hfree, hvalid, hnodes, hroot⟩ := LawfulNodeStore.make h.valid
  exact ⟨id, t', heq, hid, hvalid, hroot.trans h.root_eq, hnodes ▸ h.holds.alloc hfree⟩

theorem delete (h : Stores cfg t root ((id, node) ::ₘ F)) :
    ∃ t', deleteNode t id = .ok t' ∧ Stores cfg t' root F := by
  obtain ⟨t', heq, hvalid, hnodes, hroot⟩ := LawfulNodeStore.delete h.valid h.holds.read
  exact ⟨t', heq, hvalid, hroot.trans h.root_eq, hnodes ▸ h.holds.free⟩

theorem setRoot (h : Stores cfg t root F) (new : ℕ) : Stores cfg (setRootNodeId t new) new F := by
  obtain ⟨hvalid, hnodes, hroot⟩ := LawfulNodeStore.setRoot new h.valid
  exact ⟨hvalid, hroot, hnodes ▸ h.holds⟩

/-! Links between siblings. -/

variable {L : List (Entry Item)} {prev next : ℕ}

/-- The end of a level gets a new successor. -/
theorem relink_next (h : Stores cfg t root (segment (nodeOf cfg) 0 L next + F)) (new : ℕ) :
    ∃ t', (if lastId 0 L ≠ 0 then modifyNode t (lastId 0 L) fun node => { node with nextSibling := new } else pure t)
        = .ok t' ∧ Stores cfg t' root (segment (nodeOf cfg) 0 L new + F) := by
  rcases List.eq_nil_or_concat L with rfl | ⟨L, e, rfl⟩
  · exact ⟨t, rfl, h⟩
  · rw [List.concat_eq_append, segment_append] at *
    simp only [segment_cons, segment_nil, headId_nil, headId_cons, lastId_concat, Multiset.add_cons,
      Multiset.cons_add, add_zero] at h ⊢
    obtain ⟨t', heq, h'⟩ := h.modify fun node => { node with nextSibling := new }
    rw [if_pos (h.id_ne_zero (Multiset.mem_cons_self _ _))]
    exact ⟨t', heq, h'⟩

/-- The start of a stretch gets a new predecessor. -/
theorem relink_prev (h : Stores cfg t root (segment (nodeOf cfg) prev L 0 + F)) (new : ℕ) :
    ∃ t', (if headId L 0 ≠ 0 then modifyNode t (headId L 0) fun node => { node with prevSibling := new } else pure t)
        = .ok t' ∧ Stores cfg t' root (segment (nodeOf cfg) new L 0 + F) := by
  rcases L with - | ⟨e, L⟩
  · exact ⟨t, rfl, h⟩
  · simp only [segment_cons, Multiset.cons_add] at h ⊢
    obtain ⟨t', heq, h'⟩ := h.modify fun node => { node with prevSibling := new }
    refine ⟨t', ?_, h'⟩
    rw [headId_cons, if_pos (h.id_ne_zero (Multiset.mem_cons_self _ _))]
    exact heq

end Stores

/-! ### Keys and the children they stand for -/

/-- The key leads to the child; in a leaf it has the item itself. -/
def Points (k : Key) (c : Child Item) : Prop := k.nodeId = c.id ∧ (c.id = 0 → k.item = firstOf c)

/-- The keys lead to the children, and outside `I` they have the right items too. -/
structure Stale (I : ℕ → Prop) (ks : List Key) (cs : List (Child Item)) : Prop where
  points : List.Forall₂ Points ks cs
  get : ∀ j, ¬ I j → ks[j]? = (cs.map keyOf)[j]?

/-- A child is a single item, or there is a node for it with the right sums. -/
def Backed (F : Multiset (ℕ × Node)) (c : Child Item) : Prop :=
  (c.id = 0 ∧ ∃ x, c.below = [x]) ∨
    ∃ node, (c.id, node) ∈ F ∧ node.accum = Accumulator.sum c.below ∧ node.accumCount = c.below.length ∧
      (node.key 0).item = firstOf c

theorem points_keyOf (c : Child Item) : Points (keyOf c) c := ⟨rfl, fun _ => rfl⟩

theorem points_map (cs : List (Child Item)) : List.Forall₂ Points (cs.map keyOf) cs := by
  rw [List.forall₂_map_left_iff]
  exact List.forall₂_same.mpr fun c _ => points_keyOf c

theorem stale_map (I : ℕ → Prop) (cs : List (Child Item)) : Stale I (cs.map keyOf) cs := ⟨points_map cs, fun _ _ => rfl⟩

theorem Stale.length_eq {I : ℕ → Prop} {ks : List Key} {cs : List (Child Item)} (h : Stale I ks cs) :
    ks.length = cs.length := h.points.length_eq

theorem Stale.mono {I J : ℕ → Prop} {ks : List Key} {cs : List (Child Item)} (h : Stale I ks cs)
    (hIJ : ∀ j, I j → J j) : Stale J ks cs :=
  ⟨h.points, fun j hj => h.get j fun hI => hj (hIJ j hI)⟩

/-- One child is another one now: its key has still to be refreshed. -/
theorem stale_replace {before after : List (Child Item)} {c d : Child Item} (h : Points (keyOf c) d) :
    Stale (· = before.length) ((before ++ c :: after).map keyOf) (before ++ d :: after) where
  points := by
    rw [List.map_append, List.map_cons]
    exact List.rel_append (points_map before) (List.Forall₂.cons h (points_map after))
  get j hj := by
    simp only [List.map_append, List.map_cons, List.getElem?_append, List.length_map]
    split_ifs with hlt
    · rfl
    · rw [List.getElem?_cons, List.getElem?_cons, if_neg (by omega), if_neg (by omega)]

/-- Nothing is left to refresh. -/
theorem Stale.eq_map {I : ℕ → Prop} {ks : List Key} {cs : List (Child Item)} (h : Stale I ks cs)
    (hI : ∀ j < cs.length, ¬ I j) : ks = cs.map keyOf := by
  apply List.ext_getElem?
  intro j
  by_cases hj : j < cs.length
  · exact h.get j (hI j hj)
  · rw [List.getElem?_eq_none (by simp [h.length_eq]; omega), List.getElem?_eq_none (by simp; omega)]

theorem Backed.mono {F G : Multiset (ℕ × Node)} {c : Child Item} (h : Backed F c) (hFG : F ⊆ G) : Backed G c := by
  rcases h with h | ⟨node, hmem, h⟩
  · exact Or.inl h
  · exact Or.inr ⟨node, hFG hmem, h⟩

/-- The entries of a level back the children they are. -/
theorem backed_segment {L : List (Entry Item)} (hne : ∀ e ∈ L, ∀ c ∈ e.children, c.below ≠ [])
    (hL : ∀ e ∈ L, e.children ≠ []) (prev next : ℕ) {c : Child Item} (hc : c ∈ L.map Entry.toChild) :
    Backed (segment (nodeOf cfg) prev L next) c := by
  obtain ⟨e, he, rfl⟩ := List.mem_map.mp hc
  obtain ⟨p, n, hmem⟩ := mem_segment (nodeOf cfg) prev next he
  refine Or.inr ⟨_, hmem, rfl, rfl, ?_⟩
  obtain ⟨c, cs, hcs⟩ := List.exists_cons_of_ne_nil (hL e he)
  rw [firstOf_toChild hcs (hne e he c (by simp [hcs]))]
  exact congrArg Key.item (nodeOf_key (show e.children = [] ++ c :: cs from hcs))

theorem Stores.addToAccum_eq (h : Stores cfg t root F) {k : Key} {c : Child Item} (hk : Points k c) (hc : Backed F c)
    (acc : Accumulator × ℕ) :
    addToAccum t acc k = .ok (acc.1 + Accumulator.sum c.below, acc.2 + c.below.length) := by
  obtain ⟨hid, hitem⟩ := hk
  rcases hc with ⟨h0, x, hx⟩ | ⟨node, hmem, haccum, hcount, -⟩
  · have hxk : k.item = x := by simp [hitem h0, firstOf, hx]
    simp [addToAccum, hid, h0, hx, hxk, Accumulator.addItem_eq]
    rfl
  · simp only [addToAccum, hid, h.id_ne_zero hmem, if_false, h.readNode_eq hmem, haccum, hcount, bind, Except.bind]
    rfl

theorem Stores.sumKeys_eq (h : Stores cfg t root F) {ks : List Key} {cs : List (Child Item)}
    (hks : List.Forall₂ Points ks cs) (hcs : ∀ c ∈ cs, Backed F c) (acc : Accumulator × ℕ) :
    sumKeys t ks acc = .ok (acc.1 + Accumulator.sum (items cs), acc.2 + (items cs).length) := by
  induction hks generalizing acc with
  | nil => simp [sumKeys, pure, Except.pure]
  | cons hk _ ih =>
    rw [sumKeys, h.addToAccum_eq hk (hcs _ List.mem_cons_self)]
    have hrec := ih (fun c hc => hcs c (List.mem_cons_of_mem _ hc))
    simp only [bind, Except.bind, hrec, items_cons, Accumulator.sum_append, List.length_append, add_assoc]

theorem Stale.set {I : ℕ → Prop} {ks : List Key} {cs : List (Child Item)} (h : Stale I ks cs) {j : ℕ}
    (hj : j < cs.length) : Stale (fun i => I i ∧ i ≠ j) (ks.set j (keyOf cs[j])) cs where
  points := by
    obtain ⟨hlen, hget⟩ := List.forall₂_iff_get.mp h.points
    refine List.forall₂_iff_get.mpr ⟨by simpa using hlen, fun i h₁ h₂ => ?_⟩
    by_cases hij : i = j
    · subst hij
      simpa using points_keyOf cs[i]
    · simpa [List.getElem_set_ne (Ne.symm hij)] using hget i (by simpa using h₁) h₂
  get i hi := by
    by_cases hij : i = j
    · subst hij
      simp [h.length_eq, hj]
    · rw [List.getElem?_set_ne (Ne.symm hij)]
      exact h.get i fun hI => hi ⟨hI, hij⟩

/-- `refreshIndex` puts the right item into a key. -/
theorem Stores.refreshIndex_ok {ks : List Key} {cs : List (Child Item)} {below : List Item} {p n : ℕ} {I : ℕ → Prop}
    (h : Stores cfg t root ((id, mkNode cfg ks below p n) ::ₘ F)) (hks : Stale I ks cs) (hcs : ∀ c ∈ cs, Backed F c)
    {j : ℕ} (hj : j < cs.length) :
    ∃ t', refreshIndex t id j = .ok t' ∧
      Stores cfg t' root ((id, mkNode cfg (ks.set j (keyOf cs[j])) below p n) ::ₘ F) := by
  have hjk : j < ks.length := hks.length_eq ▸ hj
  obtain ⟨hid, hitem⟩ := (List.forall₂_iff_get.mp hks.points).2 j hjk hj
  have hkey : (mkNode cfg ks below p n).key j = ks[j] := by
    simp [mkNode_key, List.getD_eq_getElem?_getD, hjk]
  simp only [List.get_eq_getElem] at hid hitem
  rw [refreshIndex, h.readNode_eq (Multiset.mem_cons_self _ _)]
  simp only [bind, Except.bind, hkey, hid]
  rcases hcs _ (List.getElem_mem hj) with ⟨h0, -⟩ | ⟨child, hmem, -, -, hfirst⟩
  · -- an item of a leaf: there is no node to take it from
    have hset : ks.set j (keyOf cs[j]) = ks := by
      have hk : ks[j] = keyOf cs[j] := Key.ext (hitem h0) hid
      rw [← hk, List.set_getElem_self]
    rw [h0, h.getNodeRead_zero, hset]
    exact ⟨t, rfl, h⟩
  · rw [h.getNodeRead_eq (Multiset.mem_cons_of_mem hmem)]
    obtain ⟨t', heq, h'⟩ := h.modify fun node =>
      { node with items := node.items.set j { node.key j with item := (child.key 0).item } }
    refine ⟨t', heq, ?_⟩
    rw [hkey, mkNode_items, pad_set hjk, hfirst] at h'
    have hk : { ks[j] with item := firstOf cs[j] } = keyOf cs[j] := Key.ext rfl hid
    rw [hk] at h'
    simpa [mkNode] using h'

end

end NE.BTree
