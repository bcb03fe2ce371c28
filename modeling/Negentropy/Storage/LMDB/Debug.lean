import Negentropy.Storage.LMDB.Programs
import Negentropy.Storage.BTree.Checked

/-! `verify` of `storage/btree/debug.h` on a tree in a table that it may share with others. -/

namespace NE.Storage

open BTree

namespace BTreeLMDB

variable {cfg : Config}

/-- The check for leaks, after `flush`. `cursor` lists the keys of the table; of a key only the id of the node is looked
at, and not that of the tree. -/
def leaks (t : BTreeLMDB cfg) (cursor : List DbKey) (allNodeIds : Finset ℕ) : Except Err Unit := do
  throwIf (∃ key ∈ cursor, key.nodeId ≠ 0 ∧ key.nodeId ∉ allNodeIds) "memory leak"
  throwIf (∃ id ∈ allNodeIds, (t.dbi.get (t.getKey id)).isNone) "dangling node"

/-- `verify`, and the tree then. `rounds` bounds the depth, and is no part of the source. -/
def verify (t : BTreeLMDB cfg) (rounds : ℕ) (cursor : List DbKey) : Except Err Unit × BTreeLMDB cfg :=
  match verifyTree cfg t rounds with
  | .error e => (.error e, t)
  | .ok ctx => (t.flush.leaks cursor ctx.allNodeIds, t.flush)

section
variable {t t₀ : BTreeLMDB cfg} {xs : List Item} {id : ℕ} {node : Node} {cursor : List DbKey} {rounds : ℕ}

/-- A node that there is not is an error. -/
theorem Since.readNode_eq_ok (h : Since t₀ t) (h0 : id ≠ 0) : readNode t id = .ok node ↔ t.node id = some node := by
  refine ⟨fun hread => ?_, h.readNode_eq⟩
  cases hn : t.node id with
  | some node' => exact congrArg some (Except.ok.inj ((h.readNode_eq hn).symm.trans hread))
  | none =>
    have hcache : t.dirtyNodeCache[id]? = none := by
      by_contra hne
      obtain ⟨n, hcached⟩ := Option.ne_none_iff_exists'.mp hne
      simp [node_of_cached hcached] at hn
    have hmem : id ∉ t.dirtyNodeCache := by simp [Std.TreeMap.mem_iff_isSome_getElem?, hcache]
    rw [node_of_stored hcache] at hn
    have hfind : t.findNode id = .error (.err "couldn't find node") := by
      rw [findNode, if_neg h0, if_neg hmem]
      split
      · next n hget => simp [Dbi.get_iff_node.mp hget] at hn
      · rfl
    rw [readNode, getNodeRead_eq, hfind] at hread
    cases hread

theorem Holds.verifyTree_ok (h : Holds t xs) (hrounds : t.metaDataCache.nextNodeId < rounds) :
    ∃ ctx, verifyTree cfg t rounds = .ok ctx ∧ ∀ id, t.node id ≠ none ↔ id ∈ ctx.allNodeIds := by
  have hsince := h.since
  obtain ⟨levels, h⟩ := h
  let lawful := storage t
  have hwell : WellFormed cfg t.node (NodeStore.getRootNodeId t) levels.length := h.wellFormed
  have hheight : NodeStore.getRootNodeId t ≠ 0 → 0 < levels.length := fun hroot => by
    obtain ⟨e, Ls, rfl, -⟩ := h.top hroot
    exact Nat.succ_pos _
  refine (hwell.checked hheight).verifyTree_ok (fun id node hnode => ?_) (fun id node h0 => hsince.readNode_eq_ok h0)
    (fun id node hnode => (hwell.zeroed id node hnode).1) (fun id hne => List.mem_range.mpr (hsince.lt id hne).2)
    (by rwa [List.length_range])
  rcases hwell.nextSibling_cases hnode with h0 | hnext
  · rw [h0, hsince.node_zero]
    rfl
  · obtain ⟨next, hnext⟩ := hnext
    rw [hnext]
    exact lawful.read hsince hnext

theorem Since.flush_node (h : Since t₀ t) (id : ℕ) : t.flush.dbi.node (t.getKey id) = t.node id := by
  rw [← h.node_flush, h.flush_eq]
  exact (node_of_stored rfl).symm

/-- Nothing is wrong with the tree, but the nodes of other trees are taken for leaked ones, unless it has nodes of its own
under the same ids. -/
theorem Holds.verify_eq (h : Holds t xs) (hrounds : t.metaDataCache.nextNodeId < rounds) : t.verify rounds cursor =
      (if ∀ k ∈ cursor, k.nodeId ≠ 0 → (t.flush.dbi.node (t.getKey k.nodeId)).isSome then .ok ()
        else .error (.err "verify: memory leak"), t.flush) := by
  obtain ⟨ctx, hctx, hids⟩ := h.verifyTree_ok hrounds
  have hmem : ∀ k : DbKey, (t.flush.dbi.node (t.getKey k.nodeId)).isSome ↔ k.nodeId ∈ ctx.allNodeIds := fun k => by
    rw [h.since.flush_node, ← hids, Option.isSome_iff_ne_none]
  have hdangling : ¬ ∃ id ∈ ctx.allNodeIds, (t.flush.dbi.get (t.flush.getKey id)).isNone := by
    intro hdangling
    obtain ⟨id, hid, hnone⟩ := hdangling
    have hnode := (hids id).mpr hid
    rw [← h.since.flush_node, Dbi.node, getKey] at hnode
    rw [getKey, flush_treeId, Option.isNone_iff_eq_none] at hnone
    rw [hnone] at hnode
    exact hnode rfl
  have hleak : (∃ k ∈ cursor, k.nodeId ≠ 0 ∧ k.nodeId ∉ ctx.allNodeIds) ↔
      ¬ ∀ k ∈ cursor, k.nodeId ≠ 0 → (t.flush.dbi.node (t.getKey k.nodeId)).isSome := by
    simp only [hmem]
    push Not
    rfl
  rw [verify, hctx]
  dsimp only
  rw [leaks, throwIf, throwIf, if_neg hdangling]
  by_cases hall : ∀ k ∈ cursor, k.nodeId ≠ 0 → (t.flush.dbi.node (t.getKey k.nodeId)).isSome
  · rw [if_pos hall, if_neg (hleak.not.mpr (not_not.mpr hall))]
    rfl
  · rw [if_neg hall, if_pos (hleak.mpr hall)]
    rfl

end

/-! ### Records under their keys -/

/-- Metadata is a record with the id zero only. -/
def Keyed (dbi : Dbi) : Prop := ∀ k metaData, dbi.get k = some (.metaData metaData) → k.nodeId = 0

theorem Keyed.put_node {dbi : Dbi} (h : Keyed dbi) (k : DbKey) (node : Node) : Keyed (dbi.put k (.node node)) := by
  intro k' metaData hget
  rw [Dbi.get_put] at hget
  split_ifs at hget with hk
  · cases hget
  · exact h k' metaData hget

theorem Keyed.put_metaData {dbi : Dbi} (h : Keyed dbi) (treeId : UInt64) (m : MetaData) :
    Keyed (dbi.put ⟨treeId, 0⟩ (.metaData m)) := by
  intro k' metaData hget
  rw [Dbi.get_put] at hget
  split_ifs at hget with hk
  · rw [hk]
  · exact h k' metaData hget

theorem Keyed.del {dbi : Dbi} (h : Keyed dbi) (k : DbKey) : Keyed (dbi.del k) := by
  intro k' metaData hget
  rw [Dbi.get_del] at hget
  split_ifs at hget
  exact h k' metaData hget

theorem Keyed.putNodes {dbi : Dbi} (h : Keyed dbi) (treeId : UInt64) (nodes : List (ℕ × Node)) :
    Keyed (putNodes treeId dbi nodes) := by
  induction nodes generalizing dbi with
  | nil => exact h
  | cons p nodes ih => exact ih (h.put_node _ _)

theorem Keyed.isSome_node {dbi : Dbi} (h : Keyed dbi) {k : DbKey} (h0 : k.nodeId ≠ 0) :
    (dbi.node k).isSome ↔ dbi.get k ≠ none := by
  rw [Dbi.node]
  rcases hget : dbi.get k with - | metaData | node
  · simp
  · exact absurd (h k metaData hget) h0
  · simp

theorem make_dbi {dbi : Dbi} {treeId : UInt64} {t : BTreeLMDB cfg} (h : make dbi treeId = .ok t) : t.dbi = dbi := by
  rw [make] at h
  split at h
  · rw [← Except.ok.inj h]
  · rw [← Except.ok.inj h]
  · cases h

theorem Keyed.flush {t : BTreeLMDB cfg} (h : Keyed t.dbi) : Keyed t.flush.dbi := by
  rw [flush_dbi]
  split_ifs
  · exact (h.putNodes _ _).put_metaData _ _
  · exact h.putNodes _ _

/-- An object in the course of a call, its table being keyed. -/
abbrev keyedStorage (t₀ : BTreeLMDB cfg) : LawfulNodeStore cfg (BTreeLMDB cfg) where
  Valid t := Since t₀ t ∧ Keyed t.dbi
  nodes := node
  nodes_zero h := h.1.node_zero
  read_zero h := rfl
  read h hn := (storage t₀).read h.1 hn
  prepare {t id n} h hn := by
    obtain ⟨t', heq, ⟨rfl, -⟩ | rfl⟩ := getNodeWrite_eq (h.1.ne_zero hn) hn
    · exact ⟨_, heq, h, rfl, rfl⟩
    · refine ⟨_, heq, ⟨h.1.cacheNode (by simp [hn]), h.2⟩, ?_, rfl⟩
      rw [node_cacheNode, ← hn, Function.update_eq_self]
  write {t id n} new h hn := ⟨⟨h.1.cacheNode (by simp [hn]), h.2⟩, node_cacheNode, rfl⟩
  make {t} h := ⟨_, _, rfl, h.1.pos.ne', h.1.next_free, ⟨h.1.freshNode, h.2⟩, node_freshNode h.1.next_free, rfl⟩
  delete {t id n} h hn := ⟨_, if_neg (h.1.ne_zero hn), ⟨h.1.dropNode (h.1.ne_zero hn), h.2.del _⟩, node_dropNode, rfl⟩
  setRoot {t} root h := ⟨⟨((storage t₀).setRoot root h.1).1, h.2⟩, rfl, rfl⟩
  card_le h hholds := (storage t₀).card_le h.1 hholds

theorem Holds.apply_keyed {t t' : BTreeLMDB cfg} {xs : List Item} (h : Holds t xs) (hkeyed : Keyed t.dbi) {op : BTreeMem.Op}
    {changed : Bool} (heq : t.apply op = .ok (changed, t')) : Keyed t'.dbi := by
  obtain ⟨levels, h⟩ := h
  have h' : @Represents _ _ cfg (keyedStorage t) t levels xs := by
    obtain ⟨hstack, hs, hrooted, hvalid, hroot, hholds⟩ := h
    let lawful := keyedStorage t
    exact ⟨hstack, hs, hrooted, ⟨hvalid, hkeyed⟩, hroot, hholds⟩
  cases op with
  | insertItem item =>
    rw [BTreeLMDB.apply, insertItem_eq h] at heq
    let lawful := keyedStorage t
    obtain ⟨t'', levels', xs', heq', h'', -⟩ := h'.insertItem_ok item
    obtain ⟨rfl, rfl⟩ := Prod.mk.inj (Except.ok.inj (heq'.symm.trans heq))
    exact h''.stores.valid.2
  | eraseItem item =>
    rw [BTreeLMDB.apply, eraseItem_eq h] at heq
    let lawful := keyedStorage t
    obtain ⟨t'', levels', xs', heq', h'', -⟩ := h'.eraseItem_ok item
    obtain ⟨rfl, rfl⟩ := Prod.mk.inj (Except.ok.inj (heq'.symm.trans heq))
    exact h''.stores.valid.2

theorem Holds.perform_keyed [Sha256] {α : Type} {t : BTreeLMDB cfg} {xs : List Item} (h : Holds t xs) (hkeyed : Keyed t.dbi)
    (call : Call α) : Keyed (t.perform call).2.dbi := by
  cases call with
  | read read => exact hkeyed
  | change op =>
    obtain ⟨t', xs', heq, -⟩ := h.apply op
    rw [BTreeLMDB.perform, heq]
    exact h.apply_keyed hkeyed heq

end BTreeLMDB

namespace Program

open BTreeLMDB

variable {cfg : Config} {live : Finset UInt64} {p : Program} {trees : UInt64 → BTreeMem cfg}

theorem Matches.step_keyed [Sha256] {α : Type} {event : Event α} {events : List (Event α)} (h : Matches live p trees)
    (hallowed : Allowed live (event :: events)) (hkeyed : Keyed p.dbi) : Keyed (p.step cfg event).2.dbi := by
  have htree (treeId : UInt64) : Keyed (p.tree cfg treeId).dbi := by rwa [tree_dbi]
  cases event with
  | construct treeId =>
    rw [Program.step]
    cases hmake : (make p.dbi treeId : Except Err (BTreeLMDB cfg)) with
    | error e => exact hkeyed
    | ok t =>
      change Keyed t.dbi
      rwa [make_dbi hmake]
  | destroy treeId =>
    rw [Program.step, h.object hallowed.1]
    exact (htree treeId).flush
  | flush treeId =>
    rw [Program.step, h.object hallowed.1]
    exact (htree treeId).flush
  | call treeId call =>
    obtain ⟨xs, levels, hholds, -⟩ := h.alike treeId
    rw [Program.step, h.object hallowed.1]
    exact hholds.perform_keyed (htree treeId) call

theorem Matches.run_keyed [Sha256] {α : Type} {events : List (Event α)} (h : Matches live p trees)
    (hallowed : Allowed live events) (hkeyed : Keyed p.dbi) : Keyed (p.run cfg events).2.dbi := by
  induction events generalizing live p trees with
  | nil => exact hkeyed
  | cons event events ih =>
    obtain ⟨live', hallowed', h', -⟩ := h.step hallowed
    exact ih h' hallowed' (h.step_keyed hallowed hkeyed)

/-- At any time of any program the check of a live tree finds its nodes in order, none missing and none of them leaked. All
that it may report are leaks that are none: the nodes of another tree in the table, under ids that this tree does not use. -/
theorem verify_live [Sha256] {α : Type} {cfg : Config} {events : List (Event α)} (hallowed : Allowed ∅ events)
    {treeId : UInt64} {t : BTreeLMDB cfg} (hlive : (Program.run cfg {} events).2.object cfg treeId = some t) {rounds : ℕ}
    (hrounds : t.metaDataCache.nextNodeId < rounds) {cursor : List DbKey} (hcursor : ∀ k, k ∈ cursor ↔ t.flush.dbi.get k ≠ none) :
    ∃ found, t.verify rounds cursor = (found, t.flush) ∧ (found = .ok () ∨ found = .error (.err "verify: memory leak")) ∧
      (found = .ok () ↔ ∀ k : DbKey, k.treeId ≠ treeId → k.nodeId ≠ 0 → t.flush.dbi.get k ≠ none →
        t.flush.dbi.get ⟨treeId, k.nodeId⟩ ≠ none) := by
  obtain ⟨live, hallowed', hmatches, -⟩ :=
    @Program.Matches.run cfg _ _ _ _ _ events [] Program.matches_empty (by simpa using hallowed)
  have hkeyed := (@Program.matches_empty cfg).run_keyed hallowed fun _ _ hget => by cases hget
  have htree : (Program.run cfg {} events).2.tree cfg treeId = t := by rw [Program.tree, hlive, Option.getD_some]
  have hid := hmatches.treeId_eq treeId
  obtain ⟨xs, levels, hholds, -⟩ := hmatches.alike treeId
  rw [htree] at hholds hid
  have hkeyed' : Keyed t.flush.dbi := by
    apply Keyed.flush
    rwa [← htree, tree_dbi]
  have hnodes : (∀ k ∈ cursor, k.nodeId ≠ 0 → (t.flush.dbi.node (t.getKey k.nodeId)).isSome) ↔ ∀ k : DbKey, k.treeId ≠ treeId →
      k.nodeId ≠ 0 → t.flush.dbi.get k ≠ none → t.flush.dbi.get ⟨treeId, k.nodeId⟩ ≠ none := by
    simp only [getKey, hid]
    constructor
    · intro hall k _ h0 hk
      exact (hkeyed'.isSome_node (k := ⟨treeId, k.nodeId⟩) h0).mp (hall k ((hcursor k).mpr hk) h0)
    · intro hothers k hk h0
      rw [hkeyed'.isSome_node (k := ⟨treeId, k.nodeId⟩) h0]
      by_cases htreeId : k.treeId = treeId
      · rw [← htreeId]
        exact (hcursor k).mp hk
      · exact hothers k htreeId h0 ((hcursor k).mp hk)
  rw [← hnodes, hholds.verify_eq hrounds]
  by_cases hall : ∀ k ∈ cursor, k.nodeId ≠ 0 → (t.flush.dbi.node (t.getKey k.nodeId)).isSome
  · rw [if_pos hall]
    exact ⟨_, rfl, Or.inl rfl, fun _ => hall, fun _ => rfl⟩
  · rw [if_neg hall]
    refine ⟨_, rfl, Or.inr rfl, fun h => ?_, fun h => absurd h hall⟩
    cases h

end Program

local instance leaksSha256 : Sha256 := SHA256.real

def twoTrees : List (Event Unit) :=
  [.construct 1, .construct 2, .call 1 (.change (.insertItem ⟨5, ItemId.zero⟩)), .flush 1]

theorem twoTrees_second : ∃ t metaData node, (Program.run .production {} twoTrees).2.object .production 2 = some t ∧
    t.metaDataCache.nextNodeId = 1 ∧
    ∀ k, t.flush.dbi.get k = if k = ⟨1, 0⟩ then some (.metaData metaData) else if k = ⟨1, 1⟩ then some (.node node) else none :=
  ⟨_, _, _, rfl, rfl, fun _ => rfl⟩

/-- The one node of one tree is a leak of the other, which has none. -/
theorem verify_live_twoTrees : ∃ t, (Program.run .production {} twoTrees).2.object .production 2 = some t ∧
    (t.verify 2 [⟨1, 1⟩, ⟨1, 0⟩]).1 = .error (.err "verify: memory leak") := by
  obtain ⟨t, metaData, node, ht, hnext, hget⟩ := twoTrees_second
  have hkeys : ∀ k, t.flush.dbi.get k ≠ none ↔ k = ⟨1, 1⟩ ∨ k = ⟨1, 0⟩ := fun k => by
    rw [hget]
    split_ifs <;> simp [*]
  have hcursor : ∀ k, k ∈ [(⟨1, 1⟩ : DbKey), ⟨1, 0⟩] ↔ t.flush.dbi.get k ≠ none := fun k => by simp [hkeys]
  obtain ⟨found, hverify, hcases, hiff⟩ :=
    Program.verify_live (by decide) ht (by omega : t.metaDataCache.nextNodeId < 2) hcursor
  refine ⟨t, ht, ?_⟩
  rw [hverify]
  refine hcases.resolve_left fun hok => ?_
  have hstranger := (hkeys ⟨2, 1⟩).mp (hiff.mp hok ⟨1, 1⟩ (by decide) (by decide) ((hkeys _).mpr (Or.inl rfl)))
  simp at hstranger

end NE.Storage
