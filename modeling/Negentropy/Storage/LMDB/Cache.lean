import Negentropy.Storage.BTree.Search
import Negentropy.Storage.BTreeLMDB

/-! The cache over the table. A node that is in both is what the cache has of it, and so an object is
a storage of nodes, whatever of them has been flushed. -/

namespace NE.Storage

open BTree Heap

namespace Dbi

variable (dbi : Dbi) (k k' : DbKey) (v : Record)

@[simp] theorem get_put : (dbi.put k v).get k' = if k' = k then some v else dbi.get k' := rfl
@[simp] theorem get_del : (dbi.del k).get k' = if k' = k then none else dbi.get k' := rfl

/-- The node under a key. -/
def node : Option Node :=
  match dbi.get k with
  | some (.node node) => some node
  | _ => none

/-- The metadata that an object of this tree starts with. -/
def metaData (treeId : UInt64) : MetaData :=
  match dbi.get ⟨treeId, 0⟩ with
  | some (.metaData metaData) => metaData
  | _ => {}

variable {dbi k k' v}

theorem get_iff_node {n : Node} : dbi.get k = some (.node n) ↔ dbi.node k = some n := by
  rw [node]
  rcases dbi.get k with - | metaData | n' <;> simp

theorem node_congr {dbi' : Dbi} (h : dbi'.get k = dbi.get k) : dbi'.node k = dbi.node k := by rw [node, node, h]

@[simp] theorem node_put_node (n : Node) : (dbi.put k (.node n)).node k' = if k' = k then some n else dbi.node k' := by
  rw [node, get_put]
  split_ifs <;> rfl

@[simp] theorem node_put_metaData (m : MetaData) :
    (dbi.put k (.metaData m)).node k' = if k' = k then none else dbi.node k' := by
  rw [node, get_put]
  split_ifs <;> rfl

@[simp] theorem node_del : (dbi.del k).node k' = if k' = k then none else dbi.node k' := by
  rw [node, get_del]
  split_ifs <;> rfl

end Dbi

namespace BTreeLMDB

variable {cfg : Config}

/-- The nodes of a tree. -/
def node (t : BTreeLMDB cfg) (nodeId : ℕ) : Option Node := t.dirtyNodeCache[nodeId]? <|> t.dbi.node (t.getKey nodeId)

variable {t t₀ : BTreeLMDB cfg} {nodeId : ℕ} {n : Node}

theorem node_of_cached (h : t.dirtyNodeCache[nodeId]? = some n) : t.node nodeId = some n := by simp [node, h]

theorem node_of_stored (h : t.dirtyNodeCache[nodeId]? = none) : t.node nodeId = t.dbi.node (t.getKey nodeId) := by
  simp [node, h]

/-- An object in the course of a call that began at `t₀`. The record of the metadata and the records of the other trees
stay as they are, and a node that was in the cache stays there until it is deleted. -/
structure Since (t₀ t : BTreeLMDB cfg) : Prop where
  pos : 0 < t.metaDataCache.nextNodeId
  lt : ∀ nodeId, t.node nodeId ≠ none → 0 < nodeId ∧ nodeId < t.metaDataCache.nextNodeId
  origMetaData_eq : t.dbi.metaData t.treeId = t.origMetaData
  treeId_eq : t.treeId = t₀.treeId
  others : ∀ k, k.treeId ≠ t₀.treeId → t.dbi.get k = t₀.dbi.get k
  cached : ∀ nodeId, t₀.dirtyNodeCache[nodeId]? ≠ none → t.node nodeId ≠ none → t.dirtyNodeCache[nodeId]? ≠ none

namespace Since

theorem node_zero (h : Since t₀ t) : t.node 0 = none := by
  by_contra hne
  exact absurd (h.lt 0 hne).1 (lt_irrefl 0)

theorem ne_zero (h : Since t₀ t) (hn : t.node nodeId = some n) : nodeId ≠ 0 := by
  rintro rfl
  simp [h.node_zero] at hn

/-- The next call begins. -/
theorem restart (h : Since t₀ t) : Since t t := { h with treeId_eq := rfl, others := fun _ _ => rfl, cached := fun _ h _ => h }

end Since

/-- The two places of a node. -/
theorem node_cases (hn : t.node nodeId = some n) :
    t.dirtyNodeCache[nodeId]? = some n ∨ t.dirtyNodeCache[nodeId]? = none ∧ t.dbi.get (t.getKey nodeId) = some (.node n) := by
  cases hcache : t.dirtyNodeCache[nodeId]? with
  | some n' =>
    rw [node_of_cached hcache] at hn
    exact Or.inl hn
  | none =>
    rw [node_of_stored hcache, Dbi.node] at hn
    split at hn
    · next hget => exact Or.inr ⟨rfl, by rw [hget, Option.some.inj hn]⟩
    · cases hn

/-- The pointer that a read returns. -/
def pointer (t : BTreeLMDB cfg) (nodeId : ℕ) (n : Node) : NodePtr :=
  if nodeId ∈ t.dirtyNodeCache then .cached nodeId else .stored nodeId n

theorem findNode_eq (h0 : nodeId ≠ 0) (hn : t.node nodeId = some n) :
    t.findNode nodeId = .ok (some (t.pointer nodeId n)) := by
  rw [findNode, if_neg h0, pointer]
  rcases node_cases hn with hcache | ⟨hcache, hget⟩
  · have hmem : nodeId ∈ t.dirtyNodeCache := by simp [Std.TreeMap.mem_iff_isSome_getElem?, hcache]
    rw [if_pos hmem, if_pos hmem]
  · have hmem : nodeId ∉ t.dirtyNodeCache := by simp [Std.TreeMap.mem_iff_isSome_getElem?, hcache]
    rw [if_neg hmem, if_neg hmem, hget]

/-! ### The storage of a tree -/

theorem compare_ne {i j : ℕ} (h : i ≠ j) : compare j i ≠ .eq := fun heq => h (Nat.compare_eq_eq.mp heq).symm

/-- `t` with a node put into the cache. -/
def cacheNode (t : BTreeLMDB cfg) (nodeId : ℕ) (n : Node) : BTreeLMDB cfg :=
  { t with dirtyNodeCache := t.dirtyNodeCache.insert nodeId n }

theorem node_cacheNode : (t.cacheNode nodeId n).node = Function.update t.node nodeId (some n) := by
  funext i
  rw [node, cacheNode, Std.TreeMap.getElem?_insert, Function.update_apply]
  by_cases hi : i = nodeId
  · subst hi
    simp
  · rw [if_neg (compare_ne hi), if_neg hi]
    rfl

theorem cacheNode_cached (i : ℕ) (h : t.dirtyNodeCache[i]? ≠ none) : (t.cacheNode nodeId n).dirtyNodeCache[i]? ≠ none := by
  rw [cacheNode, Std.TreeMap.getElem?_insert]
  split_ifs <;> simp [h]

/-- A node that there is, in the cache now. -/
theorem Since.cacheNode (h : Since t₀ t) (hn : t.node nodeId ≠ none) : Since t₀ (t.cacheNode nodeId n) where
  pos := h.pos
  lt i hi := by
    apply h.lt
    rw [node_cacheNode, Function.update_apply] at hi
    split_ifs at hi with heq
    · exact heq ▸ hn
    · exact hi
  origMetaData_eq := h.origMetaData_eq
  treeId_eq := h.treeId_eq
  others := h.others
  cached i hi hne := by
    by_cases heq : i = nodeId
    · subst heq
      simp [BTreeLMDB.cacheNode]
    · apply cacheNode_cached
      apply h.cached i hi
      rwa [node_cacheNode, Function.update_of_ne heq] at hne

theorem getNodeWrite_eq (h0 : nodeId ≠ 0) (hn : t.node nodeId = some n) :
    ∃ t', t.getNodeWrite nodeId = .ok (some n, t') ∧ (t' = t ∧ t.dirtyNodeCache[nodeId]? = some n ∨ t' = t.cacheNode nodeId n) := by
  rw [getNodeWrite, if_neg h0]
  rcases node_cases hn with hcache | ⟨hcache, hget⟩
  · rw [hcache]
    exact ⟨t, rfl, Or.inl ⟨rfl, rfl⟩⟩
  · rw [hcache, hget]
    exact ⟨_, rfl, Or.inr rfl⟩

/-- `t` without a node. -/
def dropNode (t : BTreeLMDB cfg) (nodeId : ℕ) : BTreeLMDB cfg :=
  { t with dirtyNodeCache := t.dirtyNodeCache.erase nodeId, dbi := t.dbi.del (t.getKey nodeId) }

theorem node_dropNode : (t.dropNode nodeId).node = Function.update t.node nodeId none := by
  funext i
  simp only [node, dropNode, Std.TreeMap.getElem?_erase, Function.update_apply, Dbi.node_del, getKey]
  by_cases hi : i = nodeId
  · subst hi
    simp
  · rw [if_neg (compare_ne hi), if_neg hi, if_neg (by simpa using hi)]

theorem Since.dropNode (h : Since t₀ t) (h0 : nodeId ≠ 0) : Since t₀ (t.dropNode nodeId) where
  pos := h.pos
  lt i hi := by
    apply h.lt
    rw [node_dropNode, Function.update_apply] at hi
    split_ifs at hi
    · exact absurd rfl hi
    · exact hi
  origMetaData_eq := by
    rw [← show t.dbi.metaData t.treeId = (t.dropNode nodeId).origMetaData from h.origMetaData_eq]
    simp [Dbi.metaData, BTreeLMDB.dropNode, getKey, Ne.symm h0]
  treeId_eq := h.treeId_eq
  others k hk := by
    have hne : k ≠ t.getKey nodeId := by
      rintro rfl
      exact hk h.treeId_eq
    rw [← h.others k hk]
    exact if_neg hne
  cached i hi hne := by
    rw [node_dropNode, Function.update_apply] at hne
    split_ifs at hne with heq
    · exact absurd rfl hne
    · rw [BTreeLMDB.dropNode, Std.TreeMap.getElem?_erase, if_neg (compare_ne heq)]
      exact h.cached i hi hne

/-- `t` with one more node. -/
def freshNode (t : BTreeLMDB cfg) : BTreeLMDB cfg := t.makeNode.2

theorem Since.next_free (h : Since t₀ t) : t.node t.metaDataCache.nextNodeId = none := by
  by_contra hne
  exact absurd (h.lt _ hne).2 (lt_irrefl _)

theorem cached_freshNode (hfree : t.node t.metaDataCache.nextNodeId = none) (i : ℕ) :
    t.freshNode.dirtyNodeCache[i]? =
      if i = t.metaDataCache.nextNodeId then some (Node.zero cfg) else t.dirtyNodeCache[i]? := by
  have hcache : t.metaDataCache.nextNodeId ∉ t.dirtyNodeCache := by
    rw [Std.TreeMap.mem_iff_isSome_getElem?]
    intro hsome
    obtain ⟨n, hn⟩ := Option.isSome_iff_exists.mp hsome
    rw [node_of_cached hn] at hfree
    cases hfree
  rw [freshNode, makeNode, Std.TreeMap.getElem?_insertIfNew]
  by_cases hi : i = t.metaDataCache.nextNodeId
  · rw [if_pos hi, if_pos ⟨Nat.compare_eq_eq.mpr hi.symm, hcache⟩]
  · rw [if_neg hi, if_neg fun h => compare_ne hi h.1]

theorem node_freshNode (hfree : t.node t.metaDataCache.nextNodeId = none) :
    t.freshNode.node = Function.update t.node t.metaDataCache.nextNodeId (some (Node.zero cfg)) := by
  funext i
  rw [node, cached_freshNode hfree, Function.update_apply]
  split_ifs
  · rfl
  · rfl

theorem Since.freshNode (h : Since t₀ t) : Since t₀ t.freshNode where
  pos := Nat.succ_pos _
  lt i hi := by
    rw [node_freshNode h.next_free, Function.update_apply] at hi
    split_ifs at hi with heq
    · exact heq ▸ ⟨h.pos, Nat.lt_succ_self _⟩
    · exact ⟨(h.lt i hi).1, (h.lt i hi).2.trans (Nat.lt_succ_self _)⟩
  origMetaData_eq := h.origMetaData_eq
  treeId_eq := h.treeId_eq
  others := h.others
  cached i hi hne := by
    rw [cached_freshNode h.next_free]
    split_ifs with heq
    · simp
    · apply h.cached i hi
      rwa [node_freshNode h.next_free, Function.update_of_ne heq] at hne

/-- An object in the course of a call that began at `t₀` is a storage of nodes. -/
abbrev storage (t₀ : BTreeLMDB cfg) : LawfulNodeStore cfg (BTreeLMDB cfg) where
  Valid := Since t₀
  nodes := node
  nodes_zero h := h.node_zero
  read_zero h := rfl
  read {t id n} h hn := by
    have hread : NodeStore.getNodeRead t id = do
      match ← t.findNode id with
      | none => return none
      | some ptr => return some (← t.deref ptr) := rfl
    rw [hread, findNode_eq (h.ne_zero hn) hn, pointer]
    rcases node_cases hn with hcache | ⟨hcache, hget⟩
    · have hmem : id ∈ t.dirtyNodeCache := by simp [Std.TreeMap.mem_iff_isSome_getElem?, hcache]
      rw [if_pos hmem]
      simp only [bind, Except.bind, deref, hcache]
      rfl
    · have hmem : id ∉ t.dirtyNodeCache := by simp [Std.TreeMap.mem_iff_isSome_getElem?, hcache]
      rw [if_neg hmem]
      rfl
  prepare {t id n} h hn := by
    obtain ⟨t', heq, ⟨rfl, -⟩ | rfl⟩ := getNodeWrite_eq (h.ne_zero hn) hn
    · exact ⟨_, heq, h, rfl, rfl⟩
    · refine ⟨_, heq, h.cacheNode (by simp [hn]), ?_, rfl⟩
      rw [node_cacheNode, ← hn, Function.update_eq_self]
  write {t id n} new h hn := ⟨h.cacheNode (by simp [hn]), node_cacheNode, rfl⟩
  make {t} h := ⟨_, _, rfl, h.pos.ne', h.next_free, h.freshNode, node_freshNode h.next_free, rfl⟩
  delete {t id n} h hn := ⟨_, if_neg (h.ne_zero hn), h.dropNode (h.ne_zero hn), node_dropNode, rfl⟩
  setRoot {t} root h := ⟨⟨h.pos, h.lt, h.origMetaData_eq, h.treeId_eq, h.others, h.cached⟩, rfl, rfl⟩
  card_le {t cells} h hholds := by
    have hsub : (cells.map Prod.fst).toFinset ⊆ Finset.range t.metaDataCache.nextNodeId := by
      intro id hid
      rw [Multiset.mem_toFinset, ← hholds.ne_none_iff] at hid
      exact Finset.mem_range.mpr (h.lt id hid).2
    have hcard := Finset.card_le_card hsub
    rw [Multiset.toFinset_card_of_nodup hholds.nodup, Multiset.card_map, Finset.card_range] at hcard
    exact hcard

theorem Since.readNode_eq (h : Since t₀ t) (hn : t.node nodeId = some n) : readNode t nodeId = .ok n := by
  rw [readNode, (storage t₀).read h hn]
  rfl

/-! ### Flush -/

section
variable (treeId : UInt64) (dbi : Dbi)

/-- The loop of `flush`. -/
def putNodes (nodes : List (ℕ × Node)) : Dbi := nodes.foldl (fun dbi p => dbi.put ⟨treeId, p.1⟩ (.node p.2)) dbi

theorem putNodes_other {nodes : List (ℕ × Node)} {k : DbKey} (h : ∀ p ∈ nodes, k ≠ ⟨treeId, p.1⟩) :
    (putNodes treeId dbi nodes).get k = dbi.get k := by
  induction nodes generalizing dbi with
  | nil => rfl
  | cons p nodes ih =>
    rw [putNodes, List.foldl_cons]
    refine (ih _ fun q hq => h q (by simp [hq])).trans ?_
    rw [Dbi.get_put, if_neg (h p (by simp))]

theorem putNodes_mem {nodes : List (ℕ × Node)} (hd : nodes.Pairwise fun p q => p.1 ≠ q.1) {p : ℕ × Node} (hp : p ∈ nodes) :
    (putNodes treeId dbi nodes).get ⟨treeId, p.1⟩ = some (.node p.2) := by
  induction nodes generalizing dbi with
  | nil => simp at hp
  | cons q nodes ih =>
    obtain ⟨hq, hd⟩ := List.pairwise_cons.mp hd
    rw [putNodes, List.foldl_cons]
    rcases List.mem_cons.mp hp with rfl | hp
    · refine (putNodes_other treeId _ fun r hr heq => hq r hr ?_).trans (if_pos rfl)
      simpa using heq
    · exact ih _ hd hp

end

theorem flush_dbi (t : BTreeLMDB cfg) :
    t.flush.dbi =
      if t.metaDataCache ≠ t.origMetaData then
        (putNodes t.treeId t.dbi t.dirtyNodeCache.toList).put ⟨t.treeId, 0⟩ (.metaData t.metaDataCache)
      else putNodes t.treeId t.dbi t.dirtyNodeCache.toList := by
  rw [flush, Std.TreeMap.foldl_eq_foldl_toList]
  dsimp only
  split_ifs <;> rfl

/-- What an object that has just been made looks like. -/
def fresh (cfg : Config) (dbi : Dbi) (treeId : UInt64) : BTreeLMDB cfg where
  dbi := dbi
  treeId := treeId
  metaDataCache := dbi.metaData treeId
  origMetaData := dbi.metaData treeId
  dirtyNodeCache := ∅

theorem flush_treeId (t : BTreeLMDB cfg) : t.flush.treeId = t.treeId := by
  rw [flush]
  dsimp only
  split_ifs <;> rfl

theorem flush_metaDataCache (t : BTreeLMDB cfg) : t.flush.metaDataCache = t.metaDataCache := by
  rw [flush]
  dsimp only
  split_ifs <;> rfl

theorem flush_other {k : DbKey} (hk : k.treeId ≠ t.treeId) : t.flush.dbi.get k = t.dbi.get k := by
  have hput : (putNodes t.treeId t.dbi t.dirtyNodeCache.toList).get k = t.dbi.get k :=
    putNodes_other _ _ fun p _ heq => hk (heq ▸ rfl)
  rw [flush_dbi]
  split_ifs
  · rw [Dbi.get_put, if_neg, hput]
    rintro rfl
    exact hk rfl
  · exact hput

theorem putNodes_cache (nodeId : ℕ) :
    (putNodes t.treeId t.dbi t.dirtyNodeCache.toList).get (t.getKey nodeId) =
      (t.dirtyNodeCache[nodeId]?.map Record.node).or (t.dbi.get (t.getKey nodeId)) := by
  cases hcache : t.dirtyNodeCache[nodeId]? with
  | some n =>
    have hmem := Std.TreeMap.mem_toList_iff_getElem?_eq_some.mpr hcache
    have hkeys := t.dirtyNodeCache.distinct_keys_toList.imp fun h heq => h (Nat.compare_eq_eq.mpr heq)
    exact putNodes_mem t.treeId t.dbi hkeys hmem
  | none =>
    refine putNodes_other _ _ fun p hp heq => ?_
    obtain rfl : nodeId = p.1 := congrArg DbKey.nodeId heq
    rw [Std.TreeMap.mem_toList_iff_getElem?_eq_some.mp hp] at hcache
    cases hcache

namespace Since

theorem cached_zero (h : Since t₀ t) : t.dirtyNodeCache[0]? = none := by
  by_contra hne
  obtain ⟨n, hn⟩ := Option.ne_none_iff_exists'.mp hne
  exact h.ne_zero (node_of_cached hn) rfl

theorem make_eq (h : Since t₀ t) : make t.dbi t.treeId = .ok (fresh cfg t.dbi t.treeId) := by
  have hzero := h.node_zero
  rw [node_of_stored h.cached_zero, getKey, Dbi.node] at hzero
  rw [make, fresh, Dbi.metaData]
  rcases hget : t.dbi.get ⟨t.treeId, 0⟩ with - | metaData | n
  · rfl
  · rfl
  · rw [hget] at hzero
    cases hzero

theorem flush_metaData (h : Since t₀ t) : t.flush.dbi.metaData t.treeId = t.metaDataCache := by
  have hput : (putNodes t.treeId t.dbi t.dirtyNodeCache.toList).metaData t.treeId = t.dbi.metaData t.treeId := by
    have hget := @putNodes_cache cfg t 0
    rw [h.cached_zero] at hget
    rw [Dbi.metaData, Dbi.metaData, show (⟨t.treeId, 0⟩ : DbKey) = t.getKey 0 from rfl, hget]
    rfl
  rw [flush_dbi]
  split_ifs with hmeta
  · simp [Dbi.metaData]
  · rw [hput, h.origMetaData_eq]
    exact (not_ne_iff.mp hmeta).symm

/-- After `flush` all is in the table, as if the object had just been made from it. -/
theorem flush_eq (h : Since t₀ t) : t.flush = fresh cfg t.flush.dbi t.treeId := by
  rw [fresh, h.flush_metaData, flush]
  dsimp only
  split_ifs with hmeta
  · rfl
  · rw [← not_ne_iff.mp hmeta]

theorem node_flush (h : Since t₀ t) : t.flush.node = t.node := by
  funext nodeId
  have hfresh : t.flush.node nodeId = t.flush.dbi.node (t.getKey nodeId) := by
    rw [h.flush_eq]
    exact node_of_stored rfl
  have hput : (putNodes t.treeId t.dbi t.dirtyNodeCache.toList).node (t.getKey nodeId) = t.node nodeId := by
    rw [Dbi.node, putNodes_cache]
    cases hcache : t.dirtyNodeCache[nodeId]? with
    | some n => exact (node_of_cached hcache).symm
    | none => exact (node_of_stored hcache).symm
  rw [hfresh, flush_dbi]
  split_ifs
  · rw [Dbi.node_put_metaData]
    split_ifs with hkey
    · obtain rfl : nodeId = 0 := congrArg DbKey.nodeId hkey
      exact h.node_zero.symm
    · exact hput
  · exact hput

theorem flush (h : Since t₀ t) : Since t.flush t.flush where
  pos := t.flush_metaDataCache ▸ h.pos
  lt nodeId hne := t.flush_metaDataCache ▸ h.lt nodeId (h.node_flush ▸ hne)
  origMetaData_eq := by
    rw [h.flush_eq]
    rfl
  treeId_eq := rfl
  others _ _ := rfl
  cached _ h _ := h

end Since

end BTreeLMDB

end NE.Storage
