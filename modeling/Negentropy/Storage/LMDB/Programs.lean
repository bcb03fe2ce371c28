import Negentropy.Storage.Agree
import Negentropy.Storage.BTree.Verify
import Negentropy.Storage.LMDB.Breadcrumbs

/-! Programs over one table. Each tree answers like one in memory, whatever is flushed, destroyed and
made again in between, and whatever the other trees do. -/

namespace NE.Storage

open BTree Heap Levels

/-- The node records that an object would find by following the keys from the root in the table. -/
inductive Dbi.Reachable (dbi : Dbi) (treeId : UInt64) : ℕ → Prop
  | root : (dbi.metaData treeId).rootNodeId ≠ 0 → Reachable dbi treeId (dbi.metaData treeId).rootNodeId
  | child {nodeId : ℕ} {node : Node} {k : Key} : Reachable dbi treeId nodeId →
      dbi.get ⟨treeId, nodeId⟩ = some (.node node) → k ∈ keysOf node → k.nodeId ≠ 0 → Reachable dbi treeId k.nodeId

section
variable {cfg : Config} {levels levels' : List (List (Entry Item))} {xs : List Item}

/-! ### Trees with the same items -/

/-- Trees of the same items read alike. -/
theorem Read.answer_eq [Sha256] {α τ τ' : Type} [NodeStore τ] [LawfulNodeStore cfg τ] [NodeStore τ'] [LawfulNodeStore cfg τ']
    {t : τ} {t' : τ'} (h : Represents cfg t levels xs) (h' : Represents cfg t' levels' xs) (read : Read α) :
    read.answer t = read.answer t' := by
  cases read with
  | size => rw [Read.answer, Read.answer, h.size_ok, h'.size_ok]
  | getItem index =>
    have heq : BTree.getItem t index = BTree.getItem t' index := by
      by_cases hi : index < xs.length
      · rw [h.getItem_ok hi, h'.getItem_ok hi]
      · simp only [BTree.getItem, h.size_ok, h'.size_ok, bind, Except.bind, if_pos (not_lt.mp hi)]
    rw [Read.answer, Read.answer, heq]
  | iterate b e cb st =>
    have heq : BTree.iterate t b e cb st = BTree.iterate t' b e cb st := by
      by_cases hbe : b ≤ e ∧ e ≤ xs.length
      · rw [h.iterate_ok hbe.1 hbe.2, h'.iterate_ok hbe.1 hbe.2]
      · simp only [BTree.iterate, h.checkBounds_eq, h'.checkBounds_eq, if_neg hbe, bind, Except.bind]
    rw [Read.answer, Read.answer, heq]
  | findLowerBound b e value =>
    have heq : BTree.findLowerBound t b e value = BTree.findLowerBound t' b e value := by
      by_cases hbe : b ≤ e ∧ e ≤ xs.length
      · rw [h.findLowerBound_ok hbe.1 hbe.2, h'.findLowerBound_ok hbe.1 hbe.2]
      · simp only [BTree.findLowerBound, h.checkBounds_eq, h'.checkBounds_eq, if_neg hbe, bind, Except.bind]
    rw [Read.answer, Read.answer, heq]
  | fingerprint b e =>
    have heq : BTree.fingerprint t b e = BTree.fingerprint t' b e := by
      by_cases hbe : b ≤ e ∧ e ≤ xs.length
      · rw [h.fingerprint_ok hbe.1 hbe.2, h'.fingerprint_ok hbe.1 hbe.2]
      · simp only [BTree.fingerprint, h.checkBounds_eq, h'.checkBounds_eq, if_neg hbe, bind, Except.bind]
    rw [Read.answer, Read.answer, heq]

/-! ### One tree -/

namespace BTreeLMDB

variable {t t' t₀ t₀' : BTreeLMDB cfg}

/-- The tree is one over these items. -/
def Holds (t : BTreeLMDB cfg) (xs : List Item) : Prop := ∃ levels, @Represents _ _ cfg (storage t) t levels xs

/-- Only the nodes and the root count. -/
theorem represents_congr (h : @Represents _ _ cfg (storage t₀) t levels xs) (hsince : Since t₀' t') (hnode : t'.node = t.node)
    (hroot : t'.metaDataCache.rootNodeId = t.metaDataCache.rootNodeId) : @Represents _ _ cfg (storage t₀') t' levels xs := by
  obtain ⟨hstack, hs, hrooted, hstores⟩ := h
  have hholds : Heap.Holds t'.node (cellsOf cfg levels) := by
    let lawful := storage t₀
    exact hnode.symm ▸ hstores.holds
  have hrooted' : Rooted t'.metaDataCache.rootNodeId levels := hroot.symm ▸ hrooted
  let lawful := storage t₀'
  exact ⟨hstack, hs, hrooted', hsince, rfl, hholds⟩

theorem Holds.since (h : Holds t xs) : Since t t := by
  let lawful := storage t
  obtain ⟨levels, h⟩ := h
  exact h.stores.valid

theorem Holds.sorted (h : Holds t xs) : xs.Pairwise (· < ·) := by
  let lawful := storage t
  obtain ⟨levels, h⟩ := h
  exact h.sorted

/-- A call that changes the tree. -/
theorem Holds.apply (h : Holds t xs) (op : BTreeMem.Op) :
    ∃ t' xs', t.apply op = .ok (op.answer xs.toFinset, t') ∧ Holds t' xs' ∧ Since t t' ∧ xs'.toFinset = op.after xs.toFinset := by
  let lawful := storage t
  obtain ⟨levels, h⟩ := h
  have hrestart : ∀ {t' : BTreeLMDB cfg} {levels' : List (List (Entry Item))} {xs' : List Item},
      Represents cfg t' levels' xs' → Holds t' xs' ∧ Since t t' := fun h' =>
    ⟨⟨_, represents_congr h' (Since.restart h'.stores.valid) rfl rfl⟩, h'.stores.valid⟩
  cases op with
  | insertItem item =>
    obtain ⟨t', levels', xs', heq, h', hxs'⟩ := h.insertItem_ok item
    refine ⟨t', xs', ?_, (hrestart h').1, (hrestart h').2, ?_⟩
    · rw [BTreeLMDB.apply, insertItem_eq h, heq]
      simp [BTreeMem.Op.answer]
    · ext y
      simp [BTreeMem.Op.after, hxs']
  | eraseItem item =>
    obtain ⟨t', levels', xs', heq, h', hxs'⟩ := h.eraseItem_ok item
    refine ⟨t', xs', ?_, (hrestart h').1, (hrestart h').2, ?_⟩
    · rw [BTreeLMDB.apply, eraseItem_eq h, heq]
      simp [BTreeMem.Op.answer]
    · ext y
      simp [BTreeMem.Op.after, hxs', and_comm]

/-- The tree and one in memory over the same items. -/
def Alike (t : BTreeLMDB cfg) (mem : BTreeMem cfg) : Prop := ∃ xs levels, Holds t xs ∧ Represents cfg mem levels xs

theorem Alike.since {mem : BTreeMem cfg} (h : Alike t mem) : Since t t := by
  obtain ⟨xs, levels, ht, hmem⟩ := h
  exact ht.since

/-- They answer alike, and stay alike. -/
theorem Alike.perform [Sha256] {α : Type} {mem : BTreeMem cfg} (h : Alike t mem) (call : Call α) :
    (t.perform call).1 = (mem.perform call).1 ∧ Alike (t.perform call).2 (mem.perform call).2 ∧ Since t (t.perform call).2 := by
  let lawful := storage t
  obtain ⟨xs, levels, ht, hmem⟩ := h
  cases call with
  | read read =>
    obtain ⟨levels', ht'⟩ := id ht
    exact ⟨read.answer_eq ht' hmem, ⟨xs, levels, ht, hmem⟩, ht.since⟩
  | change op =>
    obtain ⟨t', xs', heq, ht', hsince, hxs'⟩ := ht.apply op
    obtain ⟨mem', levels', ys, heq', hmem', hys⟩ := BTreeMem.apply_ok hmem op
    have hsame : ys = xs' := (sort_eq hmem'.sorted hys).symm.trans (sort_eq ht'.sorted hxs')
    rw [BTreeLMDB.perform, BTreeMem.perform, heq, heq']
    exact ⟨rfl, ⟨xs', levels', ht', hsame ▸ hmem'⟩, hsince⟩

theorem Alike.flush {mem : BTreeMem cfg} (h : Alike t mem) : Alike t.flush mem := by
  obtain ⟨xs, levels, ⟨levels', ht⟩, hmem⟩ := h
  have hsince := Holds.since ⟨levels', ht⟩
  refine ⟨xs, levels, ⟨levels', represents_congr ht hsince.flush hsince.node_flush ?_⟩, hmem⟩
  rw [flush_metaDataCache]

/-- The records of other trees make no difference. -/
theorem Alike.other {mem : BTreeMem cfg} {dbi : Dbi} (h : Alike t mem)
    (hdbi : ∀ nodeId, dbi.get (t.getKey nodeId) = t.dbi.get (t.getKey nodeId)) : Alike { t with dbi } mem := by
  obtain ⟨xs, levels, ⟨levels', ht⟩, hmem⟩ := h
  have hsince := Holds.since ⟨levels', ht⟩
  have hnode : ({ t with dbi } : BTreeLMDB cfg).node = t.node := by
    funext nodeId
    exact congrArg (fun n => t.dirtyNodeCache[nodeId]? <|> n) (Dbi.node_congr (hdbi nodeId))
  have hmeta : dbi.metaData t.treeId = t.dbi.metaData t.treeId := by
    rw [Dbi.metaData, Dbi.metaData, show (⟨t.treeId, 0⟩ : DbKey) = t.getKey 0 from rfl, hdbi]
  refine ⟨xs, levels, ⟨levels', represents_congr ht ?_ hnode rfl⟩, hmem⟩
  exact ⟨hsince.pos, fun nodeId hne => hsince.lt nodeId (hnode ▸ hne), hmeta.trans hsince.origMetaData_eq, rfl,
    fun _ _ => rfl, fun _ h _ => h⟩

/-- A tree of which there is nothing in the table is empty. -/
theorem alike_empty {dbi : Dbi} {treeId : UInt64} (h : ∀ nodeId, dbi.get ⟨treeId, nodeId⟩ = none) :
    Alike (fresh cfg dbi treeId) ({} : BTreeMem cfg) := by
  have hmeta : dbi.metaData treeId = {} := by rw [Dbi.metaData, h]
  have hnode : node (fresh cfg dbi treeId) = fun _ => none := by
    funext nodeId
    exact (node_of_stored rfl).trans (by rw [Dbi.node, getKey, fresh, h])
  have hsince : Since (fresh cfg dbi treeId) (fresh cfg dbi treeId) := by
    refine ⟨?_, fun nodeId hne => absurd (congrFun hnode nodeId) hne, rfl, rfl, fun _ _ => rfl, fun _ h _ => h⟩
    rw [fresh, hmeta]
    exact Nat.one_pos
  have hroot : NodeStore.getRootNodeId (fresh cfg dbi treeId) = 0 := congrArg MetaData.rootNodeId hmeta
  have hholds : Heap.Holds (fresh cfg dbi treeId).node 0 := hnode.symm ▸ holds_empty
  let lawful := storage (fresh cfg dbi treeId)
  exact ⟨[], [], ⟨[], rfl, List.Pairwise.nil, hroot, hsince, rfl, hholds⟩, BTreeMem.empty_represents⟩

/-- In a table without dangling keys, the records that are reached are those of the levels. -/
theorem reachable_iff {dbi : Dbi} {treeId : UInt64} {height : ℕ}
    (h : WellFormed cfg (fun nodeId => dbi.node ⟨treeId, nodeId⟩) (dbi.metaData treeId).rootNodeId height)
    (hroot : (dbi.metaData treeId).rootNodeId ≠ 0 → 0 < height) (nodeId : ℕ) :
    (∃ node, dbi.get ⟨treeId, nodeId⟩ = some (.node node)) ↔ dbi.Reachable treeId nodeId := by
  have hnode : ∀ {depth id}, depth < height → id ∈ level cfg (fun nodeId => dbi.node ⟨treeId, nodeId⟩)
      (dbi.metaData treeId).rootNodeId depth → ∃ node, dbi.node ⟨treeId, id⟩ = some node := fun hdepth hid =>
    Option.ne_none_iff_exists'.mp ((h.stored _).mpr ⟨_, hdepth, hid⟩)
  simp only [Dbi.get_iff_node]
  constructor
  · rintro ⟨node, hn⟩
    obtain ⟨depth, hdepth, hid⟩ := (h.stored nodeId).mp (by simp [hn])
    clear hn
    induction depth generalizing nodeId with
    | zero =>
      rw [level] at hid
      split_ifs at hid with h0
      · simp at hid
      · rw [List.mem_singleton.mp hid]
        exact .root h0
    | succ depth ih =>
      obtain ⟨id, hparent, hchild⟩ := List.mem_flatMap.mp hid
      obtain ⟨parent, hn⟩ := hnode (by omega) hparent
      rw [nodeAt, hn, Option.getD_some, childIds, List.mem_filter, List.mem_map] at hchild
      obtain ⟨⟨k, hk, rfl⟩, hne⟩ := hchild
      exact .child (ih id (by omega) hparent) (Dbi.get_iff_node.mpr hn) hk (by simpa using hne)
  · intro hreach
    suffices hlevel : ∃ depth < height, nodeId ∈ level cfg (fun nodeId => dbi.node ⟨treeId, nodeId⟩)
        (dbi.metaData treeId).rootNodeId depth by
      obtain ⟨depth, hdepth, hid⟩ := hlevel
      exact hnode hdepth hid
    induction hreach with
    | root h0 => exact ⟨0, hroot h0, by simp [level, h0]⟩
    | @child id node k _ hget hk hne ih =>
      obtain ⟨depth, hdepth, hid⟩ := ih
      have hat : nodeAt cfg (fun nodeId => dbi.node ⟨treeId, nodeId⟩) id = node := by
        rw [nodeAt, Dbi.get_iff_node.mp hget, Option.getD_some]
      have hlast := (h.leaves depth hdepth id hid k (hat.symm ▸ hk)).not.mp hne
      refine ⟨depth + 1, by omega, List.mem_flatMap.mpr ⟨id, hid, ?_⟩⟩
      rw [hat, childIds, List.mem_filter]
      exact ⟨List.mem_map_of_mem hk, by simpa using hne⟩

/-- After a flush. -/
theorem Alike.flush_reachable {mem : BTreeMem cfg} (h : Alike t mem) (nodeId : ℕ) :
    (∃ node, t.flush.dbi.get ⟨t.treeId, nodeId⟩ = some (.node node)) ↔ t.flush.dbi.Reachable t.treeId nodeId := by
  obtain ⟨xs, levels, ⟨levels', ht⟩, -⟩ := h
  have hsince := Holds.since ⟨levels', ht⟩
  have hflush := represents_congr ht hsince.flush hsince.node_flush (congrArg MetaData.rootNodeId t.flush_metaDataCache)
  let lawful := storage t.flush
  have hnodes : t.flush.node = fun nodeId => t.flush.dbi.node ⟨t.treeId, nodeId⟩ := by
    funext nodeId
    rw [hsince.flush_eq]
    exact node_of_stored rfl
  have hroot : t.flush.metaDataCache.rootNodeId = (t.flush.dbi.metaData t.treeId).rootNodeId := by
    rw [hsince.flush_metaData, flush_metaDataCache]
  have hwell : WellFormed cfg t.flush.node t.flush.metaDataCache.rootNodeId levels'.length := hflush.wellFormed
  refine reachable_iff (hnodes ▸ hroot ▸ hwell) (fun h0 => ?_) nodeId
  rw [List.length_pos_iff]
  rintro rfl
  exact h0 (hroot.symm.trans hflush.rooted)

end BTreeLMDB

/-! ### All trees -/

namespace Program

variable {live : Finset UInt64} {p p' : Program} {trees : UInt64 → BTreeMem cfg} {treeId : UInt64}

/-- The tree of an id: the one of its object, or else the one that an object would begin with. -/
def tree (cfg : Config) (p : Program) (treeId : UInt64) : BTreeLMDB cfg :=
  (p.object cfg treeId).getD (BTreeLMDB.fresh cfg p.dbi treeId)

/-- Each tree is like the one in memory. -/
structure Matches (live : Finset UInt64) (p : Program) (trees : UInt64 → BTreeMem cfg) : Prop where
  live_iff : ∀ treeId, treeId ∈ live ↔ p.objects treeId ≠ none
  treeId_eq : ∀ treeId, (p.tree cfg treeId).treeId = treeId
  alike : ∀ treeId, (p.tree cfg treeId).Alike (trees treeId)

theorem matches_empty : Matches ∅ {} fun _ => ({} : BTreeMem cfg) where
  live_iff _ := by simp
  treeId_eq _ := rfl
  alike _ := BTreeLMDB.alike_empty fun _ => rfl

theorem tree_eq (htreeId : p.objects treeId = p'.objects treeId) (hdbi : ∀ k : DbKey, k.treeId = treeId → p'.dbi.get k = p.dbi.get k) :
    p'.tree cfg treeId = { p.tree cfg treeId with dbi := p'.dbi } := by
  rw [tree, tree, object, object, ← htreeId]
  cases p.objects treeId with
  | some cache => rfl
  | none =>
    have hmeta : p'.dbi.metaData treeId = p.dbi.metaData treeId := by rw [Dbi.metaData, Dbi.metaData, hdbi _ rfl]
    rw [Option.map_none, Option.getD_none, Option.map_none, Option.getD_none, BTreeLMDB.fresh, BTreeLMDB.fresh, hmeta]

@[simp] theorem tree_dbi (p : Program) (treeId : UInt64) : (p.tree cfg treeId).dbi = p.dbi := by
  rw [tree, object]
  cases p.objects treeId <;> rfl

/-- One tree is another now. -/
theorem Matches.set {live' : Finset UInt64} {mem : BTreeMem cfg} (h : Matches live p trees)
    (hobjects : ∀ i, i ≠ treeId → p.objects i = p'.objects i) (hid : (p'.tree cfg treeId).treeId = treeId)
    (hothers : ∀ k : DbKey, k.treeId ≠ treeId → p'.dbi.get k = p.dbi.get k) (halike : (p'.tree cfg treeId).Alike mem)
    (hlive : ∀ i, i ∈ live' ↔ p'.objects i ≠ none) : Matches live' p' (Function.update trees treeId mem) where
  live_iff := hlive
  treeId_eq i := by
    by_cases hi : i = treeId
    · rw [hi]
      exact hid
    · rw [tree_eq (hobjects i hi) fun k hk => hothers k (hk ▸ hi)]
      exact h.treeId_eq i
  alike i := by
    by_cases hi : i = treeId
    · rw [hi, Function.update_self]
      exact halike
    · rw [Function.update_of_ne hi, tree_eq (hobjects i hi) fun k hk => hothers k (hk ▸ hi)]
      refine (h.alike i).other fun nodeId => ?_
      rw [tree_dbi]
      apply hothers
      rw [BTreeLMDB.getKey, h.treeId_eq]
      exact hi

/-- A live object. -/
theorem Matches.object (h : Matches live p trees) (hlive : treeId ∈ live) : p.object cfg treeId = some (p.tree cfg treeId) := by
  obtain ⟨cache, hcache⟩ := Option.ne_none_iff_exists'.mp ((h.live_iff treeId).mp hlive)
  rw [tree, Program.object, hcache]
  rfl

@[simp] theorem tree_setObject (p : Program) (treeId : UInt64) (t : BTreeLMDB cfg) : (p.setObject treeId t).tree cfg treeId = t := by
  simp [tree, Program.object, setObject]

/-- An object is another now, or there is one now. -/
theorem Matches.setObject {live' : Finset UInt64} {t : BTreeLMDB cfg} {mem : BTreeMem cfg} (h : Matches live p trees)
    (hlive : ∀ i, i ∈ live' ↔ i = treeId ∨ i ∈ live) (hid : t.treeId = treeId)
    (hothers : ∀ k : DbKey, k.treeId ≠ treeId → t.dbi.get k = p.dbi.get k) (halike : t.Alike mem) :
    Matches live' (p.setObject treeId t) (Function.update trees treeId mem) := by
  refine h.set (fun i hi => (Function.update_of_ne hi _ _).symm) ?_ hothers ?_ fun i => ?_
  · rw [tree_setObject, hid]
  · rw [tree_setObject]
    exact halike
  · by_cases hi : i = treeId
    · simp [hi, hlive, Program.setObject]
    · simp [hi, hlive, h.live_iff, Program.setObject]

theorem Matches.flush_other (h : Matches live p trees) {k : DbKey} (hk : k.treeId ≠ treeId) :
    (p.tree cfg treeId).flush.dbi.get k = p.dbi.get k := by
  rw [BTreeLMDB.flush_other (by rwa [h.treeId_eq]), tree_dbi]

/-- An object is gone: the next one of its tree begins where it ended. -/
theorem Matches.dropObject (h : Matches live p trees) (treeId : UInt64) :
    Matches (live.erase treeId) ⟨(p.tree cfg treeId).flush.dbi, Function.update p.objects treeId none⟩ trees := by
  obtain ⟨p', hp'⟩ : ∃ p' : Program, p' = ⟨(p.tree cfg treeId).flush.dbi, Function.update p.objects treeId none⟩ := ⟨_, rfl⟩
  have htree : p'.tree cfg treeId = (p.tree cfg treeId).flush := by
    have hflush := (h.alike treeId).since.flush_eq
    rw [h.treeId_eq] at hflush
    rw [hflush, hp', tree, Program.object]
    simp only [Function.update_self]
    rfl
  rw [← hp', ← Function.update_eq_self treeId trees]
  apply h.set
  · intro i hi
    rw [hp']
    exact (Function.update_of_ne hi _ _).symm
  · rw [htree, BTreeLMDB.flush_treeId, h.treeId_eq]
  · intro k hk
    rw [hp']
    exact h.flush_other hk
  · rw [htree]
    exact (h.alike treeId).flush
  · intro i
    by_cases hi : i = treeId
    · simp [hi, hp']
    · simp [hi, hp', h.live_iff]

/-- One event. -/
theorem Matches.step [Sha256] {α : Type} {event : Event α} {events : List (Event α)} (h : Matches live p trees)
    (hallowed : Allowed live (event :: events)) :
    ∃ live', Allowed live' events ∧ Matches live' (p.step cfg event).2 (memStep trees event).2 ∧
      (p.step cfg event).1 = (memStep trees event).1 := by
  have hsame : ∀ treeId ∈ live, ∀ i, i ∈ live ↔ i = treeId ∨ i ∈ live := fun treeId hlive i =>
    ⟨Or.inr, fun hi => hi.elim (fun heq => heq ▸ hlive) id⟩
  cases event with
  | construct treeId =>
    obtain ⟨hdead, hallowed⟩ := hallowed
    have hnone : p.objects treeId = none := by
      by_contra hne
      exact hdead ((h.live_iff treeId).mpr hne)
    have hmake := (h.alike treeId).since.make_eq
    rw [tree_dbi, h.treeId_eq] at hmake
    have htree : p.tree cfg treeId = BTreeLMDB.fresh cfg p.dbi treeId := by
      rw [tree, Program.object, hnone]
      rfl
    rw [Program.step, hmake, ← htree]
    refine ⟨insert treeId live, hallowed, ?_, rfl⟩
    have hset := h.setObject (fun i => Finset.mem_insert) (h.treeId_eq treeId) (fun k _ => by rw [tree_dbi]) (h.alike treeId)
    rwa [Function.update_eq_self] at hset
  | destroy treeId =>
    obtain ⟨hlive, hallowed⟩ := hallowed
    rw [Program.step, h.object hlive]
    exact ⟨live.erase treeId, hallowed, h.dropObject treeId, rfl⟩
  | flush treeId =>
    obtain ⟨hlive, hallowed⟩ := hallowed
    rw [Program.step, h.object hlive]
    refine ⟨live, hallowed, ?_, rfl⟩
    have hid : (p.tree cfg treeId).flush.treeId = treeId := (BTreeLMDB.flush_treeId _).trans (h.treeId_eq treeId)
    have hset := h.setObject (hsame treeId hlive) hid (fun _ hk => h.flush_other hk) (h.alike treeId).flush
    rwa [Function.update_eq_self] at hset
  | call treeId call =>
    obtain ⟨hlive, hallowed⟩ := hallowed
    rw [Program.step, h.object hlive]
    obtain ⟨hanswer, halike, hsince⟩ := (h.alike treeId).perform call
    have hid : ((p.tree cfg treeId).perform call).2.treeId = treeId := hsince.treeId_eq.trans (h.treeId_eq treeId)
    refine ⟨live, hallowed, h.setObject (hsame treeId hlive) hid (fun k hk => ?_) halike, hanswer⟩
    rw [hsince.others k (by rwa [h.treeId_eq]), tree_dbi]

/-- Whole runs. -/
theorem Matches.run [Sha256] {α : Type} {events rest : List (Event α)} (h : Matches live p trees)
    (hallowed : Allowed live (events ++ rest)) :
    ∃ live', Allowed live' rest ∧ Matches live' (p.run cfg events).2 (memRun trees events).2 ∧
      (p.run cfg events).1 = (memRun trees events).1 := by
  induction events generalizing live p trees with
  | nil => exact ⟨live, hallowed, h, rfl⟩
  | cons event events ih =>
    obtain ⟨live', hallowed', h', hresult⟩ := h.step hallowed
    obtain ⟨live'', hallowed'', h'', hresults⟩ := ih h' hallowed'
    exact ⟨live'', hallowed'', h'', congrArg₂ List.cons hresult hresults⟩

theorem run_concat [Sha256] {α : Type} (p : Program) (events : List (Event α)) (event : Event α) :
    (p.run cfg (events ++ [event])).2 = ((p.run cfg events).2.step cfg event).2 := by
  induction events generalizing p with
  | nil => rfl
  | cons e events ih => exact ih _

/-- What a flush leaves in the table, also that of a destructor. -/
theorem Matches.records [Sha256] {α : Type} {event : Event α} (h : Matches live p trees) (hallowed : Allowed live [event])
    (hevent : event = .flush treeId ∨ event = .destroy treeId) (nodeId : ℕ) :
    (∃ node, (p.step cfg event).2.dbi.get ⟨treeId, nodeId⟩ = some (.node node)) ↔
      (p.step cfg event).2.dbi.Reachable treeId nodeId := by
  have hdbi : (p.step cfg event).2.dbi = (p.tree cfg treeId).flush.dbi := by
    rcases hevent with rfl | rfl
    · rw [Program.step, h.object hallowed.1]
      rfl
    · rw [Program.step, h.object hallowed.1]
  have hrecords := (h.alike treeId).flush_reachable nodeId
  rw [h.treeId_eq] at hrecords
  rw [hdbi]
  exact hrecords

end Program

/-- Trees in a table answer like trees in memory, each by itself; and after a flush the records of the tree's nodes
are those that its root leads to. -/
theorem lmdb_like_mem [Sha256] {α : Type} (cfg : Config) (events : List (Event α)) (h : Allowed ∅ events) :
    (Program.run cfg {} events).1 = (memRun (fun _ => ({} : BTreeMem cfg)) events).1 ∧
      ∀ treeId before, events = before ++ [.flush treeId] ∨ events = before ++ [.destroy treeId] → ∀ nodeId,
        (∃ node, (Program.run cfg {} events).2.dbi.get ⟨treeId, nodeId⟩ = some (.node node)) ↔
          (Program.run cfg {} events).2.dbi.Reachable treeId nodeId := by
  constructor
  · obtain ⟨-, -, -, hresults⟩ := @Program.Matches.run cfg _ _ _ _ _ events [] Program.matches_empty (by simpa using h)
    exact hresults
  · intro treeId before hlast nodeId
    obtain ⟨event, rfl, hevent⟩ : ∃ event, events = before ++ [event] ∧ (event = .flush treeId ∨ event = .destroy treeId) := by
      rcases hlast with rfl | rfl
      · exact ⟨_, rfl, Or.inl rfl⟩
      · exact ⟨_, rfl, Or.inr rfl⟩
    obtain ⟨live, hallowed, hmatches, -⟩ := Program.Matches.run (@Program.matches_empty cfg) h
    rw [Program.run_concat]
    exact hmatches.records hallowed hevent nodeId

local instance programsSha256 : Sha256 := SHA256.real

/-- Two trees, one of them made again from the table. -/
theorem lmdb_like_mem_reopened :
    let events : List (Event Unit) :=
      [.construct 1, .construct 2, .call 1 (.change (.insertItem ⟨5, ItemId.zero⟩)), .call 2 (.read .size), .destroy 1,
        .construct 1, .call 1 (.read .size), .call 1 (.read (.getItem 1)), .flush 1]
    (Program.run Config.production {} events).1 =
        [.ok .nothing, .ok .nothing, .ok (.changed true), .ok (.size 0), .ok .nothing, .ok .nothing,
          .ok (.size 1), .error (.err "out of range"), .ok .nothing] ∧
      ((∃ node, (Program.run Config.production {} events).2.dbi.get ⟨1, 1⟩ = some (.node node)) ↔
        (Program.run Config.production {} events).2.dbi.Reachable 1 1) := by
  intro events
  obtain ⟨hresults, hrecords⟩ := lmdb_like_mem Config.production events (by decide)
  refine ⟨hresults.trans (by decide +kernel), hrecords 1 (events.take 8) (Or.inl rfl) 1⟩

end

end NE.Storage
