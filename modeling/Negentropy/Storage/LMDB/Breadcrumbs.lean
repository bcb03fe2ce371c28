import Negentropy.Storage.BTree.Verify
import Negentropy.Storage.LMDB.Cache

/-! The pointers that breadcrumbs keep. At the moment a call looks through one, what it leads to has as many items
as the node under its id, although a node that came from the table may have another copy by then. -/

namespace NE.Storage.BTreeLMDB

open BTree Heap Levels

variable {cfg : Config}

/-- A breadcrumb without its pointer. -/
def Crumb.plain (crumb : Crumb) : Breadcrumb := ⟨crumb.index, crumb.nodePtr.nodeId⟩

/-! ### The search -/

/-- The pointer is the one that a read returns. -/
def Found (t : BTreeLMDB cfg) (crumb : Crumb) : Prop := t.findNode crumb.nodePtr.nodeId = .ok (some crumb.nodePtr)

variable {t t₀ : BTreeLMDB cfg}

theorem findNode_nodeId {nodeId : ℕ} {ptr : NodePtr} (h : t.findNode nodeId = .ok (some ptr)) : ptr.nodeId = nodeId := by
  rw [findNode] at h
  split_ifs at h
  · cases h
  · cases h
    rfl
  · split at h
    · cases h
      rfl
    · cases h

/-- The search is the one of the core, and leaves the pointers that it has followed. -/
theorem getNodeRead_eq (t : BTreeLMDB cfg) (nodeId : ℕ) :
    NodeStore.getNodeRead t nodeId = (do
      match ← t.findNode nodeId with
      | none => return none
      | some ptr => return some (← t.deref ptr)) := rfl

theorem searchFrom_ok (x : Item) {fuel nodeId : ℕ} {found : Bool} {crumbs : List Crumb} {r : Bool × List Breadcrumb}
    (hcrumbs : ∀ crumb ∈ crumbs, t.Found crumb)
    (h : BTree.searchFrom t x fuel nodeId found (crumbs.map Crumb.plain) = .ok r) :
    ∃ crumbs', t.searchFrom x fuel nodeId found crumbs = .ok (r.1, crumbs') ∧ crumbs'.map Crumb.plain = r.2 ∧
      ∀ crumb ∈ crumbs', t.Found crumb := by
  induction fuel generalizing nodeId found crumbs with
  | zero =>
    cases h
    exact ⟨crumbs, rfl, rfl, hcrumbs⟩
  | succ fuel ih =>
    rw [BTree.searchFrom] at h
    rw [searchFrom]
    rw [getNodeRead_eq] at h
    cases hfind : t.findNode nodeId with
    | error e =>
      rw [hfind] at h
      cases h
    | ok ptr =>
      rw [hfind] at h
      cases ptr with
      | none =>
        cases h
        exact ⟨crumbs, rfl, rfl, hcrumbs⟩
      | some ptr =>
        cases hderef : t.deref ptr with
        | error e =>
          simp only [bind, Except.bind, hderef] at h
          cases h
        | ok node =>
          simp only [bind, Except.bind, hderef, pure, Except.pure] at h ⊢
          have hid := findNode_nodeId hfind
          refine ih (fun crumb hcrumb => ?_) (by simpa [Crumb.plain, hid] using h)
          rcases List.mem_cons.mp hcrumb with rfl | hcrumb
          · exact (hid ▸ hfind :)
          · exact hcrumbs crumb hcrumb

/-! ### What a pointer leads to -/

/-- During a call that began at `t₀`, the pointer leads to a node with as many items as the node under its id, as long
as this one has the entry of `f`. -/
structure Follows (t₀ : BTreeLMDB cfg) (f : Focus Item) (crumb : Crumb) : Prop where
  plain_eq : crumb.plain = crumbOf f
  reads : ∀ {t : BTreeLMDB cfg} {p n : ℕ}, Since t₀ t → t.node f.id = some (nodeOf cfg f.entry p n) →
    ∃ node, t.deref crumb.nodePtr = .ok node ∧ node.numItems = f.entry.children.length

theorem Found.follows {f : Focus Item} {crumb : Crumb} {p n : ℕ} (hfound : t₀.Found crumb) (hplain : crumb.plain = crumbOf f)
    (hnode : t₀.node f.id = some (nodeOf cfg f.entry p n)) : Follows t₀ f crumb where
  plain_eq := hplain
  reads {t p' n'} hsince hn := by
    have hid : crumb.nodePtr.nodeId = f.id := congrArg Breadcrumb.nodeId hplain
    rw [Found, hid, findNode] at hfound
    split_ifs at hfound with h0 hmem
    · cases hfound
    · injection hfound with hptr
      injection hptr with hptr
      have hcached : t.dirtyNodeCache[f.id]? ≠ none := by
        apply hsince.cached
        · rw [Std.TreeMap.mem_iff_isSome_getElem?] at hmem
          exact Option.isSome_iff_ne_none.mp hmem
        · simp [hn]
      rcases node_cases hn with hcache | ⟨hcache, -⟩
      · exact ⟨_, by rw [← hptr, deref, hcache]; rfl, nodeOf_numItems⟩
      · exact absurd hcache hcached
    · rcases node_cases hnode with hcache | ⟨hcache, hget⟩
      · exact absurd (Std.TreeMap.mem_iff_isSome_getElem?.mpr (by rw [hcache]; rfl)) hmem
      · rw [hget] at hfound
        injection hfound with hptr
        injection hptr with hptr
        exact ⟨_, by rw [← hptr]; rfl, nodeOf_numItems⟩

/-! ### Insert -/

theorem getNodeWrite_again {nodeId : ℕ} {n : Node} {t' : BTreeLMDB cfg} (h0 : nodeId ≠ 0)
    (h : t.getNodeWrite nodeId = .ok (some n, t')) (hn : t'.dirtyNodeCache[nodeId]? = some n) :
    NodeStore.getNodeWrite t' nodeId = NodeStore.getNodeWrite t nodeId := by
  refine Eq.trans ?_ h.symm
  change getNodeWrite t' nodeId = _
  rw [getNodeWrite, if_neg h0, hn]

variable {f f' : Focus Item} {fs : List (Focus Item)} {crumb parent : Crumb} {crumbs : List Crumb} {p n : ℕ}

/-- One breadcrumb. -/
theorem insertStep_eq (x : Item) {st : InsertState (BTreeLMDB cfg)} (hsince : Since t₀ st.store)
    (hn : st.store.node f.id = some (nodeOf cfg f.entry p n)) (hf : Follows t₀ f crumb) :
    insertStep x st crumb = BTree.insertStep cfg x st (crumbOf f) := by
  have h0 := hsince.ne_zero hn
  have hid : crumb.nodePtr.nodeId = f.id := congrArg Breadcrumb.nodeId hf.plain_eq
  -- the node is copied into the cache before the pointer is used
  obtain ⟨t', hwrite, hcases⟩ := getNodeWrite_eq h0 hn
  have hcache : t'.dirtyNodeCache[f.id]? = some (nodeOf cfg f.entry p n) := by
    rcases hcases with ⟨rfl, hcache⟩ | rfl
    · exact hcache
    · simp [cacheNode]
  have hsince' : Since t₀ t' := by
    rcases hcases with ⟨rfl, -⟩ | rfl
    · exact hsince
    · exact hsince.cacheNode (by simp [hn])
  obtain ⟨node, hderef, hnum⟩ := hf.reads hsince' (node_of_cached hcache)
  have hread := hsince.readNode_eq hn
  have hagain := getNodeWrite_again h0 hwrite hcache
  have hmodify : ∀ edit, modifyNode t' f.id edit = modifyNode st.store f.id edit := fun edit => by
    rw [modifyNode, modifyNode, hagain]
  have hsplit : splitNode cfg t' f.id st.newKey = splitNode cfg st.store f.id st.newKey := by
    rw [splitNode, splitNode, hagain]
  rw [insertStep, BTree.insertStep]
  simp only [hid, hwrite, crumbOf, hderef, hread, hnum, hmodify, hsplit, nodeOf_numItems, bind, Except.bind]

/-- The loop. -/
theorem insertLoop_eq {root : ℕ} {x : Item} {xs : List Item} (hs : xs.Pairwise (· < ·)) (hfs : List.Forall₂ (Follows t₀) fs crumbs)
    {B C ch : List (Child Item)} {c : Child Item} {Ls : List (List (Entry Item))} {st : InsertState (BTreeLMDB cfg)}
    (h : @Inserting _ _ cfg (storage t₀) root x xs st fs B c ch C Ls) :
    insertLoop x crumbs st = BTree.insertLoop cfg x (fs.map crumbOf) st := by
  let lawful := storage t₀
  induction hfs generalizing B C ch c Ls st with
  | nil => rfl
  | @cons f crumb fs crumbs hf _ ih =>
    obtain ⟨p, n, hmem⟩ := mem_pending f fs Ls
    have hn := h.stores.cell hmem
    obtain ⟨st', es, hstep, -, h'⟩ := h.next hs
    rw [insertLoop, List.map_cons, BTree.insertLoop, insertStep_eq x h.stores.valid hn hf, hstep]
    exact ih h'

/-! ### Erase -/

/-- A parent. -/
theorem fixUnderflow_eq {nodeId : ℕ} (hsince : Since t₀ t) (hn : t.node f.id = some (nodeOf cfg f.entry p n))
    (hf : Follows t₀ f parent) : t.fixUnderflow nodeId parent = BTree.fixUnderflow cfg t nodeId (crumbOf f) := by
  obtain ⟨node, hderef, hnum⟩ := hf.reads hsince hn
  have hread := hsince.readNode_eq hn
  have hindex : parent.index = f.before.length := congrArg Breadcrumb.index hf.plain_eq
  rw [fixUnderflow, BTree.fixUnderflow]
  simp only [hderef, crumbOf, hread, hnum, hindex, nodeOf_numItems, bind, Except.bind]
  rfl

/-- The first and the second half of the step. -/
theorem eraseStep_split (x : Item) (st : EraseState (BTreeLMDB cfg)) (crumb parent : Crumb) (crumbs : List Crumb) :
    eraseStep x st crumb (parent :: crumbs) = eraseKeys x st crumb.plain >>= fun t => do
      let (t, neighbourRefreshNeeded) ← t.fixUnderflow crumb.nodePtr.nodeId parent
      let (t, needsRemove) ← dropEmpty t crumb.nodePtr.nodeId
      return { store := t, needsRemove, neighbourRefreshNeeded } := by
  rw [eraseStep, eraseKeys, bind_assoc]
  refine bind_congr fun t => ?_
  rw [bind_assoc]
  refine bind_congr fun node => ?_
  simp only [Crumb.plain]
  split_ifs <;> simp only [bind_assoc, pure_bind]

/-- One breadcrumb: the pointer of its parent is used once the keys are right. -/
theorem eraseStep_eq (x : Item) {st : EraseState (BTreeLMDB cfg)} (hcrumb : crumb.plain = crumbOf f)
    (hkeys : ∃ t' p n, eraseKeys x st (crumbOf f) = .ok t' ∧ Since t₀ t' ∧ t'.node f'.id = some (nodeOf cfg f'.entry p n))
    (hf' : Follows t₀ f' parent) :
    eraseStep x st crumb (parent :: crumbs) = BTree.eraseStep cfg x st (crumbOf f) (crumbOf f' :: fs.map crumbOf) := by
  obtain ⟨t', p, n, hkeys, hsince, hn⟩ := hkeys
  have hid : crumb.nodePtr.nodeId = (crumbOf f).nodeId := congrArg Breadcrumb.nodeId hcrumb
  rw [eraseStep_split, hcrumb, BTree.eraseStep_eq, hkeys]
  simp only [bind, Except.bind, eraseRest, fixUnderflow_eq hsince hn hf', hid]

/-- The loop. -/
theorem eraseLoop_eq {root : ℕ} {x : Item} {xs : List Item} {cs : List (Child Item)} {Ls : List (List (Entry Item))}
    {st : EraseState (BTreeLMDB cfg)} (h : @Erasing _ _ cfg (storage t₀) root x xs st f fs cs Ls)
    (hfs : List.Forall₂ (Follows t₀) (f :: fs) crumbs) :
    eraseLoop x crumbs st = BTree.eraseLoop cfg x ((f :: fs).map crumbOf) st := by
  let lawful := storage t₀
  induction fs generalizing f cs Ls st crumbs with
  | nil =>
    obtain ⟨crumb, _, hf, hnil, rfl⟩ := List.forall₂_cons_left_iff.mp hfs
    obtain rfl := List.forall₂_nil_left_iff.mp hnil
    rw [List.map_cons, List.map_nil, ← hf.plain_eq]
    rfl
  | cons f' fs ih =>
    obtain ⟨crumb, crumbs, hf, hrest, rfl⟩ := List.forall₂_cons_left_iff.mp hfs
    obtain ⟨parent, crumbs', hf', -, rfl⟩ := List.forall₂_cons_left_iff.mp hrest
    obtain ⟨st', l0, lb, ra, r0, ms, hstep, -, h'⟩ := h.next
    have heq : eraseStep x st crumb (parent :: crumbs') = .ok st' := by
      rw [eraseStep_eq x hf.plain_eq h.parent hf', ← hstep]
      rfl
    rw [eraseLoop, heq, List.map_cons, BTree.eraseLoop, hstep]
    exact ih h' hrest

/-! ### The calls -/

section
variable {levels : List (List (Entry Item))} {xs : List Item} (h : @Represents _ _ cfg (storage t) t levels xs)
include h

/-- The breadcrumbs of a search. -/
theorem searchItem_ok {x : Item} {found : Bool} (hlevels : fs.map Focus.level = levels.reverse)
    (hsearch : BTree.searchItem t (NodeStore.getRootNodeId t) x = .ok (found, fs.map crumbOf)) :
    ∃ crumbs, t.searchItem (NodeStore.getRootNodeId t) x = .ok (found, crumbs) ∧ List.Forall₂ (Follows t) fs crumbs := by
  obtain ⟨crumbs, hcrumbs, hplain, hfound⟩ := @searchFrom_ok cfg t x _ _ _ [] _ (by simp) hsearch
  have hlen : crumbs.length = fs.length := by simpa using congrArg List.length hplain
  refine ⟨crumbs, hcrumbs, List.forall₂_iff_get.mpr ⟨hlen.symm, fun i hi hi' => ?_⟩⟩
  have hlevel : (fs.get ⟨i, hi⟩).level ∈ levels := by
    rw [← List.mem_reverse, ← hlevels]
    exact List.mem_map_of_mem (List.get_mem _ _)
  refine (hfound _ (List.get_mem _ _)).follows ?_ (@Represents.node_of _ _ _ (storage t) _ _ _ h _ _ _ hlevel)
  simpa [hi, hi'] using congrArg (fun l => l[i]?) hplain

/-- The tree in the table inserts as the core says. -/
theorem insertItem_eq (x : Item) : t.insertItem x = BTree.insertItem cfg t x := by
  let lawful := storage t
  by_cases hroot : NodeStore.getRootNodeId t = 0
  · rw [insertItem, if_pos hroot]
  by_cases hmem : x ∈ xs
  · obtain ⟨pre, y, post, fs, rfl, hsearch, -, hlevels, hloc⟩ := h.searchItem_ok hroot x
    rw [decide_eq_true ((hloc.mem_iff h.sorted).mp hmem)] at hsearch
    obtain ⟨crumbs, hcrumbs, -⟩ := searchItem_ok h hlevels hsearch
    simp only [insertItem, BTree.insertItem, hroot, if_false, hsearch, hcrumbs, if_true, bind, Except.bind]
  · obtain ⟨pre, y, post, f, fs, ch, -, hsearch, hlevels, -, -, hs, -, hinserting⟩ := h.inserting hroot hmem
    obtain ⟨crumbs, hcrumbs, hfollows⟩ := searchItem_ok h hlevels hsearch
    have hloop := insertLoop_eq hs hfollows hinserting
    simp only [insertItem, BTree.insertItem, hroot, if_false, hsearch, hcrumbs, hloop, bind, Except.bind]

/-- The tree in the table erases as the core says. -/
theorem eraseItem_eq (x : Item) : t.eraseItem x = BTree.eraseItem cfg t x := by
  let lawful := storage t
  by_cases hroot : NodeStore.getRootNodeId t = 0
  · rw [eraseItem, BTree.eraseItem, if_pos hroot, if_pos hroot]
  by_cases hmem : x ∈ xs
  · obtain ⟨pre, post, f, fs, -, hsearch, hlevels, -, -, -, herasing⟩ := h.erasing hroot hmem
    obtain ⟨crumbs, hcrumbs, hfollows⟩ := searchItem_ok h hlevels hsearch
    have hloop := eraseLoop_eq herasing hfollows
    simp only [eraseItem, BTree.eraseItem, hroot, if_false, hsearch, hcrumbs, hloop, bind, Except.bind]
  · obtain ⟨pre, y, post, fs, rfl, hsearch, -, hlevels, hloc⟩ := h.searchItem_ok hroot x
    rw [decide_eq_false fun heq => hmem ((hloc.mem_iff h.sorted).mpr heq)] at hsearch
    obtain ⟨crumbs, hcrumbs, -⟩ := searchItem_ok h hlevels hsearch
    simp only [eraseItem, BTree.eraseItem, hroot, if_false, hsearch, hcrumbs, bind, Except.bind, Bool.false_eq_true,
      not_false_eq_true, if_true]

end

end NE.Storage.BTreeLMDB
