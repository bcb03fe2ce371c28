import Negentropy.Storage.BTree.Mend

/-! `eraseItem` on a tree: all breadcrumbs, and the root. -/

namespace NE.BTree

open Heap Levels NodeStore LawfulNodeStore

section
variable {τ : Type} [NodeStore τ] {cfg : Config} [LawfulNodeStore cfg τ] {t : τ} {root : ℕ} {G : Multiset (ℕ × Node)}
  {oldItem : Item} {xs : List Item} {f f' : Focus Item} {cs : List (Child Item)} {Ls : List (List (Entry Item))}
  {st : EraseState τ} {fs : List (Focus Item)}

/-- The children of a parent, found among the entries of the level below. -/
theorem siblings
    (hpath : TreePath cfg (f.left.map Entry.toChild) f.entry.toChild (f.right.map Entry.toChild) (f' :: fs)) :
    ∃ l0 lb ra r0, f.left = l0 ++ lb ∧ f.right = ra ++ r0 ∧ l0.map Entry.toChild = children f'.left ∧
      lb.map Entry.toChild = f'.before ∧ f'.child = f.entry.toChild ∧ ra.map Entry.toChild = f'.after ∧
      r0.map Entry.toChild = children f'.right ∧ (lb ++ ra = [] → r0 = []) := by
  obtain ⟨hchild, hleft, hright, hfits, -⟩ := hpath
  obtain ⟨l0, lb, hl, hl0, hlb⟩ := List.map_eq_append_iff.mp hleft
  obtain ⟨ra, r0, hr, hra, hr0⟩ := List.map_eq_append_iff.mp hright
  refine ⟨l0, lb, ra, r0, hl, hr, hl0, hlb, hchild, hra, hr0, fun hnil => ?_⟩
  obtain ⟨rfl, rfl⟩ := List.append_eq_nil_iff.mp hnil
  by_contra hne
  -- a parent with another one to its right has two children at least
  have hright' : f'.right ≠ [] := by
    intro hnil'
    rw [hnil', children_nil, List.map_eq_nil_iff] at hr0
    exact hne hr0
  have hmin := hfits.mid.2.2 hright'
  have htwo := cfg.two_le_min
  simp [Focus.entry, ← hlb, ← hra] at hmin
  omega

/-- The node of a focus in its level. -/
theorem Stores.focusKeys_ok (h : Stores cfg st.store root (segment (nodeOf cfg) 0 f.level 0 + G))
    (hmax : f.entry.children.length ≤ cfg.MAX_ITEMS)
    (hsh : Shrunk f.before f.child f.after cs st.needsRemove st.neighbourRefreshNeeded)
    (her : Erased oldItem (f.before ++ f.child :: f.after) cs) (hbacked : ∀ c ∈ cs, Backed G c) :
    ∃ t', eraseKeys oldItem st (crumbOf f) = .ok t' ∧
      Stores cfg t' root (segment (nodeOf cfg) 0 (f.left ++ ⟨f.id, cs⟩ :: f.right) 0 + G) := by
  rw [Focus.level, segment_split, Multiset.cons_add] at h
  obtain ⟨t', hkeys, h'⟩ := h.eraseKeys_ok hmax hsh her fun c hc => (hbacked c hc).mono fun x hx => by simp [hx]
  refine ⟨t', hkeys, ?_⟩
  rw [segment_split, Multiset.cons_add]
  exact h'

/-- The last breadcrumb: the root may end without a key. -/
theorem eraseStep_root (h : Stores cfg st.store root (segment (nodeOf cfg) 0 f.level 0 + G)) (hleft : f.left = [])
    (hright : f.right = []) (hmax : f.entry.children.length ≤ cfg.MAX_ITEMS)
    (hsh : Shrunk f.before f.child f.after cs st.needsRemove st.neighbourRefreshNeeded)
    (her : Erased oldItem (f.before ++ f.child :: f.after) cs) (hbacked : ∀ c ∈ cs, Backed G c) :
    ∃ t' es, eraseStep cfg oldItem st (crumbOf f) [] = .ok ⟨t', decide (cs = []), false⟩ ∧
      Stores cfg t' root (segment (nodeOf cfg) 0 es 0 + G) ∧
      (es = [] ∧ cs = [] ∨ es = [⟨f.id, cs⟩] ∧ cs ≠ []) := by
  obtain ⟨t1, hstep, h1⟩ := h.focusKeys_ok hmax hsh her hbacked
  simp only [hleft, hright, List.nil_append, segment_cons, segment_nil, Multiset.cons_add, zero_add] at h1
  by_cases hcs : cs = []
  · subst hcs
    obtain ⟨t2, hdrop, h2⟩ := @Stores.dropEmpty_ok _ _ cfg _ t1 root f.id G [] [] _ 0 0 (by simpa using h1) (by simp)
      (by simp) (by simp)
    refine ⟨t2, [], ?_, by simpa using h2, Or.inl ⟨rfl, rfl⟩⟩
    rw [eraseStep_eq, hstep]
    simp [crumbOf, eraseRest, hdrop, bind, Except.bind, pure, Except.pure]
  · have hkeep := h1.dropEmpty_keep (Multiset.mem_cons_self _ _) (by simpa using hcs)
    refine ⟨t1, [⟨f.id, cs⟩], ?_, by simpa using h1, Or.inr ⟨rfl, hcs⟩⟩
    rw [eraseStep_eq, hstep]
    simp [crumbOf, eraseRest, hkeep, hcs, bind, Except.bind, pure, Except.pure]

/-- What a breadcrumb leaves of the level of `f`, whose node has the children `cs` now: the entries `ms` stand for the
parent's children, which were `before`, the node, and `after`. -/
structure Swept (cfg : Config) (f : Focus Item) (cs before after : List (Child Item)) (l0 lb ra r0 ms : List (Entry Item))
    (needsRemove neighbourRefresh : Bool) : Prop where
  left : f.left = l0 ++ lb
  right : f.right = ra ++ r0
  before_eq : lb.map Entry.toChild = before
  after_eq : ra.map Entry.toChild = after
  alone : lb ++ ra = [] → r0 = []
  repair : Repair cfg f.id cs lb ra ms needsRemove neighbourRefresh

/-- Any other breadcrumb. -/
theorem eraseStep_inner (h : Stores cfg st.store root (segment (nodeOf cfg) 0 f.level 0 + G))
    (hparent : ∃ p n, (f'.id, nodeOf cfg f'.entry p n) ∈ G)
    (hpath : TreePath cfg (f.left.map Entry.toChild) f.entry.toChild (f.right.map Entry.toChild) (f' :: fs))
    (hfits : Fits cfg.MIN_ITEMS cfg.MAX_ITEMS f.level)
    (hsh : Shrunk f.before f.child f.after cs st.needsRemove st.neighbourRefreshNeeded)
    (her : Erased oldItem (f.before ++ f.child :: f.after) cs)
    (hstack : TreeStack cfg (children f.left ++ cs ++ children f.right) Ls xs) (hLs : cellsOf cfg Ls ⊆ G)
    (breadcrumbs : List Breadcrumb) :
    ∃ st' l0 lb ra r0 ms, eraseStep cfg oldItem st (crumbOf f) (crumbOf f' :: breadcrumbs) = .ok st' ∧
      Swept cfg f cs f'.before f'.after l0 lb ra r0 ms st'.needsRemove st'.neighbourRefreshNeeded ∧
      Stores cfg st'.store root (segment (nodeOf cfg) 0 (l0 ++ ms ++ r0) 0 + G) ∧
      TreeStack cfg (children f'.left ++ ms.map Entry.toChild ++ children f'.right) ((l0 ++ ms ++ r0) :: Ls) xs ∧
      Shrunk f'.before f'.child f'.after (ms.map Entry.toChild) st'.needsRemove st'.neighbourRefreshNeeded ∧
      Erased oldItem (f'.before ++ f'.child :: f'.after) (ms.map Entry.toChild) ∧
      (2 ≤ f.level.length → Thick (l0 ++ ms ++ r0)) := by
  obtain ⟨l0, lb, ra, r0, hl, hr, hl0, hlb, hchild, hra, hr0, hlast⟩ := siblings hpath
  obtain ⟨p, n, hparent⟩ := hparent
  have hbacked : ∀ c ∈ children f.left ++ cs ++ children f.right, Backed G c :=
    fun c hc => (backed_of_stack hstack c hc).mono hLs
  have hne := hstack.below_ne_nil (leaf_below_ne_nil xs)
  have hmax := hfits.mid.2.1
  have hlen := hsh.length_eq
  have hlevel : f.level = l0 ++ (lb ++ f.entry :: ra) ++ r0 := by simp [Focus.level, hl, hr]
  have hfits' : Fits cfg.MIN_ITEMS cfg.MAX_ITEMS (l0 ++ (lb ++ f.entry :: ra) ++ r0) := hlevel ▸ hfits
  have hids : ∀ d ∈ lb ++ f.entry :: ra, d.id ≠ 0 := by
    intro d hd
    have hd' : d ∈ f.level := hlevel ▸ List.mem_append_left _ (List.mem_append_right _ hd)
    obtain ⟨p, n, hmem⟩ := mem_segment (nodeOf cfg) 0 0 hd'
    exact h.id_ne_zero (Multiset.mem_add.mpr (Or.inl hmem))
  obtain ⟨t1, hstep, h1⟩ := h.focusKeys_ok hmax hsh her fun c hc => hbacked c (by simp [hc])
  have h1' : Stores cfg t1 root (segment (nodeOf cfg) 0 (l0 ++ (lb ++ ⟨f.entry.id, cs⟩ :: ra) ++ r0) 0 + G) := by
    have hlevel : l0 ++ (lb ++ ⟨f.entry.id, cs⟩ :: ra) ++ r0 = f.left ++ ⟨f.entry.id, cs⟩ :: f.right := by simp [hl, hr]
    rw [hlevel]
    exact h1
  have hnum : (nodeOf cfg f'.entry p n).numItems = (lb ++ f.entry :: ra).length := by
    simp [Focus.entry, ← hlb, ← hra]
  obtain ⟨st', ms, hrest, h', hrepair⟩ := @Stores.eraseRest_ok _ _ cfg _ t1 root G cs l0 lb ra r0 f.entry (crumbOf f')
    breadcrumbs h1' _ hparent hnum (by simp [crumbOf, ← hlb]) hlast hfits' fun c hc => hbacked c (by
      simp only [hl, hr, children_append, List.mem_append] at hc ⊢
      tauto)
  have hmended := hrepair.mended hfits' hids hlast (by split_ifs at hlen <;> simp [Focus.entry] at hlen ⊢ <;> omega)
    (by split_ifs at hlen <;> simp [Focus.entry] at hlen ⊢ <;> omega) fun c hc => hne c (by simp [hl, hc])
  refine ⟨st', l0, lb, ra, r0, ms, ?_, ⟨hl, hr, hlb, hra, hlast, hrepair⟩, h', ⟨?_, hmended.fits, ?_⟩, ?_, ?_, ?_⟩
  · rw [eraseStep_eq, hstep]
    exact hrest
  · simp [hl0, hr0]
  · have hchildren : children (l0 ++ ms ++ r0) = children f.left ++ cs ++ children f.right := by
      simp [hmended.children_eq, hl, hr]
    rw [hchildren]
    exact hstack
  · rw [← hlb, hchild, ← hra]
    exact hmended.shrunk
  · obtain ⟨as, bs, hold, hnew⟩ := her
    refine ⟨items (children lb) ++ as, bs ++ items (children ra), ?_, ?_⟩
    · rw [← hlb, hchild, ← hra]
      rw [items_append, items_cons, items_toChild, items_toChild, toChild_below, Focus.entry, hold]
      simp
    · rw [items_toChild, hmended.children_eq]
      simp [hnew]
  · intro hlen
    exact hmended.thick (hlevel ▸ hlen)

/-- The loop at the breadcrumb of `f`: the levels `Ls` are those of the new tree, the one of `f` and those above it are
of the old one, and `cs` are the children that the entry of `f` is to have. -/
structure Erasing (cfg : Config) [LawfulNodeStore cfg τ] (root : ℕ) (oldItem : Item) (xs : List Item) (st : EraseState τ)
    (f : Focus Item) (fs : List (Focus Item)) (cs : List (Child Item)) (Ls : List (List (Entry Item))) : Prop where
  stores : Stores cfg st.store root (cellsOf cfg (pending (f :: fs) Ls))
  path : TreePath cfg (children f.left ++ f.before) f.child (f.after ++ children f.right) (f :: fs)
  stack : TreeStack cfg (children f.left ++ cs ++ children f.right) Ls xs
  shrunk : Shrunk f.before f.child f.after cs st.needsRemove st.neighbourRefreshNeeded
  erased : Erased oldItem (f.before ++ f.child :: f.after) cs
  rooted : Rooted root (pending (f :: fs) Ls)
  thick : ∀ L ∈ Ls.head?, 2 ≤ (children f.level).length → Thick L

/-- Once the keys of a node are right, its parent is still what it was. -/
theorem Erasing.parent (h : Erasing cfg root oldItem xs st f (f' :: fs) cs Ls) :
    ∃ t' p n, eraseKeys oldItem st (crumbOf f) = .ok t' ∧ Valid cfg t' ∧ nodes cfg t' f'.id = some (nodeOf cfg f'.entry p n) := by
  obtain ⟨h, ⟨-, -, -, hfits, -⟩, hstack, hsh, her, -, -⟩ := h
  rw [pending_cons, cellsOf_pending] at h
  obtain ⟨p, n, hparent⟩ := @mem_pending cfg f' fs Ls
  obtain ⟨t', hkeys, h'⟩ := h.focusKeys_ok hfits.mid.2.1 hsh her fun c hc =>
    (backed_of_stack hstack c (by simp [hc])).mono (cellsOf_subset_pending (f' :: fs) Ls)
  exact ⟨t', p, n, hkeys, h'.valid, h'.cell (Multiset.mem_add.mpr (Or.inr hparent))⟩

/-- One breadcrumb that has others above it. -/
theorem Erasing.next (h : Erasing cfg root oldItem xs st f (f' :: fs) cs Ls) :
    ∃ st' l0 lb ra r0 ms, eraseStep cfg oldItem st (crumbOf f) ((f' :: fs).map crumbOf) = .ok st' ∧
      Swept cfg f cs f'.before f'.after l0 lb ra r0 ms st'.needsRemove st'.neighbourRefreshNeeded ∧
      Erasing cfg root oldItem xs st' f' fs (ms.map Entry.toChild) ((l0 ++ ms ++ r0) :: Ls) := by
  obtain ⟨h, ⟨-, -, -, hfits, hpath⟩, hstack, hsh, her, hroot, hthick⟩ := h
  rw [pending_cons, cellsOf_pending] at h
  rw [pending_cons] at hroot
  obtain ⟨st', l0, lb, ra, r0, ms, hstep, hswept, h', hstack', hsh', her', hthick'⟩ := eraseStep_inner h (mem_pending f' fs Ls)
    hpath hfits hsh her hstack (cellsOf_subset_pending (f' :: fs) Ls) (fs.map crumbOf)
  obtain ⟨-, hl, hr, hfits', hpath'⟩ := hpath
  have hcells : Stores cfg st'.store root (cellsOf cfg (pending (f' :: fs) ((l0 ++ ms ++ r0) :: Ls))) := by
    rw [cellsOf_pending]
    exact h'
  have hcount : (children f'.level).length = f.level.length := by
    have hl := congrArg List.length hl
    have hr := congrArg List.length hr
    simp [Focus.level, Focus.entry] at hl hr ⊢
    omega
  refine ⟨st', l0, lb, ra, r0, ms, hstep, hswept, hcells, ⟨rfl, rfl, rfl, hfits', hpath'⟩, hstack', hsh', her',
    rooted_pending hroot (by simp), fun M hM hlen => ?_⟩
  obtain rfl : l0 ++ ms ++ r0 = M := Option.some_injective _ hM
  apply hthick'
  omega

theorem cellsOf_eq_zero (h : ∀ L ∈ Ls, L = []) : cellsOf cfg Ls = 0 := by
  induction Ls with
  | nil => rfl
  | cons L Ls ih =>
    rw [cellsOf_cons, h L (by simp), ih fun M hM => h M (by simp [hM])]
    simp

/-- A root with one child gives way to it. -/
theorem Stores.shrinkRoot_ok {e : Entry Item} (h : Stores cfg t e.id (cellsOf cfg ([e] :: Ls)))
    (hstack : TreeStack cfg [e.toChild] ([e] :: Ls) xs) (hs : xs.Pairwise (· < ·)) (hthick : ∀ L ∈ Ls.head?, Thick L) :
    ∃ t' levels, shrinkRoot t e.id = .ok t' ∧ Represents cfg t' levels xs ∧
      (levels = [e] :: Ls ∨ levels = Ls ∧ Ls ≠ [] ∧ e.children.length = 1) := by
  have hcells := h
  rw [cellsOf_cons, segment_cons, segment_nil, headId_nil, Multiset.cons_add, zero_add] at hcells
  have hread := hcells.readNode_eq (Multiset.mem_cons_self _ _)
  have hene := hstack.2.1.ne_nil e (by simp)
  have hbase : TreeStack cfg e.children Ls xs := by simpa using hstack.2.2
  obtain ⟨c, cs, hcs⟩ := List.exists_cons_of_ne_nil hene
  have hkey : (nodeOf cfg e 0 0).key 0 = keyOf c := nodeOf_key (show e.children = [] ++ c :: cs from hcs)
  simp only [shrinkRoot, hread, bind, Except.bind, nodeOf_numItems, hkey, keyOf_nodeId, pure, Except.pure]
  rcases Ls with - | ⟨L, Ls⟩
  · -- a leaf
    have hc : c.id = 0 := by
      have hleaf : e.children = xs.map Child.leaf := hbase
      obtain ⟨x, -, rfl⟩ := List.mem_map.mp (show c ∈ xs.map Child.leaf by rw [← hleaf, hcs]; simp)
      rfl
    exact ⟨t, [[e]], by simp [hc], represents_of h hstack hs ⟨e, rfl, rfl, by simp⟩, Or.inl rfl⟩
  · obtain ⟨hL, hfits, hstack'⟩ := hbase
    have hlen : L.length = e.children.length := by rw [← hL, List.length_map]
    by_cases hone : e.children.length = 1
    · obtain ⟨d, rfl⟩ := List.length_eq_one_iff.mp (hlen.trans hone)
      obtain ⟨rfl, rfl⟩ : d.toChild = c ∧ [] = cs := by
        rw [hcs] at hL
        exact List.cons_eq_cons.mp hL
      have hd : d.id ≠ 0 := h.id_ne_zero (Multiset.mem_of_le (Multiset.le_add_left _ _) (by simp : (d.id, nodeOf cfg d 0 0) ∈ cellsOf cfg ([d] :: Ls)))
      obtain ⟨t', hdelete, h'⟩ := (hcells.setRoot d.id).delete
      refine ⟨t', [d] :: Ls, ?_, represents_of h' ⟨rfl, hfits, hstack'⟩ hs ⟨d, rfl, rfl, fun _ => ?_⟩,
        Or.inr ⟨rfl, by simp, hone⟩⟩
      · simp [hone, hd, hdelete]
      · exact hthick [d] (by simp) d rfl
    · have hpos := List.length_pos_iff.mpr hene
      exact ⟨t, [e] :: L :: Ls, by simp [hone], represents_of h hstack hs ⟨e, rfl, rfl, fun _ => by omega⟩, Or.inl rfl⟩

/-- What an erase leaves of the levels of some breadcrumbs, the lowest first, when the node of the first has the children
`cs` now. -/
inductive Shed (cfg : Config) : List (Focus Item) → List (Child Item) → List (List (Entry Item)) → Prop where
  | last {f : Focus Item} {cs : List (Child Item)} : cs ≠ [] → f.left = [] → f.right = [] → Shed cfg [f] cs [[⟨f.id, cs⟩]]
  | shrunk {f : Focus Item} {cs : List (Child Item)} : cs.length = 1 → 2 ≤ f.entry.children.length → Shed cfg [f] cs []
  | next {f f' : Focus Item} {fs : List (Focus Item)} {cs : List (Child Item)} {l0 lb ra r0 ms : List (Entry Item)}
      {needsRemove neighbourRefresh : Bool} {tops : List (List (Entry Item))} :
      Swept cfg f cs f'.before f'.after l0 lb ra r0 ms needsRemove neighbourRefresh →
      Shrunk f'.before f'.child f'.after (ms.map Entry.toChild) needsRemove neighbourRefresh →
      Shed cfg (f' :: fs) (ms.map Entry.toChild) tops → Shed cfg (f :: f' :: fs) cs ((l0 ++ ms ++ r0) :: tops)

/-- The last breadcrumb: a root with a single child gives way to it, and one without children is gone. -/
theorem Erasing.root_ok (h : Erasing cfg root oldItem xs st f [] cs Ls) (hs : xs.Pairwise (· < ·)) :
    ∃ st' t' levels, eraseStep cfg oldItem st (crumbOf f) [] = .ok st' ∧
      (if st'.needsRemove then .ok (setRootNodeId st'.store 0) else shrinkRoot st'.store root) = .ok t' ∧
      Represents cfg t' levels xs ∧ (xs ≠ [] → ∃ tops, levels = tops ++ Ls ∧ Shed cfg [f] cs tops) := by
  obtain ⟨h, ⟨-, -, -, hfits, hpath⟩, hstack, hsh, her, hroot, hthick⟩ := h
  obtain ⟨hleft, hright, hid, hwide⟩ := rooted_focus hpath hroot
  have hlevel : f.level = [f.entry] := by simp [Focus.level, hleft, hright]
  have hstack' : TreeStack cfg cs Ls xs := by simpa [hleft, hright] using hstack
  rw [pending_cons, cellsOf_pending] at h
  obtain ⟨t1, es, hstep, h1, hes⟩ := eraseStep_root h hleft hright hfits.mid.2.1 hsh her fun c hc => backed_of_stack hstack' c hc
  simp only [pending, List.map_nil, List.reverse_nil, List.nil_append] at h1
  refine ⟨⟨t1, decide (cs = []), false⟩, ?_⟩
  rcases hes with ⟨rfl, rfl⟩ | ⟨rfl, hcs⟩
  · obtain ⟨hnil, hempty⟩ := hstack'.of_top_nil
    rw [List.map_eq_nil_iff] at hnil
    refine ⟨setRootNodeId t1 0, [], hstep, by simp, represents_of (h1.setRoot 0 |>.of_eq ?_) ?_ hs rfl, fun hxs => absurd hnil hxs⟩
    · simp [cellsOf_eq_zero hempty]
    · rw [hnil]
      rfl
  · have hlen := hsh.length_eq
    have hmax := hfits.mid.2.1
    have hfits' : Fits cfg.MIN_ITEMS cfg.MAX_ITEMS [(⟨f.id, cs⟩ : Entry Item)] := by
      refine fits_cons.mpr ⟨hcs, ?_, by simp, fits_nil⟩
      simp only [Focus.entry] at hmax
      split_ifs at hlen <;> simp only <;> omega
    have hthick' : ∀ L ∈ Ls.head?, Thick L := by
      intro L hL
      refine hthick L hL ?_
      rw [hlevel, children_cons, children_nil, List.append_nil]
      apply hwide
      rintro rfl
      simp at hL
    subst hid
    obtain ⟨t', levels, hshrink, h', hlevels⟩ := @Stores.shrinkRoot_ok _ _ cfg _ t1 xs Ls ⟨f.id, cs⟩ h1
      ⟨rfl, hfits', by simpa using hstack'⟩ hs hthick'
    refine ⟨t', levels, hstep, by simpa [hcs] using hshrink, h', fun _ => ?_⟩
    rcases hlevels with rfl | ⟨rfl, hLs, hone⟩
    · exact ⟨[[⟨f.id, cs⟩]], rfl, Shed.last hcs hleft hright⟩
    · exact ⟨[], rfl, Shed.shrunk hone (hwide hLs)⟩

/-- The loop, and the root. -/
theorem Erasing.finish (hs : xs.Pairwise (· < ·)) :
    ∀ {fs : List (Focus Item)} {f : Focus Item} {cs : List (Child Item)} {Ls : List (List (Entry Item))} {st : EraseState τ},
      Erasing cfg root oldItem xs st f fs cs Ls →
      ∃ st' t' levels, eraseLoop cfg oldItem ((f :: fs).map crumbOf) st = .ok st' ∧
        (if st'.needsRemove then .ok (setRootNodeId st'.store 0) else shrinkRoot st'.store root) = .ok t' ∧
        Represents cfg t' levels xs ∧ (xs ≠ [] → ∃ tops, levels = tops.reverse ++ Ls ∧ Shed cfg (f :: fs) cs tops) := by
  intro fs
  induction fs with
  | nil =>
    intro f cs Ls st h
    obtain ⟨st', t', levels, hstep, hroot, h', hlevels⟩ := h.root_ok hs
    refine ⟨st', t', levels, ?_, hroot, h', fun hxs => ?_⟩
    · simp [eraseLoop, hstep, bind, Except.bind, pure, Except.pure]
    · obtain ⟨tops, heq, hshed⟩ := hlevels hxs
      refine ⟨tops, ?_, hshed⟩
      cases hshed <;> exact heq
  | cons f' fs ih =>
    intro f cs Ls st h
    obtain ⟨st', l0, lb, ra, r0, ms, hstep, hswept, h'⟩ := h.next
    obtain ⟨st'', t', levels, hloop, hroot, h'', hlevels⟩ := ih h'
    refine ⟨st'', t', levels, ?_, hroot, h'', fun hxs => ?_⟩
    · rw [List.map_cons, eraseLoop, hstep]
      exact hloop
    · obtain ⟨tops, heq, hshed⟩ := hlevels hxs
      exact ⟨(l0 ++ ms ++ r0) :: tops, by simp [heq], Shed.next hswept h'.shrunk hshed⟩

/-- The loop begins, for an item that the search found. -/
theorem Represents.erasing {levels : List (List (Entry Item))} (h : Represents cfg t levels xs)
    (hroot : getRootNodeId t ≠ 0) (hpresent : oldItem ∈ xs) :
    ∃ pre post f fs, xs = pre ++ oldItem :: post ∧
      searchItem t (getRootNodeId t) oldItem = .ok (true, (f :: fs).map crumbOf) ∧
      (f :: fs).map Focus.level = levels.reverse ∧
      TreePath cfg (pre.map Child.leaf) (Child.leaf oldItem) (post.map Child.leaf) (f :: fs) ∧
      (pre ++ post).Pairwise (· < ·) ∧ (∀ y, y ∈ pre ++ post ↔ y ∈ xs ∧ y ≠ oldItem) ∧
      Erasing cfg (getRootNodeId t) oldItem (pre ++ post) { store := t } f fs (f.before ++ f.after) [] := by
  obtain ⟨pre, y, post, fs, rfl, hsearch, hpath, hlevels, hloc⟩ := h.searchItem_ok hroot oldItem
  obtain rfl : oldItem = y := (hloc.mem_iff h.sorted).mp hpresent
  obtain ⟨f, fs, rfl⟩ := List.exists_cons_of_ne_nil (show fs ≠ [] by
    rintro rfl
    obtain rfl := List.reverse_eq_nil_iff.mp hlevels.symm
    exact hroot h.rooted)
  have hpending : pending (f :: fs) [] = levels := by simp [pending, hlevels]
  obtain ⟨hchild, hpre, hpost, hpath'⟩ := id hpath
  have hs : (pre ++ post).Pairwise (· < ·) := h.sorted.sublist (by simp)
  have hmem : ∀ y, y ∈ pre ++ post ↔ y ∈ pre ++ oldItem :: post ∧ y ≠ oldItem := by
    intro y
    obtain ⟨-, hpost, hlt⟩ := List.pairwise_append.mp h.sorted
    constructor
    · intro hy
      rcases List.mem_append.mp hy with hy | hy
      · exact ⟨by simp [hy], (hlt y hy oldItem (by simp)).ne⟩
      · exact ⟨by simp [hy], ((List.pairwise_cons.mp hpost).1 y hy).ne'⟩
    · rintro ⟨hy, hne⟩
      simpa [hne] using hy
  have hbase : TreeStack cfg (children f.left ++ (f.before ++ f.after) ++ children f.right) [] (pre ++ post) := by
    rw [TreeStack, Stack, List.map_append, hpre, hpost]
    simp
  have herased : Erased oldItem (f.before ++ f.child :: f.after) (f.before ++ f.after) :=
    ⟨items f.before, items f.after, by simp [hchild], by simp⟩
  refine ⟨pre, post, f, fs, rfl, by simpa using hsearch, hlevels, hpath, hs, hmem, ?_⟩
  exact ⟨hpending ▸ h.stores, ⟨rfl, rfl, rfl, hpath'⟩, hbase, shrunk_removed, herased, hpending ▸ h.rooted, by simp⟩

theorem Represents.root_ne_zero {levels : List (List (Entry Item))} (h : Represents cfg t levels xs) (hxs : xs ≠ []) :
    getRootNodeId t ≠ 0 := fun hroot => hxs (h.empty hroot).2

/-- An item that the search found is taken out. -/
theorem Represents.eraseItem_present {levels : List (List (Entry Item))} (h : Represents cfg t levels xs)
    (hpresent : oldItem ∈ xs) :
    ∃ t' levels' pre post f fs, xs = pre ++ oldItem :: post ∧ eraseItem cfg t oldItem = .ok (true, t') ∧
      (f :: fs).map Focus.level = levels.reverse ∧
      TreePath cfg (pre.map Child.leaf) (Child.leaf oldItem) (post.map Child.leaf) (f :: fs) ∧
      (∀ y, y ∈ pre ++ post ↔ y ∈ xs ∧ y ≠ oldItem) ∧ Represents cfg t' levels' (pre ++ post) ∧
      (pre ++ post ≠ [] → Shed cfg (f :: fs) (f.before ++ f.after) levels'.reverse) := by
  have hroot := h.root_ne_zero (List.ne_nil_of_mem hpresent)
  obtain ⟨pre, post, f, fs, hxs, hsearch, hlevels, hpath, hs, hmem, herasing⟩ := h.erasing hroot hpresent
  obtain ⟨st', t', levels', hloop, hfinish, h', hshed⟩ := herasing.finish hs
  refine ⟨t', levels', pre, post, f, fs, hxs, ?_, hlevels, hpath, hmem, h', fun hne => ?_⟩
  · simp only [eraseItem, hroot, if_false, hsearch, hloop, not_true_eq_false, bind, Except.bind, pure, Except.pure]
    split_ifs at hfinish ⊢
    · cases hfinish
      rfl
    · rw [hfinish]
  · obtain ⟨tops, heq, hshed⟩ := hshed hne
    simpa [heq] using hshed

/-- `eraseItem` takes the item out, and tells whether it was there. -/
theorem Represents.eraseItem_ok {levels : List (List (Entry Item))} (h : Represents cfg t levels xs) (oldItem : Item) :
    ∃ t' levels' xs', eraseItem cfg t oldItem = .ok (decide (oldItem ∈ xs), t') ∧ Represents cfg t' levels' xs' ∧
      ∀ y, y ∈ xs' ↔ y ∈ xs ∧ y ≠ oldItem := by
  by_cases hmem : oldItem ∈ xs
  · obtain ⟨t', levels', pre, post, f, fs, -, heq, -, -, hxs', h', -⟩ := h.eraseItem_present hmem
    exact ⟨t', levels', pre ++ post, by simpa [hmem] using heq, h', hxs'⟩
  · refine ⟨t, levels, xs, ?_, h, fun y => ⟨fun hy => ⟨hy, fun heq => hmem (heq ▸ hy)⟩, And.left⟩⟩
    have hdec : decide (oldItem ∈ xs) = false := by simpa using hmem
    rw [hdec]
    by_cases hroot : getRootNodeId t = 0
    · simp [eraseItem, hroot, pure, Except.pure]
    · obtain ⟨pre, y, post, fs, rfl, hsearch, -, -, hloc⟩ := h.searchItem_ok hroot oldItem
      have hne : oldItem ≠ y := fun heq => hmem ((hloc.mem_iff h.sorted).mpr heq)
      simp [eraseItem, hroot, hsearch, hne, bind, Except.bind, pure, Except.pure]

end

end NE.BTree
