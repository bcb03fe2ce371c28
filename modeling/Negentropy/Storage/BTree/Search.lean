import Negentropy.Storage.BTree.Store

/-! The tree in a store, and the descent of `searchItem` in it. -/

namespace NE.BTree

open Heap Levels NodeStore LawfulNodeStore

/-- The nodes of these levels. -/
def cellsOf (cfg : Config) (levels : List (List (Entry Item))) : Multiset (ℕ × Node) :=
  (levels.map fun L => segment (nodeOf cfg) 0 L 0).sum

@[simp] theorem cellsOf_nil (cfg : Config) : cellsOf cfg [] = 0 := rfl
@[simp] theorem cellsOf_cons (cfg : Config) (L : List (Entry Item)) (Ls : List (List (Entry Item))) :
    cellsOf cfg (L :: Ls) = segment (nodeOf cfg) 0 L 0 + cellsOf cfg Ls := by simp [cellsOf]
@[simp] theorem cellsOf_append (cfg : Config) (Ls Ms : List (List (Entry Item))) :
    cellsOf cfg (Ls ++ Ms) = cellsOf cfg Ls + cellsOf cfg Ms := by simp [cellsOf]

/-- The root is the one entry of the highest level. Unless it is a leaf it has two children. -/
def Rooted (root : ℕ) : List (List (Entry Item)) → Prop
  | [] => root = 0
  | L :: Ls => ∃ e, L = [e] ∧ e.id = root ∧ (Ls ≠ [] → 2 ≤ e.children.length)

/-- The levels of a tree with its sizes, over a list of items. -/
abbrev TreeStack (cfg : Config) (top : List (Child Item)) (levels : List (List (Entry Item))) (xs : List Item) : Prop :=
  Stack cfg.MIN_ITEMS cfg.MAX_ITEMS top levels (xs.map Child.leaf)

abbrev TreePath (cfg : Config) (B : List (Child Item)) (c : Child Item) (C : List (Child Item))
    (fs : List (Focus Item)) : Prop :=
  Path cfg.MIN_ITEMS cfg.MAX_ITEMS B c C fs

/-- The store is a tree with these levels over the items `xs`. -/
structure Represents {τ : Type} [NodeStore τ] (cfg : Config) [LawfulNodeStore cfg τ] (t : τ)
    (levels : List (List (Entry Item))) (xs : List Item) : Prop where
  stack : TreeStack cfg ((levels.headD []).map Entry.toChild) levels xs
  sorted : xs.Pairwise (· < ·)
  rooted : Rooted (getRootNodeId t) levels
  stores : Stores cfg t (getRootNodeId t) (cellsOf cfg levels)

theorem zero_le_item (x : Item) : ({} : Item) ≤ x := Bound.zero_le x

theorem leaf_below_ne_nil (xs : List Item) : ∀ c ∈ xs.map Child.leaf, c.below ≠ [] := by
  intro c hc
  obtain ⟨x, -, rfl⟩ := List.mem_map.mp hc
  simp

theorem le_of_mem_items {cs : List (Child Item)} {c : Child Item} (hs : (items (c :: cs)).Pairwise (· < ·))
    (hc : c.below ≠ []) {y : Item} (hy : y ∈ items (c :: cs)) : firstOf c ≤ y := by
  obtain ⟨z, zs, hz⟩ := List.exists_cons_of_ne_nil hc
  rw [items_cons, hz, List.cons_append] at hs hy
  have hfirst : firstOf c = z := by simp [firstOf, hz]
  rw [hfirst]
  rcases List.mem_cons.mp hy with rfl | hy
  · exact le_refl _
  · exact ((List.pairwise_cons.mp hs).1 y hy).le

/-! ### The position in a node -/

section
variable {cfg : Config} {x : Item} {e : Entry Item} {p n : ℕ}

theorem nodeOf_key_item {i : ℕ} (hi : i < e.children.length) :
    ((nodeOf cfg e p n).key i).item = firstOf e.children[i] := by
  simp [nodeOf, mkNode_key, List.getD_eq_getElem?_getD, hi]

variable (cfg x p n) in
/-- The index that the search takes: the last child that does not start after `x`, or the first. -/
theorem searchIndex_spec (he : e.children ≠ []) :
    ∃ i, ∃ h : i < e.children.length, searchIndex (nodeOf cfg e p n) x = i ∧
      (i = 0 ∨ firstOf e.children[i] ≤ x) ∧ ∀ h' : i + 1 < e.children.length, x < firstOf e.children[i + 1] := by
  have hpos := List.length_pos_iff.mpr he
  by_cases hnum : e.children.length > 1
  · cases hfind : (List.range' 1 e.children.length).find?
        (fun i => i == e.children.length + 1 || decide (x < ((nodeOf cfg e p n).key i).item)) with
    | none =>
      have hno := List.find?_eq_none.mp hfind (e.children.length - 1) (by simp; omega)
      rw [Bool.or_eq_true, not_or, decide_eq_true_eq, nodeOf_key_item (by omega)] at hno
      exact ⟨e.children.length - 1, by omega, by simp [searchIndex, hnum, hfind], Or.inr (not_lt.mp hno.2),
        fun h' => absurd h' (by omega)⟩
    | some i =>
      obtain ⟨hi, hmem, hbefore⟩ := List.find?_range'_eq_some.mp hfind
      simp only [List.mem_range'_1] at hmem
      have hin : i < e.children.length := by
        -- the slot behind the last key is zero, and nothing is less than a zero item
        by_contra hge
        obtain rfl : i = e.children.length := by omega
        have hzero : ((nodeOf cfg e p n).key e.children.length).item = {} := by
          simp [nodeOf, mkNode_key, List.getD_eq_getElem?_getD, Key.zero]
        rw [hzero] at hi
        simp [not_lt.mpr (zero_le_item x)] at hi
      have hlt : x < firstOf e.children[i] := by
        rw [← show ((nodeOf cfg e p n).key i).item = firstOf e.children[i] from nodeOf_key_item hin]
        have hne : i ≠ e.children.length + 1 := by omega
        simpa [hne] using hi
      refine ⟨i - 1, by omega, by simp [searchIndex, hnum, hfind], ?_, fun h' => ?_⟩
      · by_cases h0 : i - 1 = 0
        · exact Or.inl h0
        · have hno := hbefore (i - 1) (by omega) (by omega)
          have hne : i - 1 ≠ e.children.length + 1 := by omega
          rw [nodeOf_key_item (by omega)] at hno
          exact Or.inr (by simpa [hne] using hno)
      · simpa [show i - 1 + 1 = i by omega] using hlt
  · exact ⟨0, hpos, by simp [searchIndex, hnum]; omega, Or.inl rfl, fun h' => absurd h' (by omega)⟩

variable (cfg x p n) in
/-- The child that the search takes, and those around it. -/
theorem searchIndex_split (he : e.children ≠ []) (hne : ∀ c ∈ e.children, c.below ≠ [])
    (hs : (items e.children).Pairwise (· < ·)) :
    ∃ before c after, e.children = before ++ c :: after ∧ searchIndex (nodeOf cfg e p n) x = before.length ∧
      (before = [] ∨ firstOf c ≤ x) ∧ ∀ y ∈ items after, x < y := by
  obtain ⟨i, hi, hindex, hle, hlt⟩ := searchIndex_spec cfg x p n he
  have hsplit : e.children = e.children.take i ++ e.children[i] :: e.children.drop (i + 1) := by
    rw [← List.drop_eq_getElem_cons hi, List.take_append_drop]
  refine ⟨_, _, _, hsplit, by simp [hindex]; omega, ?_, ?_⟩
  · rcases hle with rfl | hle
    · exact Or.inl (List.take_zero)
    · exact Or.inr hle
  · intro y hy
    by_cases hi' : i + 1 < e.children.length
    · have hdrop := List.drop_eq_getElem_cons hi'
      rw [hdrop] at hy
      rw [hsplit, hdrop, items_append, items_cons] at hs
      have hs' := (List.pairwise_append.mp (List.pairwise_append.mp hs).2.1).2.1
      exact (hlt hi').trans_le (le_of_mem_items hs' (hne _ (List.getElem_mem hi')) hy)
    · rw [List.drop_eq_nil_of_le (by omega)] at hy
      simp at hy

end

/-! ### The descent -/

/-- The breadcrumb of a focus. -/
def crumbOf (f : Focus Item) : Breadcrumb := ⟨f.before.length, f.id⟩

/-- Where `x` is, or would be put: not before `c` (unless nothing is left of `c`), and
before everything right of it. -/
structure Located (x : Item) (A : List (Child Item)) (c : Child Item) (Z : List (Child Item)) : Prop where
  left : A = [] ∨ firstOf c ≤ x
  right : ∀ y ∈ items Z, x < y

section
variable {τ : Type} [NodeStore τ] {cfg : Config} [LawfulNodeStore cfg τ] {t : τ} {root : ℕ} {F : Multiset (ℕ × Node)}
  {x : Item} {xs : List Item}

/-- At the place found, `x` is there or nowhere. -/
theorem Located.mem_iff {pre post : List Item} {y : Item}
    (h : Located x (pre.map Child.leaf) (Child.leaf y) (post.map Child.leaf)) (hs : (pre ++ y :: post).Pairwise (· < ·)) :
    x ∈ pre ++ y :: post ↔ x = y := by
  constructor
  · intro hx
    rcases List.mem_append.mp hx with hx | hx
    · have hyx : y ≤ x := by
        rcases h.left with hnil | hle
        · rw [List.map_eq_nil_iff.mp hnil] at hx
          simp at hx
        · exact hle
      exact absurd hyx (not_le.mpr ((List.pairwise_append.mp hs).2.2 x hx y (by simp)))
    · rcases List.mem_cons.mp hx with rfl | hx
      · rfl
      · exact absurd (h.right x (by simpa using hx)) (lt_irrefl x)
  · rintro rfl
    simp

/-- The descent follows the levels down to the base, and leaves a breadcrumb at each. -/
theorem searchFrom_ok (hstores : Stores cfg t root F) {Ls : List (List (Entry Item))} (hF : cellsOf cfg Ls ≤ F)
    (hs : xs.Pairwise (· < ·)) :
    ∀ {fuel : ℕ} {A Z : List (Child Item)} {c : Child Item} {fs : List (Focus Item)} {found : Bool},
      Ls.length ≤ fuel → TreeStack cfg (A ++ c :: Z) Ls xs → TreePath cfg A c Z fs → Located x A c Z →
      (found = true → x ∈ xs) → (Ls = [] → ∀ y, c = Child.leaf y → x = y → found = true) →
      ∃ pre y post fs', xs = pre ++ y :: post ∧
        searchFrom t x fuel c.id found (fs.map crumbOf) = .ok (decide (x = y), fs'.map crumbOf) ∧
        TreePath cfg (pre.map Child.leaf) (Child.leaf y) (post.map Child.leaf) fs' ∧
        fs'.map Focus.level = Ls.reverse ++ fs.map Focus.level ∧
        Located x (pre.map Child.leaf) (Child.leaf y) (post.map Child.leaf) := by
  induction Ls with
  | nil =>
    intro fuel A Z c fs found _ hstack hpath hloc hfound hbase
    obtain ⟨pre, rest, rfl, hpre, hrest⟩ := List.map_eq_append_iff.mp hstack.symm
    obtain ⟨y, post, rfl, rfl, rfl⟩ := List.map_eq_cons_iff.mp hrest
    subst hpre
    refine ⟨pre, y, post, fs, rfl, ?_, hpath, rfl, hloc⟩
    have hdec : found = decide (x = y) := by
      rw [Bool.eq_iff_iff, decide_eq_true_eq, ← hloc.mem_iff hs]
      exact ⟨hfound, fun hmem => hbase rfl y rfl ((hloc.mem_iff hs).mp hmem)⟩
    subst hdec
    cases fuel with
    | zero => rfl
    | succ fuel =>
      rw [searchFrom, leaf_id, hstores.getNodeRead_zero]
      rfl
  | cons L Ls ih =>
    intro fuel A Z c fs found hfuel hstack hpath hloc hfound _
    obtain ⟨fuel, rfl⟩ : ∃ k, fuel = k + 1 := ⟨fuel - 1, by simp at hfuel; omega⟩
    obtain ⟨hL, hfits, hstack⟩ := hstack
    obtain ⟨left, rest, rfl, hleft, hrest⟩ := List.map_eq_append_iff.mp hL
    obtain ⟨e, right, rfl, hec, hright⟩ := List.map_eq_cons_iff.mp hrest
    have hne : ∀ c ∈ children (left ++ e :: right), c.below ≠ [] := hstack.below_ne_nil (leaf_below_ne_nil xs)
    have hitems := hstack.items_eq
    rw [items_leaf, children_append, children_cons, items_append, items_append] at hitems
    have hse : (items e.children).Pairwise (· < ·) := by
      rw [← hitems] at hs
      exact (List.pairwise_append.mp (List.pairwise_append.mp hs).2.1).1
    have hene := hfits.ne_nil e (by simp)
    rw [cellsOf_cons] at hF
    obtain ⟨p, n, hcell⟩ := mem_segment (nodeOf cfg) 0 0 (show e ∈ left ++ e :: right by simp)
    have hcell := Multiset.mem_of_le ((Multiset.le_add_right _ _).trans hF) hcell
    obtain ⟨before, d, after, hsplit, hindex, hd, hafter⟩ :=
      searchIndex_split cfg x p n hene (fun c hc => hne c (by simp [hc])) hse
    have hdne : d.below ≠ [] := hne d (by simp [hsplit])
    have hkey : (nodeOf cfg e p n).key before.length = keyOf d := nodeOf_key hsplit
    have hdmem : firstOf d ∈ xs := by
      rw [← hitems, hsplit]
      simp [firstOf_mem hdne]
    have hpath' := hpath.descend rfl hleft hec hright hfits hsplit
    have hloc' : Located x (children left ++ before) d (after ++ children right) := by
      constructor
      · rcases hd with rfl | hd
        · rcases hloc.left with hA | hle
          · rw [← hleft, List.map_eq_nil_iff] at hA
            exact Or.inl (by simp [hA])
          · rw [← hec, firstOf_toChild hsplit hdne] at hle
            exact Or.inr hle
        · exact Or.inr hd
      · intro y hy
        rw [items_append, List.mem_append] at hy
        rcases hy with hy | hy
        · exact hafter y hy
        · exact hloc.right y (by rw [← hright, items_toChild]; exact hy)
    have hstack' : TreeStack cfg (children left ++ before ++ d :: (after ++ children right)) Ls xs := by
      simpa [hsplit] using hstack
    have hfound' : (found || x == firstOf d) = true → x ∈ xs := by
      rw [Bool.or_eq_true, beq_iff_eq]
      rintro (h | rfl)
      · exact hfound h
      · exact hdmem
    obtain ⟨pre, y, post, fs', hxs, heq, hpath'', hlevels, hloc''⟩ := ih ((Multiset.le_add_left _ _).trans hF)
      (by simpa using hfuel) hstack' hpath' hloc' hfound' (fun _ y hy hxy => by simp [hy, hxy])
    refine ⟨pre, y, post, fs', hxs, ?_, hpath'', ?_, hloc''⟩
    · rw [← hec, toChild_id, searchFrom, hstores.getNodeRead_eq hcell]
      simp only [bind, Except.bind, hindex, hkey, keyOf_item, keyOf_nodeId]
      exact heq
    · rw [hlevels]
      have hentry : Focus.entry ⟨left, e.id, before, d, after, right⟩ = e := by rw [Focus.entry, ← hsplit]
      simp [Focus.level, hentry]

/-! ### Trees in a store -/

theorem represents_of {levels : List (List (Entry Item))} (h : Stores cfg t root (cellsOf cfg levels))
    (hstack : TreeStack cfg ((levels.headD []).map Entry.toChild) levels xs) (hs : xs.Pairwise (· < ·))
    (hroot : Rooted root levels) : Represents cfg t levels xs := by
  obtain rfl := h.root_eq
  exact ⟨hstack, hs, hroot, h⟩

/-- An id of 0 for the root goes with the empty tree. -/
theorem Represents.empty {levels : List (List (Entry Item))} (h : Represents cfg t levels xs) (hroot : getRootNodeId t = 0) :
    levels = [] ∧ xs = [] := by
  rcases levels with - | ⟨L, Ls⟩
  · exact ⟨rfl, List.map_eq_nil_iff.mp (show [] = xs.map Child.leaf from h.stack).symm⟩
  · obtain ⟨e, rfl, hid, -⟩ := h.rooted
    have hstores := h.stores
    rw [cellsOf_cons, segment_cons, Multiset.cons_add] at hstores
    exact absurd (hid.trans hroot) (hstores.id_ne_zero (Multiset.mem_cons_self _ _))

/-- Any other root is the only entry of the highest level. -/
theorem Represents.top {levels : List (List (Entry Item))} (h : Represents cfg t levels xs) (hroot : getRootNodeId t ≠ 0) :
    ∃ e Ls, levels = [e] :: Ls ∧ e.id = getRootNodeId t ∧ (Ls ≠ [] → 2 ≤ e.children.length) := by
  rcases levels with - | ⟨L, Ls⟩
  · exact absurd h.rooted hroot
  · obtain ⟨e, rfl, hid, hwide⟩ := h.rooted
    exact ⟨e, Ls, rfl, hid, hwide⟩

theorem card_cellsOf (cfg : Config) (Ls : List (List (Entry Item))) : (cellsOf cfg Ls).card = (Ls.map List.length).sum := by
  induction Ls with
  | nil => rfl
  | cons L Ls ih => rw [cellsOf_cons, Multiset.card_add, card_segment, ih, List.map_cons, List.sum_cons]

theorem length_le_card_cellsOf {Ls : List (List (Entry Item))} (h : ∀ L ∈ Ls, L ≠ []) :
    Ls.length ≤ (cellsOf cfg Ls).card := by
  rw [card_cellsOf, ← List.length_map (f := List.length)]
  refine List.length_le_sum_of_one_le _ fun n hn => ?_
  obtain ⟨L, hL, rfl⟩ := List.mem_map.mp hn
  exact List.length_pos_iff.mpr (h L hL)

/-- The store's bound on the depth is no limit. -/
theorem Represents.depth_le {levels : List (List (Entry Item))} (h : Represents cfg t levels xs) :
    levels.length ≤ maxDepth t := by
  refine (length_le_card_cellsOf ?_).trans (card_le h.stores.valid h.stores.holds)
  by_cases hroot : getRootNodeId t = 0
  · simp [(h.empty hroot).1]
  · obtain ⟨e, Ls, rfl, -⟩ := h.top hroot
    exact (h.stack.ne_nil (by simp)).2

/-- `searchItem` on a tree. -/
theorem Represents.searchItem_ok {levels : List (List (Entry Item))} (h : Represents cfg t levels xs)
    (hroot : getRootNodeId t ≠ 0) (x : Item) :
    ∃ pre y post fs, xs = pre ++ y :: post ∧
      searchItem t (getRootNodeId t) x = .ok (decide (x = y), fs.map crumbOf) ∧
      TreePath cfg (pre.map Child.leaf) (Child.leaf y) (post.map Child.leaf) fs ∧
      fs.map Focus.level = levels.reverse ∧ Located x (pre.map Child.leaf) (Child.leaf y) (post.map Child.leaf) := by
  obtain ⟨e, Ls, rfl, hid, -⟩ := h.top hroot
  have hsearch := @searchFrom_ok _ _ _ _ _ _ _ x xs h.stores _ le_rfl h.sorted (maxDepth t) [] [] e.toChild [] false
    h.depth_le h.stack ⟨rfl, rfl⟩ ⟨Or.inl rfl, by simp⟩ (by simp) (by simp)
  rw [toChild_id, hid] at hsearch
  simpa [searchItem] using hsearch

end

end NE.BTree
