import Mathlib.Data.Prod.Lex
import Negentropy.Storage.BTree.Shape

/-! An item inserted and erased again. A round either changes nothing but the node of the item, or it
brings the tree closer to a shape of which that holds. -/

namespace NE.BTree

open Heap Levels NodeStore LawfulNodeStore

variable {cfg : Config} {x : Item} {xs : List Item}

/-! ### The node for an item -/

/-- At most one entry of a level is the one that a search takes. -/
theorem Located.unique {A A' B B' : List (Entry Item)} {e e' : Entry Item}
    (h : Located x (A.map Entry.toChild) e.toChild (B.map Entry.toChild))
    (h' : Located x (A'.map Entry.toChild) e'.toChild (B'.map Entry.toChild)) (heq : A ++ e :: B = A' ++ e' :: B')
    (hne : ∀ d ∈ A ++ e :: B, items d.children ≠ []) : A = A' ∧ e = e' ∧ B = B' := by
  -- the entry further right starts behind `x`
  have hstep : ∀ {A as B B' : List (Entry Item)} {e e' : Entry Item}, items e'.children ≠ [] →
      Located x (A.map Entry.toChild) e.toChild (B.map Entry.toChild) →
      Located x ((A ++ as).map Entry.toChild) e'.toChild (B'.map Entry.toChild) → e :: B = as ++ e' :: B' → as = [] := by
    intro A as B B' e e' he' h h' heq
    rcases as with - | ⟨a, as⟩
    · rfl
    obtain ⟨rfl, rfl⟩ := List.cons_eq_cons.mp heq
    have hmem : firstOf e'.toChild ∈ items e'.children := @firstOf_mem e'.toChild he'
    have hlt := h.right (firstOf e'.toChild) (by simp [hmem])
    exact absurd (h'.left.resolve_left (by simp)) (not_le.mpr hlt)
  rcases List.append_eq_append_iff.mp heq with ⟨as, rfl, htail⟩ | ⟨as, rfl, htail⟩
  · obtain rfl := hstep (hne e' (by rw [heq]; simp)) h h' htail
    simpa using htail
  · obtain rfl := hstep (hne e (by simp)) h' h htail
    simpa [eq_comm] using htail

theorem firstOf_le {e : Entry Item} (hs : (items e.children).Pairwise (· < ·)) (hne : ∀ c ∈ e.children, c.below ≠ [])
    (hx : x ∈ items e.children) : firstOf e.toChild ≤ x := by
  obtain ⟨c, cs, hcs⟩ := List.exists_cons_of_ne_nil (show e.children ≠ [] by
    rintro hnil
    simp [hnil] at hx)
  have hc := hne c (by simp [hcs])
  rw [firstOf_toChild hcs hc]
  rw [hcs] at hs hx
  exact le_of_mem_items hs hc hx

/-- An entry of the lowest level. -/
theorem sorted_of_base {A B : List (Entry Item)} {e : Entry Item} (hbase : children (A ++ e :: B) = xs.map Child.leaf)
    (hs : xs.Pairwise (· < ·)) : (items e.children).Pairwise (· < ·) ∧ ∀ c ∈ e.children, c.below ≠ [] := by
  refine ⟨?_, fun c hc => leaf_below_ne_nil xs c (hbase ▸ by simp [hc])⟩
  rw [← items_leaf xs, ← hbase] at hs
  simp only [children_append, children_cons, items_append] at hs
  exact (List.pairwise_append.mp (List.pairwise_append.mp hs).2.1).1

theorem items_ne_nil_of_base {L : List (Entry Item)} (hbase : children L = xs.map Child.leaf)
    (hfits : Fits cfg.MIN_ITEMS cfg.MAX_ITEMS L) : ∀ e ∈ L, items e.children ≠ [] := fun e he =>
  items_ne_nil (hfits.ne_nil e he) fun c hc => leaf_below_ne_nil xs c (hbase ▸ List.mem_flatMap.mpr ⟨e, he, hc⟩)

/-- The node for an item is the one that has it, if there is one. -/
theorem located_of_mem {A B : List (Entry Item)} {e : Entry Item} (hbase : children (A ++ e :: B) = xs.map Child.leaf)
    (hs : xs.Pairwise (· < ·)) (hx : x ∈ items e.children) :
    Located x (A.map Entry.toChild) e.toChild (B.map Entry.toChild) := by
  obtain ⟨hse, hne⟩ := sorted_of_base hbase hs
  rw [← items_leaf xs, ← hbase] at hs
  simp only [children_append, children_cons, items_append] at hs
  have hlt := (List.pairwise_append.mp (List.pairwise_append.mp hs).2.1).2.2
  exact ⟨Or.inr (firstOf_le hse hne hx), fun y hy => hlt x hx y (by simpa using hy)⟩

/-- There is room for `x` in the node that it belongs to. -/
def Roomy (cfg : Config) (x : Item) (L : List (Entry Item)) : Prop :=
  ∃ A e B, L = A ++ e :: B ∧ Located x (A.map Entry.toChild) e.toChild (B.map Entry.toChild) ∧
    e.children.length < cfg.MAX_ITEMS

/-- The last node, if it has an item that is no greater. -/
theorem roomy_last {A : List (Entry Item)} {e : Entry Item} {z : Item} (hbase : children (A ++ [e]) = xs.map Child.leaf)
    (hs : xs.Pairwise (· < ·)) (hz : z ∈ items e.children) (hzx : z ≤ x) (hroom : e.children.length < cfg.MAX_ITEMS) :
    Roomy cfg x (A ++ [e]) := by
  obtain ⟨hse, hne⟩ := sorted_of_base hbase hs
  exact ⟨A, e, [], rfl, ⟨Or.inr ((firstOf_le hse hne hz).trans hzx), by simp⟩, hroom⟩

/-- The node for an item, parted in two. -/
theorem roomy_parted {A B : List (Entry Item)} {c d e : Entry Item} (hbase : children (A ++ c :: B) = xs.map Child.leaf)
    (hs : xs.Pairwise (· < ·)) (hloc : Located x (A.map Entry.toChild) c.toChild (B.map Entry.toChild))
    (hparts : d.children ++ e.children = c.children) (hd : d.children ≠ []) (hdroom : d.children.length < cfg.MAX_ITEMS)
    (heroom : e.children.length < cfg.MAX_ITEMS) : Roomy cfg x (A ++ d :: e :: B) := by
  obtain ⟨hsc, hne⟩ := sorted_of_base hbase hs
  rw [← hparts] at hsc hne
  by_cases hle : firstOf e.toChild ≤ x
  · exact ⟨A ++ [d], e, B, by simp, ⟨Or.inr hle, hloc.right⟩, heroom⟩
  · refine ⟨A, d, e :: B, rfl, ⟨?_, fun y hy => ?_⟩, hdroom⟩
    · obtain ⟨c', cs, hcs⟩ := List.exists_cons_of_ne_nil hd
      have hc' : c'.below ≠ [] := hne c' (by simp [hcs])
      have hfirst : firstOf d.toChild = firstOf c.toChild :=
        (firstOf_toChild hcs hc').trans (firstOf_toChild (by rw [← hparts, hcs]; rfl) hc').symm
      exact hfirst ▸ hloc.left
    · simp only [List.map_cons, items_cons, toChild_below, List.mem_append] at hy
      rcases hy with hy | hy
      · rw [items_append] at hsc
        have hfirst := firstOf_le (List.pairwise_append.mp hsc).2.1 (fun c hc => hne c (by simp [hc])) hy
        exact (not_le.mp hle).trans_le hfirst
      · exact hloc.right y hy

/-- A node that the erase leaves large enough is not touched. -/
theorem Shed.kept {g : Focus Item} {gs : List (Focus Item)} {cs : List (Child Item)} {tops : List (List (Entry Item))}
    (h : Shed cfg (g :: gs) cs tops) (hmin : cfg.MIN_ITEMS ≤ cs.length) :
    (g.left ++ ⟨g.id, cs⟩ :: g.right) ∈ tops.head? := by
  have htwo := cfg.two_le_min
  cases h with
  | last _ hleft hright => simp [hleft, hright]
  | shrunk hone _ => omega
  | @next _ _ _ _ l0 lb ra r0 ms needsRemove neighbourRefresh tops hswept hsh hshed =>
    obtain ⟨hl, hr, -, -, -, hrepair⟩ := hswept
    cases hrepair with
    | kept _ _ => simp [hl, hr]
    | gone hcs =>
      simp [hcs] at hmin
      omega
    | intoRight hsmall _ => omega
    | intoLeft hsmall _ => omega
    | shareRight hsmall _ _ => omega
    | shareLeft hsmall _ _ => omega

/-- What becomes of a node with room leaves room. -/
theorem Shed.roomy {g : Focus Item} {gs : List (Focus Item)} {cs : List (Child Item)} {tops : List (List (Entry Item))}
    (h : Shed cfg (g :: gs) cs tops) (htops : tops ≠ []) (hfits : Fits cfg.MIN_ITEMS cfg.MAX_ITEMS (g.left ++ ⟨g.id, cs⟩ :: g.right))
    (hbase : children (g.left ++ ⟨g.id, cs⟩ :: g.right) = xs.map Child.leaf) (hs : xs.Pairwise (· < ·))
    (hloc : Located x (g.left.map Entry.toChild) (Entry.toChild ⟨g.id, cs⟩) (g.right.map Entry.toChild))
    (hroom : cs.length < cfg.MAX_ITEMS) : ∃ L ∈ tops.head?, Roomy cfg x L := by
  by_cases hmin : cfg.MIN_ITEMS ≤ cs.length
  · exact ⟨_, h.kept hmin, _, _, _, rfl, hloc, hroom⟩
  cases h with
  | last _ hleft hright => exact ⟨_, rfl, [], _, [], rfl, ⟨Or.inl rfl, by simp⟩, hroom⟩
  | shrunk _ _ => exact absurd rfl htops
  | @next _ _ _ _ l0 lb ra r0 ms needsRemove neighbourRefresh tops hswept hsh hshed =>
    -- a node that is too small is the last of its level
    obtain ⟨hl, hr, -, -, -, hrepair⟩ := hswept
    have hright : g.right = [] := by
      by_contra hne
      exact hmin (hfits.mid.2.2 hne)
    obtain ⟨rfl, rfl⟩ := List.append_eq_nil_iff.mp (hr.symm.trans hright)
    rw [hright] at hfits hbase
    have hfirst : firstOf (Entry.toChild ⟨g.id, cs⟩) ∈ items cs :=
      firstOf_mem (items_ne_nil_of_base hbase hfits ⟨g.id, cs⟩ (by simp))
    have htwo := cfg.two_le_min
    have hlt := cfg.rebalance_lt_max
    refine ⟨_, rfl, ?_⟩
    cases hrepair with
    | kept _ _ =>
      refine ⟨l0 ++ lb, ⟨g.id, cs⟩, [], by simp, ?_, hroom⟩
      rwa [hl, hright] at hloc
    | gone hcs => exact absurd hcs (hfits.ne_nil ⟨g.id, cs⟩ (by simp))
    | @intoLeft d lb _ hsmall htotal =>
      have hlevel : l0 ++ (lb ++ [⟨d.id, d.children ++ cs⟩]) ++ [] = (l0 ++ lb) ++ [⟨d.id, d.children ++ cs⟩] := by simp
      rw [hlevel]
      exact roomy_last (by simpa [hl] using hbase) hs (by simp [hfirst]) (hloc.left.resolve_left (by simp [hl])) (by simp; omega)
    | @shareLeft d lb _ m hsmall hm htotal =>
      have hlevel : ∀ a b : Entry Item, l0 ++ (lb ++ [a, b]) ++ [] = (l0 ++ lb ++ [a]) ++ [b] := by simp
      have hmid : Fits cfg.MIN_ITEMS cfg.MAX_ITEMS ((l0 ++ lb) ++ d :: [⟨g.id, cs⟩]) := by simpa [hl] using hfits
      obtain ⟨-, hmax, hmin⟩ := hmid.mid
      have hmin := hmin (by simp)
      have hdrop : (d.children ++ cs).drop ((m + 1) / 2) = d.children.drop ((m + 1) / 2) ++ cs :=
        List.drop_append_of_le_length (by omega)
      rw [hlevel]
      refine roomy_last ?_ hs ?_ (hloc.left.resolve_left (by simp [hl])) (by simp; omega)
      · rw [← hbase, hl]
        simp only [children_append, children_cons, children_nil, List.append_nil, List.append_assoc, List.take_append_drop]
      · simp [hdrop, hfirst]

/-- The entry that a search took. -/
theorem Located.entry {f : Focus Item} {fs : List (Focus Item)} {B C : List (Child Item)} {c : Child Item}
    (h : Located x B c C) (hpath : TreePath cfg B c C (f :: fs)) (hs : (items f.entry.children).Pairwise (· < ·))
    (hne : ∀ d ∈ f.entry.children, d.below ≠ []) :
    Located x (f.left.map Entry.toChild) f.entry.toChild (f.right.map Entry.toChild) := by
  obtain ⟨rfl, rfl, rfl, hfits, -⟩ := hpath
  refine ⟨?_, fun y hy => h.right y (by simp at hy ⊢; exact Or.inr hy)⟩
  rcases hleft : f.left with - | ⟨e, left⟩
  · exact Or.inl rfl
  · have hene := hfits.ne_nil e (by simp [Focus.level, hleft])
    have hmem : firstOf f.child ∈ items f.entry.children := by
      simp [Focus.entry, firstOf_mem (hne f.child (by simp [Focus.entry]))]
    exact Or.inr ((firstOf_le hs hne hmem).trans (h.left.resolve_left (by simp [hleft, hene])))

/-! ### There and back -/

/-- The item `x` is inserted into a tree over `xs` along `f :: fs`, and erased again along `g :: gs`, which leaves the
levels `tops`. -/
structure Round (cfg : Config) (x : Item) (xs : List Item) (f : Focus Item) (fs : List (Focus Item)) (g : Focus Item)
    (gs : List (Focus Item)) (tops : List (List (Entry Item))) : Prop where
  fits : ∀ a ∈ f :: fs, Fits cfg.MIN_ITEMS cfg.MAX_ITEMS a.level
  base : children f.level = xs.map Child.leaf
  sorted : xs.Pairwise (· < ·)
  absent : x ∉ xs
  located : Located x (f.left.map Entry.toChild) f.entry.toChild (f.right.map Entry.toChild)
  grown : ∃ y ch, f.child = Child.leaf y ∧ (x < y ∧ ch = [x, y] ∨ y < x ∧ ch = [y, x]) ∧
    Grown cfg (f :: fs) f.child (ch.map Child.leaf) true ((g :: gs).map Focus.level)
  child : g.child = Child.leaf x
  back : children g.left ++ (g.before ++ g.after) ++ children g.right = xs.map Child.leaf
  base' : ∃ zs : List Item, zs.Pairwise (· < ·) ∧ children g.level = zs.map Child.leaf
  fits' : ∀ a ∈ g :: gs, Fits cfg.MIN_ITEMS cfg.MAX_ITEMS a.level
  shed : Shed cfg (g :: gs) (g.before ++ g.after) tops
  edge : (∀ z ∈ xs, z < x) → AtEdge (f :: fs) ∧ AtEdge (g :: gs)

theorem atEdge_of_path {fs : List (Focus Item)} {B : List (Child Item)} {c : Child Item} (h : TreePath cfg B c [] fs) :
    AtEdge fs := by
  induction fs generalizing B c with
  | nil => simp [AtEdge]
  | cons f fs ih =>
    obtain ⟨-, -, hright, hfits, hpath⟩ := h
    obtain ⟨hafter, hchildren⟩ := List.append_eq_nil_iff.mp hright.symm
    have hnil : f.right = [] := by
      rcases hr : f.right with - | ⟨e, right⟩
      · rfl
      · rw [hr, children_cons] at hchildren
        exact absurd (List.append_eq_nil_iff.mp hchildren).1 (hfits.ne_nil e (by simp [Focus.level, hr]))
    rw [hnil, List.map_nil] at hpath
    exact List.forall_mem_cons.mpr ⟨⟨hafter, hnil⟩, ih hpath⟩

theorem fits_of_path {fs : List (Focus Item)} {B C : List (Child Item)} {c : Child Item} (h : TreePath cfg B c C fs) :
    ∀ f ∈ fs, Fits cfg.MIN_ITEMS cfg.MAX_ITEMS f.level := by
  induction fs generalizing B c C with
  | nil => simp
  | cons f fs ih => exact List.forall_mem_cons.mpr ⟨h.2.2.2.1, ih h.2.2.2.2⟩

section
variable {τ : Type} [NodeStore τ] [LawfulNodeStore cfg τ] {t : τ} {levels : List (List (Entry Item))}

/-- Both calls, and what they do to the levels. -/
theorem Represents.round (h : Represents cfg t levels xs) (habsent : x ∉ xs) (hxs : xs ≠ []) :
    ∃ t1 xs1 t2 f fs g gs tops, insertItem cfg t x = .ok (true, t1) ∧ Represents cfg t1 ((g :: gs).map Focus.level).reverse xs1 ∧
      eraseItem cfg t1 x = .ok (true, t2) ∧ Represents cfg t2 tops.reverse xs ∧ (f :: fs).map Focus.level = levels.reverse ∧
      Round cfg x xs f fs g gs tops := by
  obtain ⟨t1, pre, y, post, f, fs, ch, mid, rfl, hinsert, hlevels, hpath, hloc, hcases, hmem, h1, hgrown⟩ :=
    h.insertItem_absent (h.root_ne_zero hxs) habsent
  obtain ⟨t2, levels2, pre', post', g, gs, hxs1, herase, hmid, hpath', hmem', h2, hshed⟩ :=
    h1.eraseItem_present ((hmem x).mpr (Or.inl rfl))
  rw [List.reverse_reverse] at hmid
  subst hmid
  have hsame : pre' ++ post' = pre ++ y :: post := by
    refine h2.sorted.sortedLT.eq_of_mem_iff h.sorted.sortedLT fun z => ?_
    rw [hmem' z, hmem z]
    exact ⟨fun hz => hz.1.resolve_left hz.2, fun hz => ⟨Or.inr hz, fun heq => habsent (heq ▸ hz)⟩⟩
  obtain ⟨hchild, hB, hC, -⟩ := id hpath
  obtain ⟨hchild', hB', hC', -⟩ := id hpath'
  have hbase : children f.level = (pre ++ y :: post).map Child.leaf := by
    simp [Focus.level, Focus.entry, hB, hC, hchild]
  have hbase' : children g.level = (pre' ++ x :: post').map Child.leaf := by
    simp [Focus.level, Focus.entry, hB', hC', hchild']
  have hs := h1.sorted
  rw [hxs1] at hs
  obtain ⟨hse, hne⟩ := sorted_of_base hbase h.sorted
  refine ⟨t1, _, t2, f, fs, g, gs, levels2.reverse, hinsert, h1, herase, by rw [List.reverse_reverse, ← hsame]; exact h2, hlevels,
    fits_of_path hpath, hbase, h.sorted, habsent, hloc.entry hpath hse hne, ⟨y, ch, hchild, hcases, hchild.symm ▸ hgrown⟩, hchild', ?_,
    ⟨_, hs, hbase'⟩, fits_of_path hpath', hshed (by simp [hsame]), fun hgreatest => ⟨?_, ?_⟩⟩
  · rw [← hsame, List.map_append, hB', hC']
    simp
  · obtain rfl : post = [] := List.eq_nil_iff_forall_not_mem.mpr fun z hz =>
      lt_asymm (hloc.right z (by simpa using hz)) (hgreatest z (by simp [hz]))
    exact atEdge_of_path hpath
  · have hlt := (List.pairwise_cons.mp (List.pairwise_append.mp hs).2.1).1
    obtain rfl : post' = [] := List.eq_nil_iff_forall_not_mem.mpr fun z hz =>
      lt_asymm (hlt z hz) (hgreatest z (by rw [← hsame]; simp [hz]))
    exact atEdge_of_path hpath'

end

/-! What a round does, by the node that the item is put into. -/

section
variable {f g : Focus Item} {fs gs : List (Focus Item)} {tops : List (List (Entry Item))}

/-- The erase comes to the node that has the item. -/
theorem Round.here (h : Round cfg x xs f fs g gs tops) {A B : List (Entry Item)} {e : Entry Item} (hlevel : g.level = A ++ e :: B)
    (hx : x ∈ items e.children) : g.left = A ∧ g.entry = e ∧ g.right = B := by
  obtain ⟨zs, hzs, hbase⟩ := h.base'
  have hg : x ∈ items g.entry.children := by simp [Focus.entry, h.child]
  refine Located.unique (located_of_mem hbase hzs hg) ?_ hlevel (items_ne_nil_of_base hbase (h.fits' g (by simp)))
  rw [hlevel] at hbase
  exact located_of_mem hbase hzs hx

/-- The erase gives the old children back. -/
theorem Round.between (h : Round cfg x xs f fs g gs tops) {A B : List (Child Item)}
    (hleft : children g.left = children f.left ++ A) (hright : children g.right = B ++ children f.right) :
    A ++ (g.before ++ g.after) ++ B = f.entry.children := by
  have hback := h.back.trans h.base.symm
  simp only [hleft, hright, Focus.level, children_append, children_cons, ← List.append_assoc, List.append_cancel_right_eq] at hback
  simpa only [List.append_assoc, List.append_cancel_left_eq] using hback

/-- The same nodes hold the same, but for `x`. -/
def AlikeBut (x : Item) (Ls Ms : List (List (Entry Item))) : Prop :=
  Ls.map (List.map fun e => (e.id, (contents e).2.filter (· ≠ .inl x))) =
    Ms.map (List.map fun e => (e.id, (contents e).2.filter (· ≠ .inl x)))

theorem Alike.but {Ls Ms : List (List (Entry Item))} (h : Alike Ls Ms) : AlikeBut x Ls Ms := by
  have hmap : (fun e : Entry Item => (e.id, (contents e).2.filter (· ≠ .inl x))) =
      (fun p : ℕ × List (Item ⊕ ℕ) => (p.1, p.2.filter (· ≠ .inl x))) ∘ contents := rfl
  rw [AlikeBut, hmap]
  simp only [← List.map_map, ← List.map_comp_map]
  exact congrArg _ h

/-- A node with room takes the item in. The erase gives back the old levels, or lighter ones. -/
theorem Round.roomy (h : Round cfg x xs f fs g gs tops) (htops : tops ≠ []) (hroom : f.entry.children.length < cfg.MAX_ITEMS) :
    AlikeBut x ((f :: fs).map Focus.level) ((g :: gs).map Focus.level) ∧ (∃ L ∈ tops.head?, Roomy cfg x L) ∧
      weights cfg tops ≤ weights cfg ((f :: fs).map Focus.level) ∧
      (Alike tops ((f :: fs).map Focus.level) ∨ weights cfg tops < weights cfg ((f :: fs).map Focus.level)) := by
  obtain ⟨y, ch, hchild, hcases, hgrown⟩ := h.grown
  obtain ⟨needsMerge', es, mid, hmid, h0, hplaced, hgrown⟩ := hgrown.cons
  obtain ⟨hlevel, rfl⟩ := List.cons_eq_cons.mp hmid
  have hx : x ∈ ch := by rcases hcases with ⟨-, rfl⟩ | ⟨-, rfl⟩ <;> simp
  cases hplaced with
  | split hfull _ => omega
  | grown _ =>
    have hlevel' : g.level = f.left ++ ⟨f.id, f.before ++ ch.map Child.leaf ++ f.after⟩ :: f.right := by simpa using hlevel
    obtain ⟨hleft, hentry, hright⟩ := h.here hlevel' (by simp [hx])
    have hid : g.id = f.id := congrArg Entry.id hentry
    have hback : g.before ++ g.after = f.entry.children := by
      simpa using @Round.between _ _ _ _ _ _ _ _ h [] [] (by simp [hleft]) (by simp [hright])
    have hold : g.left ++ ⟨g.id, g.before ++ g.after⟩ :: g.right = f.level := by
      rw [hleft, hright, hid, hback]
      rfl
    have hlocated := h.located
    have hfits := h.fits f (by simp)
    have hbase := h.base
    rw [← hold] at hfits hbase
    have halike : Alike (gs.map Focus.level) (fs.map Focus.level) :=
      hgrown.alike (congrArg (fun v => [v]) (contentOf_toChild (d := f.entry) rfl h0))
    have hweights := @Alike.weights_eq cfg _ _ halike
    refine ⟨?_, ?_, ?_⟩
    · refine congrArg₂ List.cons ?_ (Alike.but (x := x) halike).symm
      rw [hlevel', Focus.level, List.map_append, List.map_append, List.map_cons, List.map_cons]
      congr 2
      rcases hcases with ⟨hlt, rfl⟩ | ⟨hlt, rfl⟩ <;>
        simp [contents, Focus.entry, hchild, contentOf, Key.content, List.filter_cons]
    · refine h.shed.roomy htops hfits hbase h.sorted ?_ (by rwa [hback])
      rw [hleft, hright, hid, hback]
      exact hlocated
    · obtain ⟨hle, hcases⟩ := @Shed.weights_le cfg gs g _ (g.before ++ g.after) tops 0 h.shed hfits
        (fun a ha => h.fits' a (by simp [ha])) rfl (Nat.zero_le _) fun _ => rfl
      rw [hold, weights_cons, hweights, ← weights_cons] at hle hcases
      exact ⟨hle, (hcases rfl).imp_left fun halike' => halike'.trans (congrArg (List.cons _) halike)⟩

/-- A full node is parted, and both parts have room after the erase. -/
theorem Round.parted (h : Round cfg x xs f fs g gs tops) (hfull : f.entry.children.length = cfg.MAX_ITEMS)
    (hgreater : ∃ z ∈ xs, x < z) : ∃ L ∈ tops.head?, Roomy cfg x L := by
  have hmax := cfg.min_lt_half_max
  have htwo := cfg.two_le_min
  obtain ⟨y, ch, hchild, hcases, hgrown⟩ := h.grown
  obtain ⟨needsMerge', es, mid, hmid, h0, hplaced, hgrown⟩ := hgrown.cons
  obtain ⟨hlevel, rfl⟩ := List.cons_eq_cons.mp hmid
  have hx : x ∈ ch := by rcases hcases with ⟨-, rfl⟩ | ⟨-, rfl⟩ <;> simp
  have hlen : ch.length = 2 := by rcases hcases with ⟨-, rfl⟩ | ⟨-, rfl⟩ <;> rfl
  cases hplaced with
  | grown hroom => exact absurd (hroom rfl) (by omega)
  | @split l id _ hl =>
    generalize hD : f.before ++ ch.map Child.leaf ++ f.after = D at hlevel
    have hlenD : D.length = cfg.MAX_ITEMS + 1 := by
      simp [Focus.entry] at hfull
      simp [← hD, hlen]
      omega
    have hxD : x ∈ items (D.take l) ∨ x ∈ items (D.drop l) := by
      rw [← List.mem_append, ← items_append, List.take_append_drop, ← hD]
      simp [hx]
    have hcount : ∀ {n : ℕ} {e : Entry Item}, g.entry = e → e.children.length = n → (g.before ++ g.after).length + 1 = n := by
      rintro n _ rfl rfl
      simp [Focus.entry]
      omega
    rcases hxD with hxD | hxD
    · have hlevel' : g.level = f.left ++ ⟨f.id, D.take l⟩ :: (⟨id, D.drop l⟩ :: f.right) := by simpa using hlevel
      obtain ⟨hleft, hentry, hright⟩ := h.here hlevel' hxD
      have hcs := hcount hentry (List.length_take_of_le (by split_ifs at hl <;> omega))
      have hparts := h.between (A := []) (B := D.drop l) (by simp [hleft]) (by simp [hright])
      obtain ⟨hmin, hroom⟩ : cfg.MIN_ITEMS ≤ (g.before ++ g.after).length ∧ (g.before ++ g.after).length < cfg.MAX_ITEMS := by
        split_ifs at hl <;> omega
      refine ⟨_, h.shed.kept hmin, ?_⟩
      rw [hleft, hright]
      refine roomy_parted h.base h.sorted h.located (by simpa using hparts)
        (List.ne_nil_of_length_pos (Nat.two_pos.trans_le (htwo.trans hmin))) hroom ?_
      rw [List.length_drop]
      split_ifs at hl <;> omega
    · have hlevel' : g.level = (f.left ++ [⟨f.id, D.take l⟩]) ++ ⟨id, D.drop l⟩ :: f.right := by simpa using hlevel
      obtain ⟨hleft, hentry, hright⟩ := h.here hlevel' hxD
      have hcs := hcount hentry (List.length_drop ..)
      have hparts := h.between (A := D.take l) (B := []) (by simp [hleft]) (by simp [hright])
      have hne : f.right ≠ [] := by
        -- else the other part is `x` alone, and `x` is the last item
        intro hnil
        rw [if_pos hnil] at hl
        obtain ⟨z, hz, hxz⟩ := hgreater
        obtain ⟨zs, hzs, hbase⟩ := h.base'
        have hempty : g.before ++ g.after = [] := List.eq_nil_of_length_eq_zero (by omega)
        have hback := h.back
        rw [hempty, hright, hnil, children_nil, List.append_nil, List.append_nil] at hback
        rw [← items_leaf zs, ← hbase, Focus.level, children_append, children_cons, items_append, items_append, hback,
          items_leaf] at hzs
        exact lt_asymm hxz ((List.pairwise_append.mp hzs).2.2 z hz x (by simp [Focus.entry, h.child]))
      rw [if_neg hne] at hl
      have hroom : (g.before ++ g.after).length < cfg.MAX_ITEMS := by omega
      refine ⟨_, h.shed.kept (by omega), ?_⟩
      rw [hleft, hright, List.append_assoc]
      refine roomy_parted h.base h.sorted h.located (by simpa using hparts) (List.ne_nil_of_length_pos ?_) ?_ hroom
      all_goals
        rw [List.length_take]
        omega

/-- At the right edge an insert that parts nodes leaves fewer full ones. -/
theorem Round.spine_lt (h : Round cfg x xs f fs g gs tops) (hfull : f.entry.children.length = cfg.MAX_ITEMS)
    (hgreatest : ∀ z ∈ xs, z < x) : spine cfg tops < spine cfg ((f :: fs).map Focus.level) := by
  obtain ⟨y, ch, hchild, hcases, hgrown⟩ := h.grown
  obtain ⟨needsMerge', es, mid, hmid, h0, hplaced, hgrown⟩ := hgrown.cons
  obtain ⟨hlevel, rfl⟩ := List.cons_eq_cons.mp hmid
  obtain ⟨hedge, hedge'⟩ := h.edge hgreatest
  obtain ⟨hafter, hright⟩ := hedge f (by simp)
  have hyx : y < x := by
    refine hgreatest y ?_
    rw [← items_leaf xs, ← h.base]
    simp [Focus.level, Focus.entry, hchild]
  obtain ⟨-, rfl⟩ := hcases.resolve_left fun hlt => lt_asymm hyx hlt.1
  rw [List.map_cons, List.map_singleton, ← hchild] at hplaced
  cases needsMerge' with
  | false =>
    cases hplaced with
    | grown hroom => exact absurd (hroom rfl) (by omega)
  | true =>
    obtain ⟨-, id, rfl⟩ := hplaced.bud hafter hright
    have hlevel' : g.level = (f.left ++ [f.entry]) ++ [⟨id, [Child.leaf x]⟩] := by simp [hlevel, hright]
    obtain ⟨hleft, hentry⟩ := level_edge (hedge' g (by simp)).2 hlevel'
    have hempty : g.before ++ g.after = [] := by
      have hcount := congrArg (fun e => e.children.length) hentry
      simp [Focus.entry] at hcount
      exact List.append_eq_nil_iff.mpr ⟨List.eq_nil_of_length_eq_zero (by omega), List.eq_nil_of_length_eq_zero (by omega)⟩
    have hshed := h.shed
    rw [hempty] at hshed
    have hlt := hshed.spine_lt hedge' hleft hfull (hgrown.budded fun a ha => hedge a (by simp [ha]))
    rwa [List.map_cons, Focus.level, hright]

end

/-! ### What a round lowers -/

open Classical in
/-- Zero once there is room for `x`; before that, the full nodes at the right edge count. -/
noncomputable def unrest (cfg : Config) (x : Item) (Ls : List (List (Entry Item))) : ℕ :=
  if ∃ L ∈ Ls.head?, Roomy cfg x L then 0 else spine cfg Ls + 1

/-- The two together; the first counts for more. -/
noncomputable def gauge (cfg : Config) (x : Item) (Ls : List (List (Entry Item))) : ℕ ×ₗ ℕ :=
  toLex (unrest cfg x Ls, weights cfg Ls)

theorem unrest_le (Ls : List (List (Entry Item))) : unrest cfg x Ls ≤ spine cfg Ls + 1 := by
  rw [unrest]
  split_ifs <;> omega

/-- A round brings back the old levels, or the gauge falls. -/
theorem Round.settles {f g : Focus Item} {fs gs : List (Focus Item)} {tops : List (List (Entry Item))}
    (h : Round cfg x xs f fs g gs tops) (htops : tops ≠ []) :
    AlikeBut x ((f :: fs).map Focus.level) ((g :: gs).map Focus.level) ∧ AlikeBut x ((g :: gs).map Focus.level) tops ∧
        gauge cfg x tops ≤ gauge cfg x ((f :: fs).map Focus.level) ∨
      gauge cfg x tops < gauge cfg x ((f :: fs).map Focus.level) := by
  rcases (h.fits f (by simp)).le f.entry (by simp [Focus.level]) |>.lt_or_eq with hroom | hfull
  · obtain ⟨halike, hroomy, hle, hcases⟩ := h.roomy htops hroom
    have hold : unrest cfg x ((f :: fs).map Focus.level) = 0 := if_pos ⟨f.level, rfl, _, _, _, rfl, h.located, hroom⟩
    have hnew : unrest cfg x tops = 0 := if_pos hroomy
    simp only [gauge, hold, hnew, Prod.Lex.toLex_le_toLex, Prod.Lex.toLex_lt_toLex, lt_irrefl, true_and, false_or]
    exact hcases.imp_left fun hsame => ⟨halike, halike.symm.trans (Alike.but (x := x) hsame).symm, hle⟩
  · have hold : unrest cfg x ((f :: fs).map Focus.level) = spine cfg ((f :: fs).map Focus.level) + 1 := by
      refine if_neg ?_
      rintro ⟨L, hL, A, e, B, rfl, hloc, hroom⟩
      obtain ⟨-, rfl, -⟩ := h.located.unique hloc (Option.some_injective _ hL) (items_ne_nil_of_base h.base (h.fits f (by simp)))
      omega
    refine Or.inr (Prod.Lex.toLex_lt_toLex.mpr (Or.inl ?_))
    rw [hold]
    by_cases hgreater : ∃ z ∈ xs, x < z
    · have hnew : unrest cfg x tops = 0 := if_pos (h.parted hfull hgreater)
      simp only [hnew]
      omega
    · have hlt := h.spine_lt hfull fun z hz => lt_of_le_of_ne (not_lt.mp fun hxz => hgreater ⟨z, hz, hxz⟩) fun heq => h.absent (heq ▸ hz)
      exact (unrest_le tops).trans_lt (Nat.succ_lt_succ hlt)

end NE.BTree
