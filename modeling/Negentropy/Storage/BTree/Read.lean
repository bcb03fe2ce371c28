import Negentropy.Storage.BTree.Erase

/-! Positional reads of a tree: the descent by cached counts, the walk along the siblings, and the
search for a bound. -/

namespace NE.BTree

open Heap Levels NodeStore LawfulNodeStore Sorted

section
variable {τ : Type} [NodeStore τ] {cfg : Config} [LawfulNodeStore cfg τ] {t : τ} {root : ℕ} {F : Multiset (ℕ × Node)}
  {xs : List Item}

/-! ### Nodes taken for leaves -/

/-- Each child is one item. -/
def Flat (cs : List (Child Item)) : Prop := ∀ c ∈ cs, ∃ x, c.below = [x]

theorem Flat.items_eq {cs : List (Child Item)} (h : Flat cs) : items cs = cs.map firstOf := by
  induction cs with
  | nil => rfl
  | cons c cs ih =>
    obtain ⟨x, hx⟩ := h c List.mem_cons_self
    rw [items_cons, hx, ih fun d hd => h d (List.mem_cons_of_mem _ hd)]
    simp [firstOf, hx]

theorem length_le_items {cs : List (Child Item)} (hne : ∀ c ∈ cs, c.below ≠ []) : cs.length ≤ (items cs).length := by
  induction cs with
  | nil => simp
  | cons c cs ih =>
    have hc := List.length_pos_iff.mpr (hne c List.mem_cons_self)
    have hrec := ih fun d hd => hne d (List.mem_cons_of_mem _ hd)
    simp only [items_cons, List.length_append, List.length_cons]
    omega

/-- The counts of a node agree just when each child is one item. -/
theorem flat_iff {cs : List (Child Item)} (hne : ∀ c ∈ cs, c.below ≠ []) : cs.length = (items cs).length ↔ Flat cs := by
  constructor
  · induction cs with
    | nil => simp [Flat]
    | cons c cs ih =>
      intro hlen
      have hc := List.length_pos_iff.mpr (hne c List.mem_cons_self)
      have hne' : ∀ d ∈ cs, d.below ≠ [] := fun d hd => hne d (List.mem_cons_of_mem _ hd)
      have hle := length_le_items hne'
      simp only [items_cons, List.length_append, List.length_cons] at hlen
      intro d hd
      rcases List.mem_cons.mp hd with rfl | hd
      · exact List.length_eq_one_iff.mp (by omega)
      · exact ih hne' (by omega) d hd
  · intro h
    rw [h.items_eq, List.length_map]

/-- To the right of a flat node there is nothing that is not flat. -/
theorem Flat.right {L R : List (Entry Item)} {e : Entry Item} {Ls : List (List (Entry Item))} {top : List (Child Item)}
    (hstack : TreeStack cfg top ((L ++ e :: R) :: Ls) xs) (h : Flat e.children) : ∀ d ∈ R, Flat d.children := by
  obtain ⟨-, hfits, hstack⟩ := hstack
  rcases Ls with - | ⟨M, Ls⟩
  · intro d hd c hc
    have hleaf : children (L ++ e :: R) = xs.map Child.leaf := hstack
    obtain ⟨x, -, rfl⟩ := List.mem_map.mp (show c ∈ xs.map Child.leaf by
      rw [← hleaf]
      simp only [children_append, children_cons, List.mem_append]
      exact Or.inr (Or.inr (List.mem_flatMap.mpr ⟨d, hd, hc⟩)))
    exact ⟨x, rfl⟩
  · -- an entry with one item below is the last of its level
    rcases R with - | ⟨d, R⟩
    · simp
    exfalso
    obtain ⟨hM, hfitsM, hstack⟩ := hstack
    obtain ⟨c, cs, hc⟩ := List.exists_cons_of_ne_nil (hfits.ne_nil e (by simp))
    obtain ⟨c', cs', hc'⟩ := List.exists_cons_of_ne_nil (hfits.ne_nil d (by simp))
    have hne := hstack.below_ne_nil (leaf_below_ne_nil xs)
    simp only [children_append, children_cons, hc, hc', List.cons_append] at hM
    obtain ⟨A, M, rfl, -, hM⟩ := List.map_eq_append_iff.mp hM
    obtain ⟨b, M, rfl, rfl, hM⟩ := List.map_eq_cons_iff.mp hM
    obtain ⟨x, hx⟩ := h b.toChild (by simp [hc])
    have hMne : M ≠ [] := by
      rintro rfl
      simp at hM
    have hmin := hfitsM.mid.2.2 hMne
    have hle := length_le_items (fun c hc => hne c (by simp [hc]) : ∀ c ∈ b.children, c.below ≠ [])
    rw [show items b.children = [x] from hx] at hle
    have htwo := cfg.two_le_min
    simp at hle
    omega

/-! ### The walk along the siblings -/

/-- From position `j` of a flat node, the loop of `iterate` sees the items in order. -/
theorem iterateFrom_ok {α : Type} (h : Stores cfg t root F) (cb : α → Item → ℕ → α × Bool) :
    ∀ {num : ℕ} {A : List (Entry Item)} {e : Entry Item} {B : List (Entry Item)} {p j i : ℕ} {st : α},
      segment (nodeOf cfg) 0 (A ++ e :: B) 0 ≤ F → (∀ d ∈ e :: B, Flat d.children ∧ d.children ≠ []) →
      num ≤ ((items (children (e :: B))).drop j).length → j < e.children.length ∨ num = 0 →
      iterateFrom t cb num (some (nodeOf cfg e p (headId B 0))) j i st =
        .ok (iterateItems cb (((items (children (e :: B))).drop j).take num) i st) := by
  intro num
  induction num with
  | zero =>
    intro A e B p j i st _ _ _ _
    rfl
  | succ num ih =>
    intro A e B p j i st hF hflat hnum hj
    have hj : j < e.children.length := hj.resolve_right (by simp)
    have hitems := (hflat e (by simp)).1.items_eq
    have hlen : (items e.children).length = e.children.length := by rw [hitems, List.length_map]
    have hdrop : (items (children (e :: B))).drop j = firstOf e.children[j] :: (items (children (e :: B))).drop (j + 1) := by
      rw [List.drop_eq_getElem_cons (by simp; omega)]
      congr 1
      simp only [children_cons, items_append]
      rw [List.getElem_append_left (by omega)]
      simp [hitems]
    rw [hdrop, List.take_succ_cons, iterateFrom, iterateItems, deref]
    rw [hdrop] at hnum
    simp only [bind, Except.bind, nodeOf_key_item hj, nodeOf_numItems, nodeOf_nextSibling]
    rcases cb st (firstOf e.children[j]) i with ⟨st', stop | go⟩
    · rfl
    · simp only
      by_cases hlast : j + 1 ≥ e.children.length
      · rw [if_pos hlast]
        have hrest : (items (children (e :: B))).drop (j + 1) = items (children B) := by
          rw [children_cons, items_append, List.drop_append, List.drop_eq_nil_of_le (by omega), List.nil_append,
            show j + 1 - (items e.children).length = 0 by omega, List.drop_zero]
        rw [hrest] at hnum ⊢
        rcases B with - | ⟨d, B⟩
        · obtain rfl : num = 0 := by simpa using hnum
          rw [headId_nil, h.getNodeRead_zero]
          rfl
        · have hcell : (d.id, nodeOf cfg d e.id (headId B 0)) ∈ F := by
            refine Multiset.mem_of_le hF ?_
            rw [segment_split, segment_cons]
            simp
          rw [headId_cons, h.getNodeRead_eq hcell]
          have hrec := @ih (A ++ [e]) d B e.id 0 (i + 1) st' (by simpa using hF) (fun f hf => hflat f (by simp [hf]))
            (by simpa using hnum) (Or.inl (List.length_pos_iff.mpr (hflat d (by simp)).2))
          simpa using hrec
      · rw [if_neg hlast]
        exact ih hF hflat (by simpa using hnum) (Or.inl (by omega))

/-! ### The descent to an offset -/

/-- What a callback on the children passed by adds up. -/
structure Sums {α : Type} (customAccum : α → Node → α) (g : α → List Item → α) : Prop where
  node : ∀ st node ys, node.accum = Accumulator.sum ys → customAccum st node = g st ys
  nil : ∀ st, g st [] = st
  append : ∀ st ys zs, g (g st ys) zs = g st (ys ++ zs)

section
variable {α : Type} {cb : α → Node → ℕ → Except Err α} {customAccum : α → Node → α} {g : α → List Item → α}

variable (cb) in
/-- The loop over the children finds the one that the offset falls into. -/
theorem Stores.children_ok (h : Stores cfg t root F) (hg : Sums customAccum g) (depth : ℕ) :
    ∀ {cs : List (Child Item)} {index : ℕ} (st : α), (∀ c ∈ cs, Backed F c ∧ c.id ≠ 0) → index < (items cs).length →
      ∃ ca c cz k, cs = ca ++ c :: cz ∧ index = (items ca).length + k ∧ k < c.below.length ∧
        traverseToOffsetAux.children t cb customAccum depth (cs.map keyOf) index st =
          (readNode t c.id >>= fun child => traverseToOffsetAux t cb customAccum depth k child (g st (items ca))) := by
  intro cs
  induction cs with
  | nil =>
    intro index st _ hindex
    simp at hindex
  | cons c cs ih =>
    intro index st hcs hindex
    obtain ⟨node, hread, haccum, hcount, -⟩ := h.read_child (hcs c (by simp)).1 (hcs c (by simp)).2
    rw [List.map_cons, traverseToOffsetAux.children, keyOf_nodeId, hread]
    by_cases hlt : index < c.below.length
    · refine ⟨[], c, cs, index, rfl, by simp, hlt, ?_⟩
      simp only [bind, Except.bind, hcount, hlt, if_true, items_nil, hg.nil, hread]
    · simp only [items_cons, List.length_append] at hindex
      obtain ⟨ca, d, cz, k, rfl, hk, hkd, heq⟩ := @ih (index - c.below.length) (g st c.below)
        (fun d hd => hcs d (by simp [hd])) (by omega)
      refine ⟨c :: ca, d, cz, k, rfl, by simp; omega, hkd, ?_⟩
      simp only [bind, Except.bind, hcount, hlt, if_false, hg.node st node c.below haccum] at heq ⊢
      rw [heq, hg.append, items_cons]

/-- An offset behind all children leaves with what they add up to. -/
theorem Stores.children_end (h : Stores cfg t root F) (hg : Sums customAccum g) (depth : ℕ) :
    ∀ {cs : List (Child Item)} {st : α}, (∀ c ∈ cs, Backed F c ∧ c.id ≠ 0) →
      traverseToOffsetAux.children t cb customAccum depth (cs.map keyOf) (items cs).length st = .ok (g st (items cs)) := by
  intro cs
  induction cs with
  | nil =>
    intro st _
    rw [List.map_nil, traverseToOffsetAux.children, items_nil, hg.nil]
    rfl
  | cons c cs ih =>
    intro st hcs
    obtain ⟨node, hread, haccum, hcount, -⟩ := h.read_child (hcs c (by simp)).1 (hcs c (by simp)).2
    have hlt : ¬ (items (c :: cs)).length < c.below.length := by simp
    have hsub : (items (c :: cs)).length - c.below.length = (items cs).length := by simp
    rw [List.map_cons, traverseToOffsetAux.children, keyOf_nodeId, hread]
    simp only [bind, Except.bind, hcount, hlt, if_false, hsub, hg.node st node c.below haccum]
    rw [ih fun d hd => hcs d (by simp [hd]), hg.append, items_cons]

/-- The entry `d` of a level `A ++ d :: B` over all items, in which each child from there on is one item. -/
structure Landed (cfg : Config) (F : Multiset (ℕ × Node)) (xs : List Item) (A : List (Entry Item)) (d : Entry Item)
    (B : List (Entry Item)) : Prop where
  cells : segment (nodeOf cfg) 0 (A ++ d :: B) 0 ≤ F
  flat : ∀ f ∈ d :: B, Flat f.children ∧ f.children ≠ []
  items_eq : items (children (A ++ d :: B)) = xs

theorem landed_of_flat {Ls : List (List (Entry Item))} {left : List (Entry Item)} {e : Entry Item} {right : List (Entry Item)}
    {top : List (Child Item)} (hstack : TreeStack cfg top ((left ++ e :: right) :: Ls) xs)
    (hF : cellsOf cfg ((left ++ e :: right) :: Ls) ≤ F) (hflat : Flat e.children) : Landed cfg F xs left e right where
  cells := (Multiset.le_add_right _ _).trans (by simpa using hF)
  flat := by
    intro f hf
    refine ⟨?_, hstack.2.1.ne_nil f (List.mem_append_right _ hf)⟩
    rcases List.mem_cons.mp hf with rfl | hf
    · exact hflat
    · exact hflat.right hstack f hf
  items_eq := by rw [hstack.2.2.items_eq, items_leaf]

/-- Above the lowest level every child is a node. -/
theorem Stores.backed_interior (h : Stores cfg t root F) {top : List (Child Item)} {M : List (Entry Item)}
    {Ls : List (List (Entry Item))} (hstack : TreeStack cfg top (M :: Ls) xs) (hF : cellsOf cfg (M :: Ls) ≤ F) :
    ∀ c ∈ top, Backed F c ∧ c.id ≠ 0 := by
  intro c hc
  refine ⟨(backed_of_stack hstack c hc).mono (Multiset.subset_of_le hF), ?_⟩
  rw [← hstack.1] at hc
  obtain ⟨m, hm, rfl⟩ := List.mem_map.mp hc
  obtain ⟨p, n, hcell⟩ := mem_segment (nodeOf cfg) 0 0 hm
  exact h.id_ne_zero (Multiset.mem_of_le hF (by simpa using Or.inl hcell))

/-- The descent stops at the place of the offset, with what is left of it added up. -/
theorem Stores.traverse_ok (h : Stores cfg t root F) (hg : Sums customAccum g) :
    ∀ {Ls : List (List (Entry Item))} {fuel : ℕ} {left : List (Entry Item)} {e : Entry Item} {right : List (Entry Item)}
      {top : List (Child Item)} {index : ℕ} {st : α}, Ls.length < fuel → TreeStack cfg top ((left ++ e :: right) :: Ls) xs →
      cellsOf cfg ((left ++ e :: right) :: Ls) ≤ F → index < (items e.children).length →
      ∃ A d B ys k, Landed cfg F xs A d B ∧
        traverseToOffsetAux t cb customAccum fuel index (nodeOf cfg e (lastId 0 left) (headId right 0)) st =
          cb (g st ys) (nodeOf cfg d (lastId 0 A) (headId B 0)) k ∧
        k < d.children.length ∧ items (children A) = items (children left) ++ ys ∧ index = ys.length + k := by
  intro Ls
  induction Ls with
  | nil =>
    intro fuel left e right top index st hfuel hstack hF hindex
    obtain ⟨fuel, rfl⟩ : ∃ n, fuel = n + 1 := ⟨fuel - 1, by simp at hfuel; omega⟩
    have hflat : Flat e.children := by
      intro c hc
      have hleaf : children (left ++ e :: right) = xs.map Child.leaf := hstack.2.2
      obtain ⟨x, -, rfl⟩ := List.mem_map.mp (show c ∈ xs.map Child.leaf by rw [← hleaf]; simp [hc])
      exact ⟨x, rfl⟩
    have hcount : e.children.length = (items e.children).length := by rw [hflat.items_eq, List.length_map]
    refine ⟨left, e, right, [], index, landed_of_flat hstack hF hflat, ?_, by omega, by simp, by simp⟩
    rw [traverseToOffsetAux, if_pos (by simpa using hcount), hg.nil]
  | cons M Ls ih =>
    intro fuel left e right top index st hfuel hstack hF hindex
    obtain ⟨fuel, rfl⟩ : ∃ n, fuel = n + 1 := ⟨fuel - 1, by omega⟩
    have hne : ∀ c ∈ e.children, c.below ≠ [] := fun c hc =>
      hstack.2.2.below_ne_nil (leaf_below_ne_nil xs) c (by simp [hc])
    by_cases hcount : e.children.length = (items e.children).length
    · refine ⟨left, e, right, [], index, landed_of_flat hstack hF ((flat_iff hne).mp hcount), ?_, by omega, by simp, by simp⟩
      rw [traverseToOffsetAux, if_pos (by simpa using hcount), hg.nil]
    · have hbase := hstack.2.2
      have hM : M.map Entry.toChild = children left ++ e.children ++ children right := by
        rw [hbase.1]
        simp
      have hLs : cellsOf cfg (M :: Ls) ≤ F := (Multiset.le_add_left _ _).trans (by simpa using hF)
      have hbacked : ∀ c ∈ e.children, Backed F c ∧ c.id ≠ 0 := fun c hc => h.backed_interior hbase hLs c (by simp [hc])
      obtain ⟨ca, c, cz, k, hcs, hk, hkc, heq⟩ := h.children_ok cb hg fuel st hbacked hindex
      obtain ⟨M1, m, M2, rfl, hM1, rfl, hM2⟩ : ∃ M1 m M2, M = M1 ++ m :: M2 ∧ M1.map Entry.toChild = children left ++ ca ∧
          m.toChild = c ∧ M2.map Entry.toChild = cz ++ children right := by
        have hsplit : M.map Entry.toChild = (children left ++ ca) ++ c :: (cz ++ children right) := by
          rw [hM, hcs]
          simp
        obtain ⟨M1, rest, rfl, hM1, hrest⟩ := List.map_eq_append_iff.mp hsplit
        obtain ⟨m, M2, rfl, hm, hM2⟩ := List.map_eq_cons_iff.mp hrest
        exact ⟨M1, m, M2, rfl, hM1, hm, hM2⟩
      have hcell : (m.id, nodeOf cfg m (lastId 0 M1) (headId M2 0)) ∈ F := by
        refine Multiset.mem_of_le hLs ?_
        rw [cellsOf_cons, segment_split]
        simp
      obtain ⟨A, d, B, ys, k', hlanded, heq', hk', hys, hindex'⟩ := @ih fuel M1 m M2 _ k (g st (items ca))
        (by simpa using hfuel) hbase hLs hkc
      refine ⟨A, d, B, items ca ++ ys, k', hlanded, ?_, hk', ?_, by simp; omega⟩
      · rw [traverseToOffsetAux, if_neg (by simpa using hcount)]
        have hkeys : (nodeOf cfg e (lastId 0 left) (headId right 0)).items.take
            (nodeOf cfg e (lastId 0 left) (headId right 0)).numItems = e.children.map keyOf := by
          rw [nodeOf_numItems, ← List.length_map keyOf]
          exact pad_take cfg _
        rw [hkeys, heq, toChild_id, h.readNode_eq hcell]
        exact heq'.trans (by rw [hg.append])
      · have hitems : items (children M1) = items (children left) ++ items ca := by
          rw [← items_toChild, hM1, items_append]
        rw [hys, hitems, List.append_assoc]

end

section
variable {A B : List (Entry Item)} {d : Entry Item} {k : ℕ}

theorem Landed.drop_eq (h : Landed cfg F xs A d B) : xs.drop ((items (children A)).length + k) = (items (children (d :: B))).drop k := by
  rw [← h.items_eq, children_append, items_append, List.drop_append, List.drop_eq_nil_of_le (by omega), List.nil_append,
    Nat.add_sub_cancel_left]

theorem Landed.take_eq (h : Landed cfg F xs A d B) (hk : k ≤ d.children.length) :
    xs.take ((items (children A)).length + k) = items (children A) ++ (d.children.take k).map firstOf := by
  have hitems := (h.flat d (by simp)).1.items_eq
  rw [← h.items_eq, children_append, items_append, List.take_length_add_append, children_cons, items_append, hitems,
    List.take_append_of_le_length (by simpa using hk), List.map_take]

theorem Landed.getElem_eq (h : Landed cfg F xs A d B) (hk : k < d.children.length)
    (hlt : (items (children A)).length + k < xs.length) : xs[(items (children A)).length + k] = firstOf d.children[k] := by
  have hitems := (h.flat d (by simp)).1.items_eq
  have hdrop := @Landed.drop_eq _ _ _ _ _ _ k h
  have hd := List.drop_eq_getElem_cons (show k < (d.children.map firstOf).length by simpa using hk)
  rw [List.drop_eq_getElem_cons hlt, children_cons, items_append, hitems, List.drop_append_of_le_length (by simp; omega),
    hd, List.cons_append] at hdrop
  simpa using (List.cons.inj hdrop).1

end

/-! ### The search for a bound -/

section
variable {value : Bound}

/-- In a node that starts before the bound, the loop over the keys finds the child that the
bound falls into, and counts what is left of it. -/
theorem Stores.keys_ok (h : Stores cfg t root F) {depth : ℕ} :
    ∀ {cs : List (Child Item)} {c : Child Item} {num : ℕ}, (∀ d ∈ c :: cs, Backed F d ∧ d.below ≠ []) →
      (items (c :: cs)).Pairwise (· < ·) → firstOf c < value.item →
      (∀ d ∈ c :: cs, firstOf d < value.item → ∀ num, (do findLowerBoundAux t value depth (← getNodeRead t d.id) num) =
        (.ok (num + lowerBound d.below value.item) : Except Err ℕ)) →
      findLowerBoundAux.keys t value depth (keyOf c) (cs.map keyOf) num = .ok (num + lowerBound (items (c :: cs)) value.item) := by
  intro cs
  induction cs with
  | nil =>
    intro c num _ _ hlt hdown
    rw [List.map_nil, findLowerBoundAux.keys, keyOf_nodeId, hdown c (by simp) hlt]
    simp
  | cons d cs ih =>
    intro c num hcs hs hlt hdown
    obtain ⟨hc, hcne⟩ := hcs c (by simp)
    obtain ⟨-, hdne⟩ := hcs d (by simp)
    rw [items_cons] at hs
    obtain ⟨-, hrest, hcross⟩ := List.pairwise_append.mp hs
    rw [List.map_cons, findLowerBoundAux.keys, keyOf_nodeId, keyOf_item, items_cons]
    by_cases hle : value.item ≤ firstOf d
    · rw [if_pos hle, hdown c (by simp) hlt, lowerBound_append_left fun y hy => hle.trans (le_of_mem_items hrest hdne hy)]
    · have hbelow : ∀ y ∈ c.below, y < value.item := fun y hy =>
        (hcross y hy _ (by simp [firstOf_mem hdne])).trans (not_le.mp hle)
      have hrec := @ih d (num + c.below.length) (fun f hf => hcs f (by simp [hf])) hrest (not_le.mp hle)
        fun f hf => hdown f (by simp [hf])
      rw [if_neg hle, lowerBound_append_right hbelow, ← add_assoc, ← hrec]
      by_cases hid : c.id = 0
      · obtain ⟨x, hx⟩ : ∃ x, c.below = [x] := by
          rcases hc with ⟨-, hx⟩ | ⟨node, hmem, -⟩
          · exact hx
          · exact absurd hid (h.id_ne_zero hmem)
        simp only [hid, ne_eq, not_true_eq_false, if_false, hx, List.length_singleton]
      · obtain ⟨node, hread, -, hcount, -⟩ := h.read_child hc hid
        simp only [hid, ne_eq, not_false_eq_true, if_true, hread, bind, Except.bind, hcount]

/-- The descent counts the items in front of the bound. -/
theorem Stores.findLowerBoundAux_ok (h : Stores cfg t root F) (hs : xs.Pairwise (· < ·)) :
    ∀ {Ls : List (List (Entry Item))} {fuel : ℕ} {left : List (Entry Item)} {e : Entry Item} {right : List (Entry Item)}
      {top : List (Child Item)} {num : ℕ}, Ls.length < fuel → TreeStack cfg top ((left ++ e :: right) :: Ls) xs →
      cellsOf cfg ((left ++ e :: right) :: Ls) ≤ F → firstOf e.toChild < value.item →
      findLowerBoundAux t value fuel (some (nodeOf cfg e (lastId 0 left) (headId right 0))) num =
        .ok (num + lowerBound (items e.children) value.item) := by
  -- one node, given what its children do
  have hnode : ∀ {Ls : List (List (Entry Item))} {fuel : ℕ} {left : List (Entry Item)} {e : Entry Item} {right : List (Entry Item)}
      {top : List (Child Item)} {num : ℕ}, TreeStack cfg top ((left ++ e :: right) :: Ls) xs →
      cellsOf cfg ((left ++ e :: right) :: Ls) ≤ F → firstOf e.toChild < value.item →
      (∀ d ∈ e.children, firstOf d < value.item → ∀ num, (do findLowerBoundAux t value fuel (← getNodeRead t d.id) num) =
        (.ok (num + lowerBound d.below value.item) : Except Err ℕ)) →
      findLowerBoundAux t value (fuel + 1) (some (nodeOf cfg e (lastId 0 left) (headId right 0))) num =
        .ok (num + lowerBound (items e.children) value.item) := by
    intro Ls fuel left e right top num hstack hF hlt hdown
    obtain ⟨c, cs, hcs⟩ := List.exists_cons_of_ne_nil (hstack.2.1.ne_nil e (by simp))
    have hsub : ∀ d ∈ e.children, d ∈ children (left ++ e :: right) := fun d hd => by simp [hd]
    have hne := hstack.2.2.below_ne_nil (leaf_below_ne_nil xs)
    have hbacked : ∀ d ∈ e.children, Backed F d ∧ d.below ≠ [] := fun d hd =>
      ⟨(backed_of_stack hstack.2.2 d (hsub d hd)).mono
        (Multiset.subset_of_le ((Multiset.le_add_left _ _).trans (by simpa using hF))), hne d (hsub d hd)⟩
    have hse : (items e.children).Pairwise (· < ·) := by
      have hitems : items (children left) ++ items e.children ++ items (children right) = xs := by
        rw [← items_leaf xs, ← hstack.2.2.items_eq]
        simp
      rw [← hitems] at hs
      exact (List.pairwise_append.mp (List.pairwise_append.mp hs).1).2.1
    have hkeys : ((nodeOf cfg e (lastId 0 left) (headId right 0)).items.take e.children.length).drop 1 = cs.map keyOf := by
      rw [← List.length_map keyOf]
      change ((pad cfg (e.children.map keyOf)).take _).drop 1 = _
      rw [pad_take, hcs]
      rfl
    have hkey : (nodeOf cfg e (lastId 0 left) (headId right 0)).key 0 = keyOf c :=
      nodeOf_key (show e.children = [] ++ c :: cs from hcs)
    rw [findLowerBoundAux, nodeOf_numItems, hkeys, hkey]
    rw [firstOf_toChild hcs (hne c (hsub c (by simp [hcs])))] at hlt
    rw [hcs] at hbacked hse hdown ⊢
    exact h.keys_ok hbacked hse hlt hdown
  intro Ls
  induction Ls with
  | nil =>
    intro fuel left e right top num hfuel hstack hF hlt
    obtain ⟨fuel, rfl⟩ : ∃ n, fuel = n + 1 := ⟨fuel - 1, by simp at hfuel; omega⟩
    refine hnode hstack hF hlt fun d hd hdlt num => ?_
    have hleaf : children (left ++ e :: right) = xs.map Child.leaf := hstack.2.2
    obtain ⟨x, -, rfl⟩ := List.mem_map.mp (show d ∈ xs.map Child.leaf by rw [← hleaf]; simp [hd])
    rw [leaf_id, h.getNodeRead_zero]
    rw [firstOf_leaf] at hdlt
    simp [bind, Except.bind, findLowerBoundAux, lowerBound, hdlt, pure, Except.pure]
  | cons M Ls ih =>
    intro fuel left e right top num hfuel hstack hF hlt
    obtain ⟨fuel, rfl⟩ : ∃ n, fuel = n + 1 := ⟨fuel - 1, by omega⟩
    refine hnode hstack hF hlt fun d hd hdlt num => ?_
    have hbase := hstack.2.2
    have hLs : cellsOf cfg (M :: Ls) ≤ F := (Multiset.le_add_left _ _).trans (by simpa using hF)
    obtain ⟨m, hm, rfl⟩ := List.mem_map.mp (show d ∈ M.map Entry.toChild by rw [hbase.1]; simp [hd])
    obtain ⟨M1, M2, rfl⟩ := List.append_of_mem hm
    have hcell : (m.id, nodeOf cfg m (lastId 0 M1) (headId M2 0)) ∈ F := by
      refine Multiset.mem_of_le hLs ?_
      rw [cellsOf_cons, segment_split]
      simp
    rw [toChild_id, h.getNodeRead_eq hcell]
    exact ih (by simpa using hfuel) hbase hLs hdlt

end

/-! ### The interface -/

section
variable {levels : List (List (Entry Item))} (h : Represents cfg t levels xs)
include h

/-- An offset in a tree: the node it falls into. -/
theorem Represents.traverse_lt {α : Type} (cb : α → Node → ℕ → Except Err α) {customAccum : α → Node → α} {g : α → List Item → α}
    (hg : Sums customAccum g) {index : ℕ} (hindex : index < xs.length) (st : α) :
    ∃ A d B k, Landed cfg (cellsOf cfg levels) xs A d B ∧ k < d.children.length ∧ index = (items (children A)).length + k ∧
      traverseToOffset t index cb customAccum st =
        cb (g st (items (children A))) (nodeOf cfg d (lastId 0 A) (headId B 0)) k := by
  have hroot : getRootNodeId t ≠ 0 := by
    intro hroot
    simp [(h.empty hroot).2] at hindex
  obtain ⟨e, Ls, rfl, hid, -⟩ := h.top hroot
  have hitems : items e.children = xs := by simpa using h.stack.items_eq
  have hcell : (e.id, nodeOf cfg e 0 0) ∈ cellsOf cfg ([e] :: Ls) := by simp
  obtain ⟨A, d, B, ys, k, hlanded, heq, hk, hys, hindex'⟩ := @Stores.traverse_ok _ _ cfg _ t _ _ xs _ cb customAccum g h.stores hg
    Ls (maxDepth t) [] e [] _ index st (by simpa using h.depth_le) h.stack le_rfl (by rw [hitems]; exact hindex)
  simp only [children_nil, items_nil, List.nil_append] at hys
  subst hys
  refine ⟨A, d, B, k, hlanded, hk, hindex', ?_⟩
  rw [traverseToOffset, ← hid, h.stores.getNodeRead_eq hcell]
  have hle : ¬ index > (items e.children).length := by rw [hitems]; omega
  simp only [bind, Except.bind, nodeOf_accumCount, hle, if_false]
  exact heq

theorem Represents.size_ok : size t = .ok xs.length := by
  by_cases hroot : getRootNodeId t = 0
  · rw [size, hroot, h.stores.getNodeRead_zero, (h.empty hroot).2]
    rfl
  · obtain ⟨e, Ls, rfl, hid, -⟩ := h.top hroot
    have hitems : items e.children = xs := by simpa using h.stack.items_eq
    have hcell : (e.id, nodeOf cfg e 0 0) ∈ cellsOf cfg ([e] :: Ls) := by simp
    rw [size, ← hid, h.stores.getNodeRead_eq hcell, ← hitems]
    rfl

theorem Represents.checkBounds_eq (b e : ℕ) :
    checkBounds t b e = if b ≤ e ∧ e ≤ xs.length then .ok () else .error (.err "bad range") := by
  simp only [checkBounds, h.size_ok, bind, Except.bind]
  by_cases hbe : b ≤ e ∧ e ≤ xs.length
  · rw [if_pos hbe, if_neg (by omega)]
    rfl
  · rw [if_neg hbe, if_pos (by omega)]
    rfl

theorem Represents.getItem_ok {i : ℕ} (hi : i < xs.length) : getItem t i = .ok xs[i] := by
  have hsums : Sums (fun (out : Option Item) (_ : Node) => out) (fun out _ => out) := ⟨fun _ _ _ _ => rfl, fun _ => rfl, fun _ _ _ => rfl⟩
  obtain ⟨A, d, B, k, hlanded, hk, rfl, heq⟩ := h.traverse_lt (fun _ node index => return some (node.key index).item) hsums hi none
  have hge : ¬ (items (children A)).length + k ≥ xs.length := by omega
  simp only [getItem, h.size_ok, bind, Except.bind, hge, if_false, heq]
  rw [nodeOf_key_item hk, hlanded.getElem_eq hk hi]
  rfl

/-- The offset behind the last item: the callback does not run unless the root is flat. -/
theorem Represents.traverse_end {α : Type} (cb : α → Node → ℕ → Except Err α) {customAccum : α → Node → α} {g : α → List Item → α}
    (hg : Sums customAccum g) (st : α) :
    traverseToOffset t xs.length cb customAccum st = .ok (g st xs) ∨
      ∃ e, Landed cfg (cellsOf cfg levels) xs [] e [] ∧ e.children.length = xs.length ∧
        traverseToOffset t xs.length cb customAccum st = cb st (nodeOf cfg e 0 0) xs.length := by
  by_cases hroot : getRootNodeId t = 0
  · rw [(h.empty hroot).2, traverseToOffset, hroot, h.stores.getNodeRead_zero, hg.nil]
    exact Or.inl rfl
  · obtain ⟨e, Ls, rfl, hid, -⟩ := h.top hroot
    have hitems : items e.children = xs := by simpa using h.stack.items_eq
    have hcell : (e.id, nodeOf cfg e 0 0) ∈ cellsOf cfg ([e] :: Ls) := by simp
    obtain ⟨fuel, hfuel⟩ : ∃ n, maxDepth t = n + 1 := ⟨maxDepth t - 1, by have hdepth := h.depth_le; simp at hdepth; omega⟩
    have hne : ∀ c ∈ e.children, c.below ≠ [] := fun c hc =>
      h.stack.2.2.below_ne_nil (leaf_below_ne_nil xs) c (by simp [hc])
    have hle : ¬ xs.length > (items e.children).length := by rw [hitems]; omega
    rw [traverseToOffset, ← hid, h.stores.getNodeRead_eq hcell]
    simp only [bind, Except.bind, nodeOf_accumCount, hle, if_false, hfuel]
    by_cases hcount : e.children.length = (items e.children).length
    · refine Or.inr ⟨e, @landed_of_flat _ _ _ _ [] _ [] _ h.stack le_rfl ((flat_iff hne).mp hcount), by rw [hcount, hitems], ?_⟩
      rw [traverseToOffsetAux, if_pos (by simpa using hcount)]
    · left
      rcases Ls with - | ⟨M, Ls⟩
      · have hleaf : children [e] = xs.map Child.leaf := h.stack.2.2
        rw [children_cons, children_nil, List.append_nil] at hleaf
        rw [hitems, hleaf, List.length_map] at hcount
        exact absurd rfl hcount
      · have hsub : cellsOf cfg (M :: Ls) ≤ cellsOf cfg ([e] :: M :: Ls) := by
          rw [cellsOf_cons cfg [e]]
          exact Multiset.le_add_left _ _
        have hbacked : ∀ c ∈ e.children, Backed (cellsOf cfg ([e] :: M :: Ls)) c ∧ c.id ≠ 0 := fun c hc =>
          h.stores.backed_interior h.stack.2.2 hsub c (by simp [hc])
        have hkeys : (nodeOf cfg e 0 0).items.take (nodeOf cfg e 0 0).numItems = e.children.map keyOf := by
          rw [nodeOf_numItems, ← List.length_map keyOf]
          exact pad_take cfg _
        rw [traverseToOffsetAux, if_neg (by simpa using hcount), hkeys, ← hitems]
        exact h.stores.children_end hg fuel hbacked

theorem Represents.iterate_ok {α : Type} {b e : ℕ} (hbe : b ≤ e) (he : e ≤ xs.length) (cb : α → Item → ℕ → α × Bool) (st : α) :
    iterate t b e cb st = .ok (iterateItems cb (slice xs b e) b st) := by
  have hsums : Sums (fun (st : α) (_ : Node) => st) (fun st _ => st) := ⟨fun _ _ _ _ => rfl, fun _ => rfl, fun _ _ _ => rfl⟩
  simp only [iterate, h.checkBounds_eq, hbe, he, and_self, if_true, bind, Except.bind]
  by_cases hlt : b < xs.length
  · obtain ⟨A, d, B, k, hlanded, hk, rfl, heq⟩ := h.traverse_lt
      (fun st node index => iterateFrom t cb (e - b) (some node) index b st) hsums hlt st
    rw [heq]
    have hdrop := @Landed.drop_eq _ _ _ _ _ _ k hlanded
    rw [slice, hdrop]
    refine iterateFrom_ok h.stores cb hlanded.cells hlanded.flat ?_ (Or.inl hk)
    rw [← hdrop, List.length_drop]
    omega
  · obtain rfl : b = xs.length := by omega
    obtain rfl : e = xs.length := by omega
    rw [slice_self]
    rcases h.traverse_end (fun st node index => iterateFrom t cb (xs.length - xs.length) (some node) index xs.length st)
      hsums st with heq | ⟨d, -, -, heq⟩
    · exact heq
    · rw [heq, Nat.sub_self]
      rfl

omit h in
/-- The keys in front of an index, summed up. -/
theorem foldl_keys (d : Entry Item) (p n : ℕ) {k : ℕ} (hk : k ≤ d.children.length) (accum : Accumulator) :
    ((nodeOf cfg d p n).items.take k).foldl (fun accum k => accum.addItem k.item) accum =
      accum + Accumulator.sum ((d.children.take k).map firstOf) := by
  have hkeys : (nodeOf cfg d p n).items.take k = (d.children.take k).map keyOf := by
    change (pad cfg (d.children.map keyOf)).take k = _
    rw [pad, List.take_append_of_le_length (by simpa using hk), List.map_take]
  rw [hkeys, ← Accumulator.foldl_addItem, List.foldl_map, List.foldl_map]
  rfl

theorem Represents.getAccumLeftOf_ok {i : ℕ} (hi : i ≤ xs.length) : getAccumLeftOf t i = .ok (Accumulator.sum (xs.take i)) := by
  have hsums : Sums (fun (accum : Accumulator) (node : Node) => accum.add node.accum) (fun accum ys => accum + Accumulator.sum ys) :=
    ⟨fun _ _ _ hnode => by rw [hnode, Accumulator.add_eq], fun _ => by simp, fun _ _ _ => by simp [add_assoc]⟩
  have hcb : ∀ (A : List (Entry Item)) d B k, Landed cfg (cellsOf cfg levels) xs A d B → k ≤ d.children.length →
      ((nodeOf cfg d (lastId 0 A) (headId B 0)).items.take k).foldl (fun accum k => accum.addItem k.item)
        (Accumulator.setToZero + Accumulator.sum (items (children A))) =
      Accumulator.sum (xs.take ((items (children A)).length + k)) := by
    intro A d B k hlanded hk
    rw [foldl_keys d _ _ hk, hlanded.take_eq hk, Accumulator.sum_append, Accumulator.setToZero_eq, zero_add]
  rw [getAccumLeftOf]
  rcases lt_or_eq_of_le hi with hlt | rfl
  · obtain ⟨A, d, B, k, hlanded, hk, rfl, heq⟩ := h.traverse_lt
      (fun accum node index => return (node.items.take index).foldl (fun accum k => accum.addItem k.item) accum)
      hsums hlt Accumulator.setToZero
    rw [heq, hcb A d B k hlanded hk.le]
    rfl
  · rcases h.traverse_end
      (fun accum node index => return (node.items.take index).foldl (fun accum k => accum.addItem k.item) accum)
      hsums Accumulator.setToZero with heq | ⟨d, hlanded, hlen, heq⟩
    · rw [heq, Accumulator.setToZero_eq, zero_add, List.take_length]
    · have hfold := hcb [] d [] xs.length hlanded hlen.ge
      simp only [children_nil, items_nil, Accumulator.sum_nil, add_zero, List.length_nil, zero_add] at hfold
      rw [heq]
      exact congrArg Except.ok hfold

theorem Represents.fingerprint_ok [Sha256] {b e : ℕ} (hbe : b ≤ e) (he : e ≤ xs.length) :
    fingerprint t b e = .ok (fingerprintOf (slice xs b e)) := by
  have hsplit : xs.take e = xs.take b ++ slice xs b e := by
    simpa only [slice, List.drop_zero, Nat.sub_zero] using (slice_append xs (Nat.zero_le b) hbe).symm
  simp only [fingerprint, h.checkBounds_eq, hbe, he, and_self, if_true, bind, Except.bind, h.getAccumLeftOf_ok (hbe.trans he),
    h.getAccumLeftOf_ok he]
  rw [fingerprintOf, fingerprintOf_eq, hsplit, Accumulator.sum_append, Accumulator.negate_eq, Accumulator.add_eq,
    slice_length xs he, add_right_comm, add_neg_cancel, zero_add]
  rfl

/-- The search answers with the lower bound of the whole tree: the window only comes in at its ends. -/
theorem Represents.findLowerBound_ok {b e : ℕ} (hbe : b ≤ e) (he : e ≤ xs.length) (value : Bound) :
    findLowerBound t b e value =
      .ok (if lowerBound xs value.item = 0 then (if xs = [] then e else b) else min (lowerBound xs value.item) e) := by
  simp only [findLowerBound, h.checkBounds_eq, hbe, he, and_self, if_true, bind, Except.bind]
  by_cases hroot : getRootNodeId t = 0
  · have hxs := (h.empty hroot).2
    subst hxs
    rw [hroot, h.stores.getNodeRead_zero]
    rfl
  · obtain ⟨r, Ls, rfl, hid, -⟩ := h.top hroot
    have hitems : items r.children = xs := by simpa using h.stack.items_eq
    have hcell : (r.id, nodeOf cfg r 0 0) ∈ cellsOf cfg ([r] :: Ls) := by simp
    have hrne := h.stack.2.1.ne_nil r (by simp)
    obtain ⟨c, cs, hcs⟩ := List.exists_cons_of_ne_nil hrne
    have hcne := h.stack.2.2.below_ne_nil (leaf_below_ne_nil xs) c (by simp [hcs])
    have hkey : ((nodeOf cfg r 0 0).key 0).item = firstOf r.toChild := by
      have hkey : (nodeOf cfg r 0 0).key 0 = keyOf c := nodeOf_key (show r.children = [] ++ c :: cs from hcs)
      rw [hkey, keyOf_item, firstOf_toChild hcs hcne]
    obtain ⟨x, zs, hxs⟩ : ∃ x zs, xs = x :: zs := List.exists_cons_of_ne_nil (by
      rw [← hitems]
      exact items_ne_nil hrne (fun d hd => h.stack.2.2.below_ne_nil (leaf_below_ne_nil xs) d (by simp [hd])))
    have hfirst : firstOf r.toChild = x := by simp [firstOf, hitems, hxs]
    rw [← hid, h.stores.getNodeRead_eq hcell]
    simp only [hkey, hfirst]
    by_cases hle : value.item ≤ x
    · have hzero : lowerBound xs value.item = 0 := by simp [lowerBound, hxs, hle]
      rw [if_pos hle, hzero, if_pos rfl, if_neg (by simp [hxs])]
      rfl
    · have hpos : lowerBound xs value.item ≠ 0 := by simp [lowerBound, hxs, not_le.mp hle]
      have haux := @Stores.findLowerBoundAux_ok _ _ cfg _ t _ _ xs value h.stores h.sorted Ls (maxDepth t) [] r [] _ 0
        (by simpa using h.depth_le) h.stack le_rfl (by rw [hfirst]; exact not_le.mp hle)
      rw [hitems, zero_add] at haux
      rw [if_neg hle, if_neg hpos]
      exact congrArg (fun r : Except Err ℕ => r.bind fun n => .ok (min n e)) haux

end

end

end NE.BTree
