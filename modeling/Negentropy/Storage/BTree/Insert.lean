import Negentropy.Storage.BTree.Search

/-! `insertItem` on a tree: what one breadcrumb does to its level, and the whole loop. -/

namespace NE.BTree

open Heap Levels NodeStore LawfulNodeStore

/-- The new item is under `ch`, which takes the place of `c`; it comes first only at the
far left of the level. -/
def Inserted (newItem : Item) (B : List (Child Item)) (c : Child Item) (ch : List (Child Item)) : Prop :=
  ∃ xs ys, c.below = xs ++ ys ∧ items ch = xs ++ newItem :: ys ∧ (xs = [] → B = [])

/-- What takes the place of a child, and what the loop has still to do about it: nothing but
counting, or putting a new key into the node above. -/
inductive Change (B : List (Child Item)) (c : Child Item) : List (Child Item) → Bool → Key → Prop where
  | merged {c' : Child Item} {k : Key} : Points (keyOf c) c' → Change B c [c'] false k
  | split {c' r : Child Item} : Points (keyOf c) c' → firstOf c < firstOf r → Change B c [c', r] true (keyOf r)
  | front {r : Child Item} : c.id = 0 → B = [] → firstOf r < firstOf c → Change B c [r, c] true (keyOf r)

/-- The keys of a node once the new key is in. -/
def mergedKeys (ks : List Key) (needsMerge : Bool) (newKey : Key) : List Key :=
  if needsMerge then List.merge ks [newKey] (fun a b => !decide (b < a)) else ks

section
variable {newItem : Item} {B before after ch : List (Child Item)} {c : Child Item} {needsMerge : Bool} {newKey : Key}

/-- Unless it is at the far left, the child keeps its first item. -/
theorem Inserted.firstOf_eq {c' : Child Item} {rest : List (Child Item)} (h : Inserted newItem B c (c' :: rest)) (hB : B ≠ [])
    (hc' : c'.below ≠ []) : firstOf c' = firstOf c := by
  obtain ⟨xs, ys, hc, hch, hxs⟩ := h
  obtain ⟨x, xs, rfl⟩ := List.exists_cons_of_ne_nil fun hnil => hB (hxs hnil)
  obtain ⟨z, zs, hz⟩ := List.exists_cons_of_ne_nil hc'
  simp only [items_cons, hz, List.cons_append, List.cons.injEq] at hch
  simp [firstOf, hc, hz, hch.1]

theorem firstOf_lt {d : Child Item} {cs : List (Child Item)} (hs : (items (d :: cs)).Pairwise (· < ·))
    (hd : d.below ≠ []) {a : Child Item} (ha : a ∈ cs) (hne : a.below ≠ []) : firstOf d < firstOf a := by
  rw [items_cons] at hs
  exact (List.pairwise_append.mp hs).2.2 _ (firstOf_mem hd) _ (List.mem_flatMap.mpr ⟨a, ha, firstOf_mem hne⟩)

theorem firstOf_lt_append {a d : Child Item} {cs ds : List (Child Item)} (hs : (items (cs ++ ds)).Pairwise (· < ·))
    (ha : a ∈ cs) (hd : d ∈ ds) (hane : a.below ≠ []) (hdne : d.below ≠ []) : firstOf a < firstOf d := by
  rw [items_append] at hs
  exact (List.pairwise_append.mp hs).2.2 _ (List.mem_flatMap.mpr ⟨a, ha, firstOf_mem hane⟩) _
    (List.mem_flatMap.mpr ⟨d, hd, firstOf_mem hdne⟩)

/-- At most the first key of the node has to be refreshed afterwards. -/
theorem Change.stale (h : Change B c ch needsMerge newKey) (hins : Inserted newItem B c ch) (hB : B = [] → before = [])
    (hs : (items (before ++ ch ++ after)).Pairwise (· < ·)) (hne : ∀ d ∈ before ++ ch ++ after, d.below ≠ []) :
    Stale (· = 0) (mergedKeys ((before ++ c :: after).map keyOf) needsMerge newKey) (before ++ ch ++ after) := by
  have replace : ∀ (c' : Child Item) rest rest', ch = c' :: rest → Points (keyOf c) c' →
      Stale (· = 0) ((before ++ c :: rest').map keyOf) (before ++ c' :: rest') := by
    intro c' rest rest' hch hpoints
    by_cases hbefore : before = []
    · subst hbefore
      exact (stale_replace hpoints : Stale (· = ([] : List (Child Item)).length) (([] ++ c :: rest').map keyOf) ([] ++ c' :: rest'))
    · subst hch
      have hc' := hne c' (by simp)
      have hkey : keyOf c = keyOf c' := Key.ext (hins.firstOf_eq (fun hnil => hbefore (hB hnil)) hc').symm hpoints.1
      have hmap : (before ++ c :: rest').map keyOf = (before ++ c' :: rest').map keyOf := by simp [hkey]
      rw [hmap]
      exact stale_map _ _
  cases h with
  | @merged c' _ hpoints => simpa [mergedKeys] using replace c' [] after rfl hpoints
  | @split c' r hpoints hlt =>
    have hr := hne r (by simp)
    have hmerge : mergedKeys ((before ++ c :: after).map keyOf) true (keyOf r) = (before ++ c :: r :: after).map keyOf := by
      have hm := @merge_singleton ((before ++ [c]).map keyOf) (after.map keyOf) (keyOf r) ?_ ?_
      · simpa [mergedKeys] using hm
      · intro a ha
        obtain ⟨d, hd, rfl⟩ := List.mem_map.mp ha
        rcases List.mem_append.mp hd with hd | hd
        · rw [List.append_assoc] at hs
          exact lt_asymm (firstOf_lt_append hs hd (by simp) (hne d (by simp [hd])) hr)
        · obtain rfl := List.mem_singleton.mp hd
          exact lt_asymm hlt
      · intro a ha
        obtain ⟨d, hd, rfl⟩ := List.mem_map.mp ha
        exact firstOf_lt_append hs (by simp) hd hr (hne d (by simp [hd]))
    rw [hmerge]
    simpa using replace c' [r] (r :: after) rfl hpoints
  | @front r _ hnil hlt =>
    obtain rfl := hB hnil
    have hr := hne r (by simp)
    have hm := @merge_singleton [] ((c :: after).map keyOf) (keyOf r) (by simp) ?_
    · have hmap : mergedKeys (([] ++ c :: after).map keyOf) true (keyOf r) = ([] ++ [r, c] ++ after).map keyOf := by
        simpa [mergedKeys] using hm
      rw [hmap]
      exact stale_map _ _
    · intro a ha
      obtain ⟨d, hd, rfl⟩ := List.mem_map.mp ha
      rcases List.mem_cons.mp hd with rfl | hd
      · exact hlt
      · exact firstOf_lt_append hs (by simp) hd hr (hne d (by simp [hd]))

end

/-! ### One breadcrumb -/

section
variable {τ : Type} [NodeStore τ] {cfg : Config} [LawfulNodeStore cfg τ] {t : τ} {root id p : ℕ} {F : Multiset (ℕ × Node)}
  {newItem : Item} {cs : List (Child Item)} {ks : List Key} {below : List Item}

/-- After the first key is refreshed, the node is that of its children. -/
theorem Stores.refresh_first {n : ℕ} (h : Stores cfg t root ((id, mkNode cfg ks (items cs) p n) ::ₘ F))
    (hks : Stale (· = 0) ks cs) (hcs : ∀ c ∈ cs, Backed F c) (hne : cs ≠ []) :
    ∃ t', refreshIndex t id 0 = .ok t' ∧ Stores cfg t' root ((id, nodeOf cfg ⟨id, cs⟩ p n) ::ₘ F) := by
  have hpos := List.length_pos_iff.mpr hne
  obtain ⟨t', heq, h'⟩ := h.refreshIndex_ok hks hcs hpos
  refine ⟨t', heq, ?_⟩
  rw [(hks.set hpos).eq_map fun j _ hj => hj.2 hj.1] at h'
  exact h'

/-- How many keys a full node keeps when it is split. -/
def leftNum (cfg : Config) (nextSibling : ℕ) : ℕ := if nextSibling = 0 then cfg.MAX_ITEMS else cfg.MAX_ITEMS / 2 + 1

theorem leftNum_bounds (cfg : Config) (nextSibling : ℕ) :
    2 ≤ leftNum cfg nextSibling ∧ leftNum cfg nextSibling ≤ cfg.MAX_ITEMS ∧ cfg.MIN_ITEMS ≤ leftNum cfg nextSibling ∧
      (nextSibling ≠ 0 → cfg.MIN_ITEMS ≤ cfg.MAX_ITEMS + 1 - leftNum cfg nextSibling) := by
  have h1 := cfg.min_lt_half_max
  have h2 := cfg.two_le_min
  have h3 := cfg.all_even
  unfold leftNum
  split_ifs <;> omega

/-- A full node is split: the keys, the sums and the links of both halves. -/
theorem Stores.splitNode_ok {right : List (Entry Item)} {newKey : Key}
    (h : Stores cfg t root ((id, mkNode cfg ks below p (headId right 0)) ::ₘ (segment (nodeOf cfg) id right 0 + F)))
    (hfull : ks.length = cfg.MAX_ITEMS) (hpoints : List.Forall₂ Points (mergedKeys ks true newKey) cs)
    (hcs : ∀ c ∈ cs, Backed F c) :
    ∃ t' rightId, rightId ≠ 0 ∧
      splitNode cfg t id newKey = .ok
        { store := t', newKey := ⟨((mergedKeys ks true newKey).getD (leftNum cfg (headId right 0)) Key.zero).item, rightId⟩ } ∧
      Stores cfg t' root
        ((id, mkNode cfg ((mergedKeys ks true newKey).take (leftNum cfg (headId right 0)))
            (items (cs.take (leftNum cfg (headId right 0)))) p rightId) ::ₘ
          (rightId, mkNode cfg ((mergedKeys ks true newKey).drop (leftNum cfg (headId right 0)))
            (items (cs.drop (leftNum cfg (headId right 0)))) id (headId right 0)) ::ₘ
          (segment (nodeOf cfg) rightId right 0 + F)) := by
  obtain ⟨hl2, hlmax, -, -⟩ := leftNum_bounds cfg (headId right 0)
  generalize hl : leftNum cfg (headId right 0) = l at *
  generalize hm : mergedKeys ks true newKey = ks' at *
  have hlen : ks'.length = cfg.MAX_ITEMS + 1 := by
    rw [← hm, mergedKeys, if_pos rfl, List.length_merge, hfull]
    rfl
  have heven := cfg.all_even
  have hr : (if headId right 0 = 0 then 1 else cfg.MAX_ITEMS / 2) = cfg.MAX_ITEMS + 1 - l := by
    rw [← hl, leftNum]
    split_ifs <;> omega
  obtain ⟨t1, hwrite, h1⟩ := h.getNodeWrite_eq (Multiset.mem_cons_self _ _)
  obtain ⟨rightId, t2, hmake, hid, h2⟩ := h1.make
  have hread := h2.readNode_eq (Multiset.mem_cons_self _ _)
  have hbacked : ∀ c ∈ cs, Backed ((rightId, Node.zero cfg) ::ₘ
      (id, mkNode cfg ks below p (headId right 0)) ::ₘ (segment (nodeOf cfg) id right 0 + F)) c :=
    fun c hc => (hcs c hc).mono fun x hx => by simp [hx]
  have hmerge : mergeKey (pad cfg ks) cfg.MAX_ITEMS newKey = pad cfg ks' := by
    rw [← hfull, mergeKey_pad (by omega), ← hm]
    rfl
  have hpad : pad cfg ks' = ks' := by simp [pad, hlen]
  have hleft := h2.sumKeys_eq (List.forall₂_take l hpoints) (fun c hc => hbacked c (List.mem_of_mem_take hc))
    (Accumulator.setToZero, 0)
  have hright := h2.sumKeys_eq (List.forall₂_drop l hpoints) (fun c hc => hbacked c (List.mem_of_mem_drop hc))
    (Accumulator.setToZero, 0)
  have htake : (ks'.drop l).take (cfg.MAX_ITEMS + 1 - l) = ks'.drop l := List.take_of_length_le (by simp; omega)
  have hslots : copyKeys (pad cfg []) 0 (pad cfg ks') l (cfg.MAX_ITEMS + 1 - l) = pad cfg (ks'.drop l) :=
    copyKeys_fresh (by omega) (by omega)
  have hzero : zeroKeys (pad cfg ks') l ks'.length = pad cfg (ks'.take l) := zeroKeys_take (by omega) (by omega)
  rw [hpad, hlen] at hzero
  rw [hpad] at hslots
  -- the right half first, then the left one
  set rightNode := mkNode cfg (ks'.drop l) (items (cs.drop l)) id (headId right 0)
  set leftNode := mkNode cfg (ks'.take l) (items (cs.take l)) p rightId
  have h3 := h2.write rightNode
  rw [Multiset.cons_swap] at h3
  have h4 : Stores cfg (writeNode (writeNode t2 rightId rightNode) id leftNode) root
      (segment (nodeOf cfg) id right 0 + ((id, leftNode) ::ₘ (rightId, rightNode) ::ₘ F)) := by
    simpa [Multiset.add_cons] using h3.write leftNode
  obtain ⟨t', hlink, h5⟩ := h4.relink_prev rightId
  refine ⟨t', rightId, hid, ?_, by simpa [Multiset.add_cons] using h5⟩
  rw [splitNode, hwrite]
  have hleftNum : (if (mkNode cfg ks below p (headId right 0)).nextSibling = 0 then cfg.MAX_ITEMS else cfg.MAX_ITEMS / 2 + 1) = l := hl
  have hrightNum : (if (mkNode cfg ks below p (headId right 0)).nextSibling = 0 then 1 else cfg.MAX_ITEMS / 2) =
      cfg.MAX_ITEMS + 1 - l := hr
  simp only [deref, bind, Except.bind, hmake, hread, mkNode_items, hmerge, hpad, hleftNum, hrightNum, htake]
  have hright' : sumKeys t2 (ks'.drop l) ((Node.zero cfg).accum, (Node.zero cfg).accumCount) =
      .ok (Accumulator.sum (items (cs.drop l)), (items (cs.drop l)).length) := by
    simpa [Node.zero, Accumulator.setToZero_eq] using hright
  have hleft' : sumKeys t2 (ks'.take l) (Accumulator.setToZero, 0) =
      .ok (Accumulator.sum (items (cs.take l)), (items (cs.take l)).length) := by
    simpa [Accumulator.setToZero_eq] using hleft
  have hrightNode : (⟨cfg.MAX_ITEMS + 1 - l, (items (cs.drop l)).length, headId right 0, id,
      Accumulator.sum (items (cs.drop l)), copyKeys (Node.zero cfg).items 0 ks' l (cfg.MAX_ITEMS + 1 - l)⟩ : Node) =
      rightNode := by
    apply Node.ext <;> try rfl
    · simp [rightNode, hlen]
    · exact hslots
  have hleftNode : (⟨l, (items (cs.take l)).length, rightId, p, Accumulator.sum (items (cs.take l)),
      zeroKeys ks' l (cfg.MAX_ITEMS + 1)⟩ : Node) = leftNode := by
    apply Node.ext <;> try rfl
    · simp [leftNode, hlen]
      omega
    · exact hzero
  rw [hleft', hright']
  simp only [mkNode_nextSibling, mkNode_prevSibling, hrightNode, hleftNode]
  by_cases hlast : headId right 0 = 0
  · rw [if_neg (not_not.mpr hlast)] at hlink ⊢
    cases hlink
    rfl
  · rw [if_pos hlast] at hlink ⊢
    rw [hlink]
    rfl

/-! What is added to a node, by whatever comes first of its children. -/

theorem Inserted.whole {B ch : List (Child Item)} {c : Child Item} (h : Inserted newItem B c ch)
    (before after : List (Child Item)) :
    ∃ xs ys, items (before ++ c :: after) = xs ++ ys ∧ items (before ++ ch ++ after) = xs ++ newItem :: ys ∧
      (xs = [] → items before = [] ∧ B = []) := by
  obtain ⟨xs, ys, hc, hch, hxs⟩ := h
  refine ⟨items before ++ xs, ys ++ items after, ?_, ?_, fun hnil => ?_⟩
  · simp [hc]
  · simp [hch]
  · obtain ⟨hbefore, hnil⟩ := List.append_eq_nil_iff.mp hnil
    exact ⟨hbefore, hxs hnil⟩

theorem sum_inserted {xs ys : List Item} :
    Accumulator.sum (xs ++ newItem :: ys) = Accumulator.sum (xs ++ ys) + Accumulator.ofItem newItem := by
  simp only [Accumulator.sum_append, Accumulator.sum_cons]
  rw [add_assoc, add_comm (Accumulator.sum ys)]

/-- A node that is not split gets its counts, and the new key if there is one. -/
theorem Stores.grow_ok {needsMerge : Bool} {newKey : Key} {n : ℕ} {xs ys : List Item}
    (h : Stores cfg t root ((id, mkNode cfg ks (xs ++ ys) p n) ::ₘ F)) (hroom : needsMerge = true → ks.length < cfg.MAX_ITEMS)
    (index : ℕ) :
    ∃ t', insertStep cfg newItem ⟨t, newKey, needsMerge⟩ ⟨index, id⟩ =
        (do
          let t ← refreshIndex t' id 0
          return ⟨t, newKey, false⟩) ∧
      Stores cfg t' root ((id, mkNode cfg (mergedKeys ks needsMerge newKey) (xs ++ newItem :: ys) p n) ::ₘ F) := by
  have hread := h.readNode_eq (Multiset.mem_cons_self _ _)
  have hlen : (xs ++ newItem :: ys).length = (xs ++ ys).length + 1 := by simp; omega
  cases needsMerge with
  | false =>
    obtain ⟨t', heq, h'⟩ := h.modify fun node =>
      { node with accum := node.accum.addItem newItem, accumCount := node.accumCount + 1 }
    refine ⟨t', ?_, ?_⟩
    · simp only [insertStep, hread, heq, bind, Except.bind, pure, Except.pure, Bool.false_eq_true, not_false_eq_true, if_true]
    · convert h' using 3
      simp only [mkNode, mergedKeys, hlen, sum_inserted, Accumulator.addItem_eq, Bool.false_eq_true, if_false]
  | true =>
    have hroom := hroom rfl
    obtain ⟨t', heq, h'⟩ := h.modify (insertKey newItem newKey)
    have hnum : (mkNode cfg ks (xs ++ ys) p n).numItems < cfg.MAX_ITEMS := hroom
    refine ⟨t', ?_, ?_⟩
    · simp only [insertStep, hread, heq, bind, Except.bind, pure, Except.pure, not_true_eq_false, if_false, hnum, if_true]
    · convert h' using 3
      have hmerge := mergeKey_pad (show ks.length ≤ cfg.MAX_ITEMS by omega) newKey
      simp only [insertKey, mkNode, mergedKeys, hlen, sum_inserted, Accumulator.addItem_eq, if_true, hmerge,
        List.length_merge]
      rfl

end

section
variable {τ : Type} [NodeStore τ] {cfg : Config} [LawfulNodeStore cfg τ] {t : τ} {root id p : ℕ} {F : Multiset (ℕ × Node)}
  {newItem : Item} {cs : List (Child Item)} {ks : List Key} {below : List Item}

theorem Change.length_eq {B ch : List (Child Item)} {c : Child Item} {needsMerge : Bool} {newKey : Key}
    (h : Change B c ch needsMerge newKey) : ch.length = if needsMerge then 2 else 1 := by
  cases h <;> rfl

theorem Stale.of_take {n : ℕ} {I : ℕ → Prop} (h : Stale I ks cs) : Stale I (ks.take n) (cs.take n) where
  points := List.forall₂_take n h.points
  get j hj := by
    rw [List.map_take, List.getElem?_take, List.getElem?_take]
    split_ifs
    · exact h.get j hj
    · rfl

/-- Behind the first key nothing has to be refreshed. -/
theorem Stale.drop_eq {n : ℕ} (h : Stale (· = 0) ks cs) (hn : 0 < n) : ks.drop n = (cs.drop n).map keyOf := by
  apply List.ext_getElem?
  intro j
  rw [List.map_drop, List.getElem?_drop, List.getElem?_drop]
  exact h.get (n + j) (by omega)

/-- Two children are enough to hold what was the first item before. -/
theorem head_mem_take {xs ys : List Item} {n : ℕ} (h : items cs = xs ++ newItem :: ys)
    (hne : ∀ c ∈ cs, c.below ≠ []) (hn : 2 ≤ n) (hcs : 2 ≤ cs.length) : (xs ++ ys).headD {} ∈ items (cs.take n) := by
  obtain ⟨c, d, cs, rfl⟩ : ∃ c d cs', cs = c :: d :: cs' := by
    match cs, hcs with
    | c :: d :: cs, _ => exact ⟨c, d, cs, rfl⟩
  obtain ⟨n, rfl⟩ : ∃ m, n = m + 2 := ⟨n - 2, by omega⟩
  obtain ⟨a, as, ha⟩ := List.exists_cons_of_ne_nil (hne c (by simp))
  obtain ⟨b, bs, hb⟩ := List.exists_cons_of_ne_nil (hne d (by simp))
  simp only [List.take_succ_cons, items_cons, ha, hb, List.cons_append] at h ⊢
  rcases xs with - | ⟨x, xs⟩
  · simp only [List.nil_append, List.cons.injEq] at h
    rcases as with - | ⟨a', as⟩ <;> simp [← h.2]
  · simp only [List.cons_append, List.cons.injEq] at h
    simp [h.1]

/-- What a breadcrumb leaves: some entries that take the place of the focus's own, over the
changed children. -/
structure Stepped (cfg : Config) (f : Focus Item) (ch : List (Child Item)) (es : List (Entry Item)) : Prop where
  children_eq : children es = f.before ++ ch ++ f.after
  fits : Fits cfg.MIN_ITEMS cfg.MAX_ITEMS (f.left ++ es ++ f.right)

/-- The entries themselves: one that has grown, or the two parts of a full one. -/
inductive Placed (cfg : Config) (f : Focus Item) (ch : List (Child Item)) : Bool → Bool → List (Entry Item) → Prop where
  | grown {needsMerge : Bool} : (needsMerge = true → f.entry.children.length < cfg.MAX_ITEMS) →
      Placed cfg f ch needsMerge false [⟨f.id, f.before ++ ch ++ f.after⟩]
  | split {l id : ℕ} : f.entry.children.length = cfg.MAX_ITEMS →
      l = (if f.right = [] then cfg.MAX_ITEMS else cfg.MAX_ITEMS / 2 + 1) →
      Placed cfg f ch true true [⟨f.id, (f.before ++ ch ++ f.after).take l⟩, ⟨id, (f.before ++ ch ++ f.after).drop l⟩]

section
variable {f : Focus Item} {G : Multiset (ℕ × Node)} {st : InsertState τ} {ch : List (Child Item)}

theorem Placed.head_id {needsMerge needsMerge' : Bool} {es : List (Entry Item)} (h : Placed cfg f ch needsMerge needsMerge' es) :
    ∃ e rest, es = e :: rest ∧ e.id = f.id := by
  cases h <;> exact ⟨_, _, rfl, rfl⟩

/-- The step on a node that is not split. -/
theorem insertStep_grow (h : Stores cfg st.store root (segment (nodeOf cfg) 0 f.level 0 + G))
    (hfits : Fits cfg.MIN_ITEMS cfg.MAX_ITEMS f.level)
    (hlen : ch.length = if st.needsMerge then 2 else 1)
    (hroom : st.needsMerge = true → f.entry.children.length < cfg.MAX_ITEMS)
    (hins : Inserted newItem (children f.left ++ f.before) f.child ch)
    (hstale : Stale (· = 0) (mergedKeys (f.entry.children.map keyOf) st.needsMerge st.newKey) (f.before ++ ch ++ f.after))
    (hbacked : ∀ c ∈ f.before ++ ch ++ f.after, Backed G c) :
    ∃ st' e, insertStep cfg newItem st (crumbOf f) = .ok st' ∧ st'.needsMerge = false ∧
      Stores cfg st'.store root (segment (nodeOf cfg) 0 (f.left ++ [e] ++ f.right) 0 + G) ∧
      Placed cfg f ch st.needsMerge false [e] ∧ Stepped cfg f ch [e] := by
  obtain ⟨left, id, before, c, after, right⟩ := f
  obtain ⟨t, newKey, needsMerge⟩ := st
  simp only [Focus.level, Focus.entry, crumbOf] at *
  obtain ⟨xs, ys, hold, hnew, -⟩ := hins.whole before after
  obtain ⟨hene, hele, hege⟩ := hfits.mid
  rw [segment_split, Multiset.cons_add, nodeOf, hold] at h
  obtain ⟨t1, hstep, h1⟩ := h.grow_ok (by simpa using hroom) before.length
  have hmono : ∀ c ∈ before ++ ch ++ after, Backed (segment (nodeOf cfg) 0 left id + segment (nodeOf cfg) id right 0 + G) c :=
    fun c hc => (hbacked c hc).mono fun x hx => Multiset.mem_add.mpr (Or.inr hx)
  have hcsne : before ++ ch ++ after ≠ [] := by
    rintro hnil
    simp [hnil] at hnew
  rw [← hnew] at h1
  obtain ⟨t2, hrefresh, h2⟩ := h1.refresh_first hstale hmono hcsne
  refine ⟨⟨t2, newKey, false⟩, ⟨id, before ++ ch ++ after⟩, ?_, rfl, ?_, Placed.grown hroom, by simp, ?_⟩
  · rw [hstep, hrefresh]
    rfl
  · rw [List.append_assoc left, List.singleton_append, segment_split, Multiset.cons_add]
    exact h2
  · have hcount : (before ++ ch ++ after).length = (before ++ c :: after).length + if needsMerge then 1 else 0 := by
      simp only [List.length_append, List.length_cons, hlen]
      split_ifs <;> omega
    have hle : (before ++ ch ++ after).length ≤ cfg.MAX_ITEMS := by
      rw [hcount]
      cases needsMerge with
      | false => exact hele
      | true => exact hroom rfl
    refine hfits.replace (fits_cons.mpr ⟨hcsne, hle, by simp, fits_nil⟩) fun hright e he => ?_
    obtain rfl := List.mem_singleton.mp he
    rw [hcount]
    exact (hege hright).trans (Nat.le_add_right _ _)

/-- The step on a full node. -/
theorem insertStep_split (h : Stores cfg st.store root (segment (nodeOf cfg) 0 f.level 0 + G))
    (hfits : Fits cfg.MIN_ITEMS cfg.MAX_ITEMS f.level)
    (hlen : ch.length = 2) (hmerge : st.needsMerge = true) (hfull : f.entry.children.length = cfg.MAX_ITEMS)
    (hins : Inserted newItem (children f.left ++ f.before) f.child ch)
    (hne : ∀ c ∈ f.before ++ ch ++ f.after, c.below ≠ []) (hs : (items (f.before ++ ch ++ f.after)).Pairwise (· < ·))
    (hstale : Stale (· = 0) (mergedKeys (f.entry.children.map keyOf) true st.newKey) (f.before ++ ch ++ f.after))
    (hbacked : ∀ c ∈ f.before ++ ch ++ f.after, Backed G c) :
    ∃ st' e r, insertStep cfg newItem st (crumbOf f) = .ok st' ∧ st'.needsMerge = true ∧ st'.newKey = keyOf r.toChild ∧
      Stores cfg st'.store root (segment (nodeOf cfg) 0 (f.left ++ [e, r] ++ f.right) 0 + G) ∧
      Placed cfg f ch true true [e, r] ∧ firstOf f.entry.toChild < firstOf r.toChild ∧ Stepped cfg f ch [e, r] := by
  obtain ⟨left, id, before, c, after, right⟩ := f
  obtain ⟨t, newKey, needsMerge⟩ := st
  simp only [Focus.level, Focus.entry, crumbOf] at *
  subst hmerge
  obtain ⟨xs, ys, hold, hnew, -⟩ := hins.whole before after
  obtain ⟨hene, hele, hege⟩ := hfits.mid
  obtain ⟨hl2, hlmax, hlmin, hrmin⟩ := leftNum_bounds cfg (headId right 0)
  generalize hl : leftNum cfg (headId right 0) = l at *
  have hcount : (before ++ ch ++ after).length = cfg.MAX_ITEMS + 1 := by
    simp only [List.length_append, List.length_cons, hlen] at hfull ⊢
    omega
  rw [segment_split, Multiset.cons_add, add_comm (segment _ 0 left id), add_assoc, nodeOf] at h
  have hmono : ∀ c ∈ before ++ ch ++ after, Backed (segment (nodeOf cfg) 0 left id + G) c :=
    fun c hc => (hbacked c hc).mono fun x hx => Multiset.mem_add.mpr (Or.inr hx)
  have hread := h.readNode_eq (Multiset.mem_cons_self _ _)
  obtain ⟨t1, rightId, hrightId, hsplit, h1⟩ := h.splitNode_ok (by simpa using hfull) hstale.points hmono
  rw [hl] at hsplit h1
  generalize hcs : before ++ ch ++ after = cs at *
  have htake : cs.take l ≠ [] := by
    rw [ne_eq, List.take_eq_nil_iff, not_or, ← List.length_eq_zero_iff]
    omega
  have hdrop : cs.drop l ≠ [] := by
    rw [ne_eq, List.drop_eq_nil_iff]
    omega
  obtain ⟨t2, hrefresh, h2⟩ := h1.refresh_first hstale.of_take
    (fun c hc => (hmono c (List.mem_of_mem_take hc)).mono fun x hx => by simp at hx ⊢; tauto) htake
  rw [hstale.drop_eq (by omega)] at h2
  have hl' : l < cs.length := by omega
  have hdropcons := List.drop_eq_getElem_cons hl'
  have hfirst : firstOf (Entry.toChild ⟨rightId, cs.drop l⟩) = firstOf cs[l] :=
    firstOf_toChild hdropcons (hne _ (List.getElem_mem hl'))
  have hkey : ((mergedKeys ((before ++ c :: after).map keyOf) true newKey).getD l Key.zero).item =
      firstOf (Entry.toChild ⟨rightId, cs.drop l⟩) := by
    rw [List.getD_eq_getElem?_getD, hstale.get l (by omega), hfirst]
    simp [hl']
  have hnext : right ≠ [] → headId right 0 ≠ 0 := by
    intro hright
    obtain ⟨r, right, rfl⟩ := List.exists_cons_of_ne_nil hright
    exact h.id_ne_zero (Multiset.mem_cons_of_mem (Multiset.mem_add.mpr (Or.inl (Multiset.mem_cons_self _ _))))
  have hright : l = if right = [] then cfg.MAX_ITEMS else cfg.MAX_ITEMS / 2 + 1 := by
    rw [← hl, leftNum]
    by_cases hnil : right = []
    · simp [hnil]
    · rw [if_neg hnil, if_neg (hnext hnil)]
  refine ⟨⟨t2, keyOf (Entry.toChild ⟨rightId, cs.drop l⟩), true⟩, ⟨id, cs.take l⟩, ⟨rightId, cs.drop l⟩, ?_, rfl, rfl,
    ?_, ?_, ?_, ?_⟩
  · have hnum : ¬ (before ++ c :: after).length < cfg.MAX_ITEMS := by omega
    simp only [insertStep, hread, bind, Except.bind, pure, Except.pure, not_true_eq_false, if_false, mkNode_numItems,
      List.length_map, hnum, hsplit, hrefresh, hkey]
    rfl
  · rw [List.append_assoc left, List.cons_append, List.singleton_append, segment_split, segment_cons, Multiset.cons_add]
    refine cast (congrArg (Stores cfg t2 root) ?_) h2
    simp only [Multiset.cons_add, Multiset.add_cons, headId_cons, nodeOf]
    rw [add_assoc, add_left_comm]
  · subst hcs
    exact Placed.split hfull hright
  · have hmem : firstOf (Entry.toChild ⟨id, before ++ c :: after⟩) ∈ items (cs.take l) := by
      rw [firstOf, toChild_below, hold]
      exact head_mem_take hnew hne hl2 (by omega)
    rw [← List.take_append_drop l cs, items_append] at hs
    refine (List.pairwise_append.mp hs).2.2 _ hmem _ (firstOf_mem ?_)
    exact items_ne_nil hdrop fun d hd => hne d (List.mem_of_mem_drop hd)
  · refine ⟨by simpa using hcs.symm, hfits.replace ?_ fun hright e he => ?_⟩
    · refine fits_cons.mpr ⟨htake, ?_, fun _ => ?_, fits_cons.mpr ⟨hdrop, ?_, by simp, fits_nil⟩⟩ <;> simp <;> omega
    · have hr := hrmin (hnext hright)
      rcases List.mem_cons.mp he with rfl | he
      · simp
        omega
      · obtain rfl := List.mem_singleton.mp he
        simp
        omega

/-- One breadcrumb: the changed children go under the same node, or under it and a new one to
its right. -/
theorem insertStep_ok (h : Stores cfg st.store root (segment (nodeOf cfg) 0 f.level 0 + G))
    (hfits : Fits cfg.MIN_ITEMS cfg.MAX_ITEMS f.level)
    (hch : Change (children f.left ++ f.before) f.child ch st.needsMerge st.newKey)
    (hins : Inserted newItem (children f.left ++ f.before) f.child ch)
    (hne : ∀ c ∈ f.before ++ ch ++ f.after, c.below ≠ []) (hs : (items (f.before ++ ch ++ f.after)).Pairwise (· < ·))
    (hbacked : ∀ c ∈ f.before ++ ch ++ f.after, Backed G c) :
    ∃ st' es, insertStep cfg newItem st (crumbOf f) = .ok st' ∧
      Stores cfg st'.store root (segment (nodeOf cfg) 0 (f.left ++ es ++ f.right) 0 + G) ∧ Stepped cfg f ch es ∧
      Placed cfg f ch st.needsMerge st'.needsMerge es ∧ Change (f.left.map Entry.toChild) f.entry.toChild (es.map Entry.toChild) st'.needsMerge st'.newKey := by
  have hstale := hch.stale hins (fun hnil => (List.append_eq_nil_iff.mp hnil).2) hs hne
  have hlen := hch.length_eq
  have hid : f.id ≠ 0 := by
    obtain ⟨p, n, hmem⟩ := mem_segment (nodeOf cfg) 0 0 (show f.entry ∈ f.level by simp [Focus.level])
    exact h.id_ne_zero (Multiset.mem_add.mpr (Or.inl hmem))
  have hpoints : ∀ e : Entry Item, e.id = f.id → Points (keyOf f.entry.toChild) e.toChild :=
    fun e he => ⟨he.symm, fun h0 => absurd (he.symm.trans h0) hid⟩
  by_cases hroom : st.needsMerge = true → f.entry.children.length < cfg.MAX_ITEMS
  · obtain ⟨st', e, hstep, hmerge, h', hplaced, hstepped⟩ := insertStep_grow h hfits hlen hroom hins hstale hbacked
    obtain ⟨_, _, heq, he⟩ := hplaced.head_id
    obtain ⟨rfl, -⟩ := List.cons_eq_cons.mp heq
    refine ⟨st', [e], hstep, h', hstepped, by rwa [hmerge], ?_⟩
    rw [hmerge]
    exact Change.merged (hpoints e he)
  · obtain ⟨hmerge, hfull⟩ := Classical.not_imp.mp hroom
    have hle := hfits.mid.2.1
    rw [hmerge] at hlen hstale
    obtain ⟨st', e, r, hstep, hmerge', hkey, h', hplaced, hlt, hstepped⟩ :=
      insertStep_split h hfits hlen hmerge (by omega) hins hne hs hstale hbacked
    obtain ⟨_, _, heq, he⟩ := hplaced.head_id
    obtain ⟨rfl, -⟩ := List.cons_eq_cons.mp heq
    refine ⟨st', [e, r], hstep, h', hstepped, by rwa [hmerge, hmerge'], ?_⟩
    rw [hmerge', hkey]
    exact Change.split (hpoints e he) hlt

end

end

/-! ### All breadcrumbs -/

section
variable {τ : Type} [NodeStore τ] {cfg : Config} [LawfulNodeStore cfg τ] {t : τ} {root : ℕ}
  {newItem : Item} {xs : List Item}

/-- The children on top of a tree are single items, or there are nodes for them. -/
theorem backed_of_stack {top : List (Child Item)} {Ls : List (List (Entry Item))} (h : TreeStack cfg top Ls xs) :
    ∀ c ∈ top, Backed (cellsOf cfg Ls) c := by
  intro c hc
  rcases Ls with - | ⟨L, Ls⟩
  · obtain rfl : top = xs.map Child.leaf := h
    obtain ⟨x, -, rfl⟩ := List.mem_map.mp hc
    exact Or.inl ⟨rfl, x, rfl⟩
  · obtain ⟨rfl, hfits, h⟩ := h
    have hne := h.below_ne_nil (leaf_below_ne_nil xs)
    have hbacked := @backed_segment cfg L (fun e he d hd => hne d (List.mem_flatMap.mpr ⟨e, he, hd⟩)) hfits.ne_nil 0 0 c hc
    exact hbacked.mono fun x hx => by simp [hx]

/-- What has changed under the focus, seen from the level above. -/
theorem Stepped.inserted {f : Focus Item} {ch : List (Child Item)} {es : List (Entry Item)} (h : Stepped cfg f ch es)
    (hins : Inserted newItem (children f.left ++ f.before) f.child ch) :
    Inserted newItem (f.left.map Entry.toChild) f.entry.toChild (es.map Entry.toChild) := by
  obtain ⟨xs, ys, hold, hnew, hxs⟩ := hins.whole f.before f.after
  refine ⟨xs, ys, hold, ?_, fun hnil => ?_⟩
  · rw [items_toChild, h.children_eq, hnew]
  · obtain ⟨hleft, -⟩ := List.append_eq_nil_iff.mp (hxs hnil).2
    rw [List.map_eq_nil_iff]
    rcases hl : f.left with - | ⟨e, left⟩
    · rfl
    · rw [hl, children_cons] at hleft
      exact absurd (List.append_eq_nil_iff.mp hleft).1 (h.fits.ne_nil e (by simp [hl]))

/-- The levels of a tree of which `fs` is still to be done. -/
def pending (fs : List (Focus Item)) (Ls : List (List (Entry Item))) : List (List (Entry Item)) :=
  (fs.map Focus.level).reverse ++ Ls

theorem pending_cons (f : Focus Item) (fs : List (Focus Item)) (Ls : List (List (Entry Item))) :
    pending (f :: fs) Ls = pending fs (f.level :: Ls) := by simp [pending]

theorem cellsOf_pending (fs : List (Focus Item)) (L : List (Entry Item)) (Ls : List (List (Entry Item))) :
    cellsOf cfg (pending fs (L :: Ls)) = segment (nodeOf cfg) 0 L 0 + cellsOf cfg (pending fs Ls) := by
  simp only [pending, cellsOf_append, cellsOf_cons]
  rw [add_left_comm]

theorem cellsOf_subset_pending (fs : List (Focus Item)) (Ls : List (List (Entry Item))) :
    cellsOf cfg Ls ⊆ cellsOf cfg (pending fs Ls) := fun x hx => by
  rw [pending, cellsOf_append]
  exact Multiset.mem_add.mpr (Or.inr hx)

/-- The next node to be done. -/
theorem mem_pending (f : Focus Item) (fs : List (Focus Item)) (Ls : List (List (Entry Item))) :
    ∃ p n, (f.id, nodeOf cfg f.entry p n) ∈ cellsOf cfg (pending (f :: fs) Ls) := by
  obtain ⟨p, n, hmem⟩ := mem_segment (nodeOf cfg) 0 0 (show f.entry ∈ f.level by simp [Focus.level])
  refine ⟨p, n, ?_⟩
  rw [pending_cons, cellsOf_pending]
  exact Multiset.mem_add.mpr (Or.inl hmem)

/-- As long as a level above is the old one, the root is what it was. -/
theorem rooted_pending {fs : List (Focus Item)} {L M : List (Entry Item)} {Ls : List (List (Entry Item))}
    (h : Rooted root (pending fs (L :: Ls))) (hfs : fs ≠ []) : Rooted root (pending fs (M :: Ls)) := by
  obtain ⟨top, rest, htop⟩ := List.exists_cons_of_ne_nil (show (fs.map Focus.level).reverse ≠ [] by simpa using hfs)
  rw [pending, htop] at h ⊢
  obtain ⟨e, he, hid, hwide⟩ := h
  exact ⟨e, he, hid, fun _ => hwide (by simp)⟩

/-- The entry of the highest level is the root. -/
theorem rooted_focus {f : Focus Item} {Ls : List (List (Entry Item))}
    (hpath : TreePath cfg (f.left.map Entry.toChild) f.entry.toChild (f.right.map Entry.toChild) [])
    (h : Rooted root (pending [] (f.level :: Ls))) :
    f.left = [] ∧ f.right = [] ∧ f.id = root ∧ (Ls ≠ [] → 2 ≤ f.entry.children.length) := by
  obtain ⟨hleft, hright⟩ := hpath
  rw [List.map_eq_nil_iff] at hleft hright
  obtain ⟨d, hd, hid, hwide⟩ := h
  rw [Focus.level, hleft, hright, List.nil_append, List.singleton_inj] at hd
  subst hd
  exact ⟨hleft, hright, hid, hwide⟩

/-- A root that is not split stays the root. -/
theorem Stepped.rooted {f : Focus Item} {ch : List (Child Item)} {es : List (Entry Item)} {Ls : List (List (Entry Item))}
    {newKey : Key} (h : Stepped cfg f ch es)
    (hpath : TreePath cfg (f.left.map Entry.toChild) f.entry.toChild (f.right.map Entry.toChild) [])
    (hold : Rooted root (pending [] (f.level :: Ls))) (hlen : 1 ≤ ch.length)
    (hch : Change (f.left.map Entry.toChild) f.entry.toChild (es.map Entry.toChild) false newKey) :
    Rooted root (pending [] ((f.left ++ es ++ f.right) :: Ls)) := by
  obtain ⟨hleft, hright, hid, hwide⟩ := rooted_focus hpath hold
  generalize hes : es.map Entry.toChild = ds at hch
  cases hch with
  | merged hpoints =>
    obtain ⟨e, rfl, rfl⟩ := List.map_eq_singleton_iff.mp hes
    refine ⟨e, by simp [hleft, hright], hpoints.1.symm.trans hid, fun hLs => (hwide hLs).trans ?_⟩
    have hchildren := h.children_eq
    rw [children_cons, children_nil, List.append_nil] at hchildren
    simp only [hchildren, Focus.entry, List.length_append, List.length_cons]
    omega

/-- The loop with the breadcrumbs of `fs` still to be done: the levels `Ls` are those of the new tree, those of `fs` are
of the old one, and `ch` takes the place of the child `c`. -/
structure Inserting (cfg : Config) [LawfulNodeStore cfg τ] (root : ℕ) (newItem : Item) (xs : List Item) (st : InsertState τ)
    (fs : List (Focus Item)) (B : List (Child Item)) (c : Child Item) (ch C : List (Child Item))
    (Ls : List (List (Entry Item))) : Prop where
  stores : Stores cfg st.store root (cellsOf cfg (pending fs Ls))
  path : TreePath cfg B c C fs
  stack : TreeStack cfg (B ++ ch ++ C) Ls xs
  change : Change B c ch st.needsMerge st.newKey
  inserted : Inserted newItem B c ch
  rooted : (fs = [] → st.needsMerge = false) → Rooted root (pending fs Ls)
  id_eq : fs = [] → c.id = root

/-- One breadcrumb. -/
theorem Inserting.next (hs : xs.Pairwise (· < ·)) {f : Focus Item} {fs : List (Focus Item)} {B ch C : List (Child Item)}
    {c : Child Item} {Ls : List (List (Entry Item))} {st : InsertState τ}
    (h : Inserting cfg root newItem xs st (f :: fs) B c ch C Ls) :
    ∃ st' es, insertStep cfg newItem st (crumbOf f) = .ok st' ∧ Placed cfg f ch st.needsMerge st'.needsMerge es ∧
      Inserting cfg root newItem xs st' fs (f.left.map Entry.toChild) f.entry.toChild (es.map Entry.toChild)
        (f.right.map Entry.toChild) ((f.left ++ es ++ f.right) :: Ls) := by
  obtain ⟨h, ⟨rfl, rfl, rfl, hfits, hpath⟩, hstack, hch, hins, hroot, -⟩ := h
  rw [pending_cons, cellsOf_pending] at h
  rw [pending_cons] at hroot
  have hne := hstack.below_ne_nil (leaf_below_ne_nil xs)
  have hmem : ∀ d ∈ f.before ++ ch ++ f.after, d ∈ children f.left ++ f.before ++ ch ++ (f.after ++ children f.right) := by
    intro d hd
    simp only [List.mem_append] at hd ⊢
    tauto
  have hs' : (items (f.before ++ ch ++ f.after)).Pairwise (· < ·) := by
    have hitems : items (children f.left) ++ items (f.before ++ ch ++ f.after) ++ items (children f.right) = xs := by
      rw [← items_leaf xs, ← hstack.items_eq]
      simp
    rw [← hitems] at hs
    exact (List.pairwise_append.mp (List.pairwise_append.mp hs).1).2.1
  have hbacked : ∀ d ∈ f.before ++ ch ++ f.after, Backed (cellsOf cfg (pending fs Ls)) d := by
    intro d hd
    exact (backed_of_stack hstack d (hmem d hd)).mono (cellsOf_subset_pending fs Ls)
  obtain ⟨st', es, hstep, h', hstepped, hplaced, hch'⟩ :=
    insertStep_ok h hfits hch hins (fun d hd => hne d (hmem d hd)) hs' hbacked
  have hcells : Stores cfg st'.store root (cellsOf cfg (pending fs ((f.left ++ es ++ f.right) :: Ls))) := by
    rw [cellsOf_pending]
    exact h'
  have hstack' : TreeStack cfg (f.left.map Entry.toChild ++ es.map Entry.toChild ++ f.right.map Entry.toChild)
      ((f.left ++ es ++ f.right) :: Ls) xs := by
    refine ⟨by simp, hstepped.fits, ?_⟩
    have hchildren : children (f.left ++ es ++ f.right) = children f.left ++ f.before ++ ch ++ (f.after ++ children f.right) := by
      simp [hstepped.children_eq]
    rw [hchildren]
    exact hstack
  refine ⟨st', es, hstep, hplaced, hcells, hpath, hstack', hch', hstepped.inserted hins, fun hmerge => ?_, ?_⟩
  · have hold := hroot (by simp)
    by_cases hfs : fs = []
    · subst hfs
      exact hstepped.rooted hpath hold (hch.length_eq ▸ by split_ifs <;> simp) (hmerge rfl ▸ hch')
    · exact rooted_pending hold hfs
  · rintro rfl
    exact (rooted_focus hpath (hroot (by simp))).2.2.1

/-- A child with an id is the node under that id. -/
theorem Stores.read_child {F : Multiset (ℕ × Node)} (h : Stores cfg t root F) {c : Child Item} (hc : Backed F c)
    (hid : c.id ≠ 0) :
    ∃ node, readNode t c.id = .ok node ∧ node.accum = Accumulator.sum c.below ∧ node.accumCount = c.below.length ∧
      (node.key 0).item = firstOf c := by
  rcases hc with ⟨h0, -⟩ | ⟨node, hmem, hnode⟩
  · exact absurd h0 hid
  · exact ⟨node, h.readNode_eq hmem, hnode⟩

/-- A new root over the two halves of the old one. -/
theorem Stores.growRoot_ok {F : Multiset (ℕ × Node)} {c r : Child Item} (h : Stores cfg t root F) (hc : Backed F c)
    (hr : Backed F r) (hcid : c.id ≠ 0) (hrid : r.id ≠ 0) :
    ∃ t' id, growRoot t c.id (keyOf r) = .ok t' ∧ Stores cfg t' id ((id, nodeOf cfg ⟨id, [c, r]⟩ 0 0) ::ₘ F) := by
  obtain ⟨left, hleft, hla, hlc, hlk⟩ := h.read_child hc hcid
  obtain ⟨right, hright, hra, hrc, hrk⟩ := h.read_child hr hrid
  obtain ⟨id, t1, hmake, hid, h1⟩ := h.make
  have hread := h1.readNode_eq (Multiset.mem_cons_self _ _)
  refine ⟨_, id, ?_, (h1.write _).setRoot id⟩
  simp only [growRoot, hleft, keyOf_nodeId, hright, bind, Except.bind, hmake, hread, pure, Except.pure]
  refine congrArg (fun node => Except.ok (setRootNodeId (writeNode t1 id node) id)) ?_
  have hmax := cfg.min_lt_half_max
  apply Node.ext <;> try rfl
  · simp [hlc, hrc]
  · simp [hla, hra, Node.zero, Accumulator.setToZero_eq, Accumulator.add_eq]
  · have hl : { left.key 0 with nodeId := c.id } = keyOf c := Key.ext hlk rfl
    have hr : { right.key 0 with nodeId := r.id } = keyOf r := Key.ext hrk rfl
    have h0 := @pad_concat cfg [] (by simp) (keyOf c)
    have h1 := @pad_concat cfg [keyOf c] (by simp; omega) (keyOf r)
    rw [hl, hr]
    exact (congrArg (fun slots => slots.set 1 (keyOf r)) h0).trans h1

/-- What an insert leaves of the levels of some breadcrumbs, the lowest first, when the children `ch` take the place of
the child `c`. -/
inductive Grown (cfg : Config) : List (Focus Item) → Child Item → List (Child Item) → Bool → List (List (Entry Item)) → Prop where
  | same {c : Child Item} {ch : List (Child Item)} : Grown cfg [] c ch false []
  | root {c : Child Item} {ch : List (Child Item)} {id : ℕ} : Grown cfg [] c ch true [[⟨id, ch⟩]]
  | next {f : Focus Item} {fs : List (Focus Item)} {ch : List (Child Item)} {needsMerge needsMerge' : Bool}
      {es : List (Entry Item)} {tops : List (List (Entry Item))} : f.id ≠ 0 → Placed cfg f ch needsMerge needsMerge' es →
      Grown cfg fs f.entry.toChild (es.map Entry.toChild) needsMerge' tops →
      Grown cfg (f :: fs) f.child ch needsMerge ((f.left ++ es ++ f.right) :: tops)

/-- All breadcrumbs done: a root that was split gets a new one on top. -/
theorem Inserting.root_ok (hs : xs.Pairwise (· < ·)) {B C ch : List (Child Item)} {c : Child Item}
    {Ls : List (List (Entry Item))} {st : InsertState τ} (h : Inserting cfg root newItem xs st [] B c ch C Ls) (hLs : Ls ≠ []) :
    ∃ t' tops, (if st.needsMerge then growRoot st.store root st.newKey else .ok st.store) = .ok t' ∧
      Represents cfg t' (tops ++ Ls) xs ∧ Grown cfg [] c ch st.needsMerge tops := by
  obtain ⟨hstores, ⟨rfl, rfl⟩, hstack, hch, -, hroot, hid⟩ := h
  obtain ⟨t', newKey, needsMerge⟩ := st
  obtain ⟨L, Ls, rfl⟩ := List.exists_cons_of_ne_nil hLs
  simp only [pending, List.map_nil, List.reverse_nil, List.nil_append] at hstores hroot
  replace hstack : TreeStack cfg ch (L :: Ls) xs := by simpa using hstack
  have htop := hstack.1
  cases needsMerge with
  | false =>
    refine ⟨t', [], rfl, represents_of hstores ?_ hs (hroot fun _ => rfl), Grown.same⟩
    rw [List.nil_append, List.headD_cons, htop]
    exact hstack
  | true =>
    have hbacked := backed_of_stack hstack
    have hids : ∀ d ∈ ch, d.id ≠ 0 := by
      rw [← htop]
      intro d hd
      obtain ⟨e, he, rfl⟩ := List.mem_map.mp hd
      obtain ⟨p, n, hcell⟩ := mem_segment (nodeOf cfg) 0 0 he
      exact hstores.id_ne_zero (by simpa using Or.inl hcell)
    cases hch with
    | @split d r hpoints hlt =>
      obtain ⟨t'', id, hgrow, h''⟩ := hstores.growRoot_ok (hbacked d (by simp)) (hbacked r (by simp)) (hids d (by simp))
        (hids r (by simp))
      have hdid : d.id = root := hpoints.1.symm.trans (hid rfl)
      rw [hdid] at hgrow
      refine ⟨t'', [[⟨id, [d, r]⟩]], hgrow, represents_of ?_ ?_ hs ⟨_, rfl, rfl, by simp⟩, Grown.root⟩
      · simpa using h''
      · refine ⟨rfl, fits_cons.mpr ⟨by simp, ?_, by simp, fits_nil⟩, by simpa using hstack⟩
        have hmax := cfg.min_lt_half_max
        simp
        omega
    | front h0 => exact absurd h0 (hids c (by simp))

/-- The loop, and the new root. -/
theorem Inserting.finish (hs : xs.Pairwise (· < ·)) :
    ∀ {fs : List (Focus Item)} {B C ch : List (Child Item)} {c : Child Item} {Ls : List (List (Entry Item))} {st : InsertState τ},
      Inserting cfg root newItem xs st fs B c ch C Ls → (fs = [] → Ls ≠ []) →
      ∃ st' t' tops, insertLoop cfg newItem (fs.map crumbOf) st = .ok st' ∧
        (if st'.needsMerge then growRoot st'.store root st'.newKey else .ok st'.store) = .ok t' ∧
        Represents cfg t' (tops.reverse ++ Ls) xs ∧ Grown cfg fs c ch st.needsMerge tops := by
  intro fs
  induction fs with
  | nil =>
    intro B C ch c Ls st h hLs
    obtain ⟨t', tops, hgrow, h', hgrown⟩ := h.root_ok hs (hLs rfl)
    have hrev : tops.reverse = tops := by
      generalize st.needsMerge = needsMerge at hgrown
      cases hgrown <;> rfl
    exact ⟨st, t', tops, rfl, hgrow, hrev.symm ▸ h', hgrown⟩
  | cons f fs ih =>
    intro B C ch c Ls st h _
    obtain ⟨st', es, hstep, hplaced, h'⟩ := h.next hs
    obtain ⟨st'', t', tops, hloop, hgrow, h'', hgrown⟩ := ih h' (by simp)
    obtain ⟨p, n, hmem⟩ := @mem_pending cfg f fs Ls
    have hid : f.id ≠ 0 := h.stores.id_ne_zero hmem
    obtain rfl := h.path.1
    refine ⟨st'', t', (f.left ++ es ++ f.right) :: tops, ?_, hgrow, ?_, Grown.next hid hplaced hgrown⟩
    · rw [List.map_cons, insertLoop, hstep]
      exact hloop
    · simpa using h''

/-- A root leaf. -/
theorem Represents.insertItem_empty (h : Represents cfg t [] []) (hroot : getRootNodeId t = 0) (newItem : Item) :
    ∃ t' levels', insertItem cfg t newItem = .ok (true, t') ∧ Represents cfg t' levels' [newItem] := by
  obtain ⟨id, t1, hmake, hid, h1⟩ := h.stores.make
  have hread := h1.readNode_eq (Multiset.mem_cons_self _ _)
  have h2 := (h1.write (nodeOf cfg ⟨id, [Child.leaf newItem]⟩ 0 0)).setRoot id
  have hmax := cfg.min_lt_half_max
  refine ⟨_, [[⟨id, [Child.leaf newItem]⟩]], ?_, represents_of (by simpa using h2) ?_ (by simp) ⟨_, rfl, rfl, by simp⟩⟩
  · simp only [insertItem, hroot, if_true, hmake, hread, bind, Except.bind, pure, Except.pure]
    refine congrArg (fun node => Except.ok (true, setRootNodeId (writeNode t1 id node) id)) ?_
    apply Node.ext <;> try rfl
    simp [Node.zero, Accumulator.setToZero_eq, Accumulator.addItem_eq]
  · exact ⟨rfl, fits_cons.mpr ⟨by simp, by simp; omega, by simp, fits_nil⟩, rfl⟩

/-- The change at the base: the new item beside the one that the search found. -/
theorem change_leaf {x y : Item} {A Z : List (Child Item)} (hloc : Located x A (Child.leaf y) Z) (hxy : x ≠ y) :
    ∃ ch : List Item, (x < y ∧ ch = [x, y] ∨ y < x ∧ ch = [y, x]) ∧ Change A (Child.leaf y) (ch.map Child.leaf) true ⟨x, 0⟩ ∧
      Inserted x A (Child.leaf y) (ch.map Child.leaf) := by
  rcases lt_or_gt_of_ne hxy with hlt | hlt
  · have hA : A = [] := hloc.left.resolve_right (not_le.mpr hlt)
    exact ⟨[x, y], Or.inl ⟨hlt, rfl⟩, Change.front rfl hA hlt, [], [y], rfl, rfl, fun _ => hA⟩
  · exact ⟨[y, x], Or.inr ⟨hlt, rfl⟩, Change.split ⟨rfl, fun _ => rfl⟩ hlt, [y], [], rfl, rfl, by simp⟩

/-- The loop begins, for an item that the search did not find. -/
theorem Represents.inserting {levels : List (List (Entry Item))} (h : Represents cfg t levels xs)
    (hroot : getRootNodeId t ≠ 0) (habsent : newItem ∉ xs) :
    ∃ pre y post f fs ch, xs = pre ++ y :: post ∧
      searchItem t (getRootNodeId t) newItem = .ok (false, (f :: fs).map crumbOf) ∧
      (f :: fs).map Focus.level = levels.reverse ∧
      Located newItem (pre.map Child.leaf) (Child.leaf y) (post.map Child.leaf) ∧
      (newItem < y ∧ ch = [newItem, y] ∨ y < newItem ∧ ch = [y, newItem]) ∧ (pre ++ ch ++ post).Pairwise (· < ·) ∧
      (∀ z, z ∈ pre ++ ch ++ post ↔ z = newItem ∨ z ∈ xs) ∧
      Inserting cfg (getRootNodeId t) newItem (pre ++ ch ++ post) { store := t, newKey := ⟨newItem, 0⟩ } (f :: fs)
        (pre.map Child.leaf) (Child.leaf y) (ch.map Child.leaf) (post.map Child.leaf) [] := by
  obtain ⟨pre, y, post, fs, rfl, hsearch, hpath, hlevels, hloc⟩ := h.searchItem_ok hroot newItem
  have hxy : newItem ≠ y := fun heq => habsent ((hloc.mem_iff h.sorted).mpr heq)
  obtain ⟨ch, hcases, hch, hins⟩ := change_leaf hloc hxy
  have hsort : ch.Pairwise (· < ·) := by
    rcases hcases with ⟨hlt, rfl⟩ | ⟨hlt, rfl⟩ <;> simpa using hlt
  have hmem : ∀ z, z ∈ ch ↔ z = newItem ∨ z = y := by
    rcases hcases with ⟨-, rfl⟩ | ⟨-, rfl⟩ <;> simp [or_comm]
  have hs : (pre ++ ch ++ post).Pairwise (· < ·) := by
    obtain ⟨hpre, hypost, hlt⟩ := List.pairwise_append.mp h.sorted
    obtain ⟨hy, hpost⟩ := List.pairwise_cons.mp hypost
    refine List.pairwise_append.mpr ⟨List.pairwise_append.mpr ⟨hpre, hsort, fun a ha z hz => ?_⟩, hpost, fun a ha z hz => ?_⟩
    · have hay := hlt a ha y (by simp)
      rcases (hmem z).mp hz with rfl | rfl
      · refine hay.trans_le (hloc.left.resolve_left fun hnil => ?_)
        rw [List.map_eq_nil_iff] at hnil
        simp [hnil] at ha
      · exact hay
    · rcases List.mem_append.mp ha with ha | ha
      · exact hlt a ha z (by simp [hz])
      · rcases (hmem a).mp ha with rfl | rfl
        · exact hloc.right z (by simpa using hz)
        · exact hy z hz
  have hmem' : ∀ z, z ∈ pre ++ ch ++ post ↔ z = newItem ∨ z ∈ pre ++ y :: post := by
    intro z
    simp only [List.mem_append, hmem, List.mem_cons]
    tauto
  obtain ⟨f, fs, rfl⟩ := List.exists_cons_of_ne_nil (show fs ≠ [] by
    rintro rfl
    obtain rfl := List.reverse_eq_nil_iff.mp hlevels.symm
    exact hroot h.rooted)
  have hpending : pending (f :: fs) [] = levels := by simp [pending, -List.map_cons, hlevels]
  refine ⟨pre, y, post, f, fs, ch, rfl, by simpa [hxy] using hsearch, hlevels, hloc, hcases, hs, hmem', ?_⟩
  exact ⟨hpending ▸ h.stores, hpath, show _ = _ by simp, hch, hins, fun _ => hpending ▸ h.rooted, by simp⟩

/-- An item that the search did not find is put into the tree. -/
theorem Represents.insertItem_absent {levels : List (List (Entry Item))} (h : Represents cfg t levels xs)
    (hroot : getRootNodeId t ≠ 0) (habsent : newItem ∉ xs) :
    ∃ t' pre y post f fs ch tops, xs = pre ++ y :: post ∧ insertItem cfg t newItem = .ok (true, t') ∧
      (f :: fs).map Focus.level = levels.reverse ∧ TreePath cfg (pre.map Child.leaf) (Child.leaf y) (post.map Child.leaf) (f :: fs) ∧
      Located newItem (pre.map Child.leaf) (Child.leaf y) (post.map Child.leaf) ∧
      (newItem < y ∧ ch = [newItem, y] ∨ y < newItem ∧ ch = [y, newItem]) ∧
      (∀ z, z ∈ pre ++ ch ++ post ↔ z = newItem ∨ z ∈ xs) ∧ Represents cfg t' tops.reverse (pre ++ ch ++ post) ∧
      Grown cfg (f :: fs) (Child.leaf y) (ch.map Child.leaf) true tops := by
  obtain ⟨pre, y, post, f, fs, ch, hxs, hsearch, hlevels, hloc, hcases, hs, hmem, hinserting⟩ := h.inserting hroot habsent
  obtain ⟨st', t', tops, hloop, hgrow, h', hgrown⟩ := hinserting.finish hs (by simp)
  refine ⟨t', pre, y, post, f, fs, ch, tops, hxs, ?_, hlevels, hinserting.path, hloc, hcases, hmem, by simpa using h', hgrown⟩
  simp only [insertItem, hroot, if_false, hsearch, hloop, bind, Except.bind, pure, Except.pure, Bool.false_eq_true]
  split_ifs at hgrow ⊢
  · rw [hgrow]
  · cases hgrow
    rfl

theorem Represents.insertItem_ok {levels : List (List (Entry Item))} (h : Represents cfg t levels xs) (newItem : Item) :
    ∃ t' levels' xs', insertItem cfg t newItem = .ok (decide (newItem ∉ xs), t') ∧ Represents cfg t' levels' xs' ∧
      ∀ y, y ∈ xs' ↔ y = newItem ∨ y ∈ xs := by
  by_cases hroot : getRootNodeId t = 0
  · obtain ⟨rfl, rfl⟩ := h.empty hroot
    obtain ⟨t', levels', heq, h'⟩ := h.insertItem_empty hroot newItem
    exact ⟨t', levels', [newItem], by simpa using heq, h', by simp⟩
  by_cases hmem : newItem ∈ xs
  · obtain ⟨pre, y, post, fs, hxs, hsearch, -, -, hloc⟩ := h.searchItem_ok hroot newItem
    obtain rfl : newItem = y := by
      subst hxs
      exact (hloc.mem_iff h.sorted).mp hmem
    refine ⟨t, levels, xs, ?_, h, fun z => ⟨Or.inr, fun hz => hz.elim (fun heq => heq ▸ hmem) id⟩⟩
    have hdec : decide (newItem ∉ xs) = false := by simpa using hmem
    rw [hdec]
    simp only [insertItem, hroot, if_false, hsearch, decide_true, if_true, bind, Except.bind]
    rfl
  · obtain ⟨t', pre, y, post, f, fs, ch, tops, -, heq, -, -, -, -, hxs', h', -⟩ := h.insertItem_absent hroot hmem
    exact ⟨t', tops.reverse, pre ++ ch ++ post, by simpa [hmem] using heq, h', hxs'⟩

end

end NE.BTree
