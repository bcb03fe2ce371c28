import Negentropy.Storage.BTree.Insert

/-! How a node that has become too small and its neighbour share what they hold. -/

namespace NE.BTree

open Heap Levels NodeStore LawfulNodeStore

section
variable {τ : Type} [NodeStore τ] {cfg : Config} [LawfulNodeStore cfg τ] {t : τ} {root id lid rid : ℕ}
  {F G : Multiset (ℕ × Node)} {L R : List (Entry Item)} {cl cr cs : List (Child Item)}

theorem Stores.of_eq (h : Stores cfg t root F) (hFG : F = G) : Stores cfg t root G := hFG ▸ h

theorem segment_pair (L : List (Entry Item)) (d e : Entry Item) (R : List (Entry Item)) :
    segment (nodeOf cfg) 0 (L ++ d :: e :: R) 0 + G =
      (d.id, nodeOf cfg d (lastId 0 L) e.id) ::ₘ (e.id, nodeOf cfg e d.id (headId R 0)) ::ₘ
        (segment (nodeOf cfg) 0 L d.id + segment (nodeOf cfg) e.id R 0 + G) := by
  rw [segment_split, segment_cons, headId_cons, Multiset.cons_add, Multiset.add_cons, Multiset.cons_add]

/-- The keys of two neighbours are all moved into the right one. -/
theorem Stores.moveIntoRight_ok
    (h : Stores cfg t root (segment (nodeOf cfg) 0 (L ++ ⟨lid, cl⟩ :: ⟨rid, cr⟩ :: R) 0 + G))
    (hlen : cl.length + cr.length ≤ cfg.MAX_ITEMS + 1) :
    ∃ t' node, moveIntoRight t lid rid = .ok t' ∧ node.numItems = 0 ∧ node.prevSibling = lastId 0 L ∧
      node.nextSibling = rid ∧
      Stores cfg t' root ((lid, node) ::ₘ (segment (nodeOf cfg) 0 (L ++ ⟨rid, cl ++ cr⟩ :: R) 0 + G)) := by
  rw [segment_pair] at h
  simp only at h
  set leftNode := nodeOf cfg ⟨lid, cl⟩ (lastId 0 L) rid with hleft
  obtain ⟨join, hjoin⟩ : ∃ join : Node → Node, join = fun rightNode =>
    { rightNode with
      items := copyKeys (copyKeys rightNode.items leftNode.numItems rightNode.items 0 rightNode.numItems) 0 leftNode.items 0
        leftNode.numItems
      numItems := rightNode.numItems + leftNode.numItems
      accumCount := rightNode.accumCount + leftNode.accumCount
      accum := rightNode.accum.add leftNode.accum } := ⟨_, rfl⟩
  have hright : join (nodeOf cfg ⟨rid, cr⟩ lid (headId R 0)) = nodeOf cfg ⟨rid, cl ++ cr⟩ lid (headId R 0) := by
    rw [hjoin, hleft]
    apply Node.ext <;> try rfl
    · simp [add_comm]
    · simp [add_comm]
    · simp [Accumulator.add_eq, add_comm]
    · have hfront := @copyKeys_front cfg (cl.map keyOf) (cr.map keyOf) cl.length 0 (by simp) (by simp; omega)
        (by simp; omega)
      simpa [nodeOf] using hfront
  have hread := h.readNode_eq (Multiset.mem_cons_self _ _)
  rw [Multiset.cons_swap] at h
  obtain ⟨t1, h1eq, h1⟩ := h.modify join
  rw [hright] at h1
  replace h1 := h1.of_eq (show _ = segment (nodeOf cfg) 0 L lid +
      ((rid, nodeOf cfg ⟨rid, cl ++ cr⟩ lid (headId R 0)) ::ₘ (lid, leftNode) ::ₘ (segment (nodeOf cfg) rid R 0 + G)) by
    simp only [← Multiset.singleton_add]
    ac_rfl)
  obtain ⟨t2, h2eq, h2⟩ := h1.relink_next rid
  replace h2 := h2.of_eq (show _ = (rid, nodeOf cfg ⟨rid, cl ++ cr⟩ lid (headId R 0)) ::ₘ (lid, leftNode) ::ₘ
      (segment (nodeOf cfg) 0 L rid + segment (nodeOf cfg) rid R 0 + G) by
    simp only [← Multiset.singleton_add]
    ac_rfl)
  obtain ⟨t3, h3eq, h3⟩ := h2.modify fun rightNode => { rightNode with prevSibling := lastId 0 L }
  rw [Multiset.cons_swap] at h3
  obtain ⟨t4, h4eq, h4⟩ := h3.modify fun leftNode => { leftNode with numItems := 0 }
  refine ⟨t4, { leftNode with numItems := 0 }, ?_, rfl, rfl, rfl, h4.of_eq ?_⟩
  · subst hjoin
    simp only [moveIntoRight, hread, bind, Except.bind, h1eq]
    have hprev : leftNode.prevSibling = lastId 0 L := rfl
    have hnext : leftNode.nextSibling = rid := rfl
    by_cases hlast : lastId 0 L = 0
    · rw [if_neg (not_not.mpr hlast)] at h2eq
      cases h2eq
      simp only [hprev, hlast, ne_eq, not_true_eq_false, if_false, pure, Except.pure]
      rw [hlast] at h3eq
      simp only [h3eq, h4eq]
    · rw [if_pos hlast] at h2eq
      simp only [hprev, hnext, hlast, ne_eq, not_false_eq_true, if_true, h2eq, h3eq, h4eq]
  · rw [segment_split, Multiset.cons_add]
    rfl

/-- The keys of two neighbours are all moved into the left one. -/
theorem Stores.moveIntoLeft_ok
    (h : Stores cfg t root (segment (nodeOf cfg) 0 (L ++ ⟨lid, cl⟩ :: ⟨rid, cr⟩ :: R) 0 + G))
    (hlen : cl.length + cr.length ≤ cfg.MAX_ITEMS + 1) :
    ∃ t' node, moveIntoLeft t lid rid = .ok t' ∧ node.numItems = 0 ∧ node.prevSibling = lid ∧
      node.nextSibling = headId R 0 ∧
      Stores cfg t' root ((rid, node) ::ₘ (segment (nodeOf cfg) 0 (L ++ ⟨lid, cl ++ cr⟩ :: R) 0 + G)) := by
  rw [segment_pair] at h
  simp only at h
  set rightNode := nodeOf cfg ⟨rid, cr⟩ lid (headId R 0) with hright
  obtain ⟨join, hjoin⟩ : ∃ join : Node → Node, join = fun leftNode =>
    { leftNode with
      items := copyKeys leftNode.items leftNode.numItems rightNode.items 0 rightNode.numItems
      numItems := leftNode.numItems + rightNode.numItems
      accumCount := leftNode.accumCount + rightNode.accumCount
      accum := leftNode.accum.add rightNode.accum } := ⟨_, rfl⟩
  have hleft : join (nodeOf cfg ⟨lid, cl⟩ (lastId 0 L) rid) = nodeOf cfg ⟨lid, cl ++ cr⟩ (lastId 0 L) rid := by
    rw [hjoin, hright]
    apply Node.ext <;> try rfl
    · simp
    · simp
    · simp [Accumulator.add_eq]
    · have hconcat := @copyKeys_concat cfg (cl.map keyOf) (cr.map keyOf) cr.length (by simp) (by simp; omega) (by simp; omega)
      rw [List.take_of_length_le (by simp)] at hconcat
      simpa [nodeOf] using hconcat
  have hread := h.readNode_eq (Multiset.mem_cons_of_mem (Multiset.mem_cons_self _ _))
  obtain ⟨t1, h1eq, h1⟩ := h.modify join
  rw [hleft] at h1
  replace h1 := h1.of_eq (show _ = segment (nodeOf cfg) rid R 0 +
      ((lid, nodeOf cfg ⟨lid, cl ++ cr⟩ (lastId 0 L) rid) ::ₘ (rid, rightNode) ::ₘ (segment (nodeOf cfg) 0 L lid + G)) by
    simp only [← Multiset.singleton_add]
    ac_rfl)
  obtain ⟨t2, h2eq, h2⟩ := h1.relink_prev lid
  replace h2 := h2.of_eq (show _ = (lid, nodeOf cfg ⟨lid, cl ++ cr⟩ (lastId 0 L) rid) ::ₘ (rid, rightNode) ::ₘ
      (segment (nodeOf cfg) 0 L lid + segment (nodeOf cfg) lid R 0 + G) by
    simp only [← Multiset.singleton_add]
    ac_rfl)
  obtain ⟨t3, h3eq, h3⟩ := h2.modify fun leftNode => { leftNode with nextSibling := headId R 0 }
  rw [Multiset.cons_swap] at h3
  obtain ⟨t4, h4eq, h4⟩ := h3.modify fun rightNode => { rightNode with numItems := 0 }
  refine ⟨t4, { rightNode with numItems := 0 }, ?_, rfl, rfl, rfl, h4.of_eq ?_⟩
  · subst hjoin
    have hprev : rightNode.prevSibling = lid := rfl
    have hnext : rightNode.nextSibling = headId R 0 := rfl
    simp only [moveIntoLeft, hread, bind, Except.bind, h1eq]
    by_cases hlast : headId R 0 = 0
    · rw [if_neg (not_not.mpr hlast)] at h2eq
      cases h2eq
      rw [hlast] at h3eq
      simp only [hnext, hlast, ne_eq, not_true_eq_false, if_false, pure, Except.pure, h3eq, h4eq]
    · rw [if_pos hlast] at h2eq
      simp only [hprev, hnext, hlast, ne_eq, not_false_eq_true, if_true, h2eq, h3eq, h4eq]
  · rw [segment_split, Multiset.cons_add]
    rfl

/-- What two neighbours hold is shared out evenly. The flag says that the right one starts with
another child now. -/
theorem Stores.rebalance_ok
    (h : Stores cfg t root (segment (nodeOf cfg) 0 (L ++ ⟨lid, cl⟩ :: ⟨rid, cr⟩ :: R) 0 + G))
    (hl : cl.length ≤ cfg.MAX_ITEMS) (hr : cr.length ≤ cfg.MAX_ITEMS)
    (hcl : ∀ c ∈ cl, Backed G c) (hcr : ∀ c ∈ cr, Backed G c) :
    ∃ t', rebalance t lid rid = .ok (t', decide ((cl.length + cr.length) / 2 ≤ cr.length)) ∧
      Stores cfg t' root (segment (nodeOf cfg) 0 (L ++ ⟨lid, (cl ++ cr).take ((cl.length + cr.length + 1) / 2)⟩ ::
        ⟨rid, (cl ++ cr).drop ((cl.length + cr.length + 1) / 2)⟩ :: R) 0 + G) := by
  rw [segment_pair] at h ⊢
  simp only at h ⊢
  set leftNode := nodeOf cfg ⟨lid, cl⟩ (lastId 0 L) rid with hleft
  set rightNode := nodeOf cfg ⟨rid, cr⟩ lid (headId R 0) with hright
  have hreadl := h.readNode_eq (Multiset.mem_cons_self _ _)
  have hreadr := h.readNode_eq (Multiset.mem_cons_of_mem (Multiset.mem_cons_self _ _))
  have hmono : ∀ c, Backed G c → Backed ((lid, leftNode) ::ₘ (rid, rightNode) ::ₘ
      (segment (nodeOf cfg) 0 L lid + segment (nodeOf cfg) rid R 0 + G)) c :=
    fun c hc => hc.mono fun x hx => by simp [hx]
  have hnuml : leftNode.numItems = cl.length := by simp [hleft]
  have hnumr : rightNode.numItems = cr.length := by simp [hright]
  have hitemsl : leftNode.items = pad cfg (cl.map keyOf) := rfl
  have hitemsr : rightNode.items = pad cfg (cr.map keyOf) := rfl
  have hsum : ∀ cs : List (Child Item), (∀ c ∈ cs, Backed G c) → sumKeys t (cs.map keyOf) (Accumulator.setToZero, 0) =
      .ok (Accumulator.sum (items cs), (items cs).length) := by
    intro cs hcs
    rw [h.sumKeys_eq (points_map cs) fun c hc => hmono c (hcs c hc)]
    simp [Accumulator.setToZero_eq]
  generalize hn : (cl.length + cr.length + 1) / 2 = numLeft
  have hhalf : cl.length + cr.length - numLeft = (cl.length + cr.length) / 2 := by omega
  simp only [rebalance, hreadl, hreadr, bind, Except.bind, hnuml, hnumr, hn, hhalf, ge_iff_le]
  by_cases hmove : (cl.length + cr.length) / 2 ≤ cr.length
  · -- from right to left
    obtain ⟨m, hm⟩ : ∃ m, cr.length - (cl.length + cr.length) / 2 = m := ⟨_, rfl⟩
    have hmoved : rightNode.items.take m = (cr.take m).map keyOf := by
      rw [hitemsr, pad, List.take_append_of_le_length (by simp; omega), List.map_take]
    have htake : (cl ++ cr).take numLeft = cl ++ cr.take m := by
      rw [List.take_append, List.take_of_length_le (by omega), show numLeft - cl.length = m by omega]
    have hdrop : (cl ++ cr).drop numLeft = cr.drop m := by
      rw [List.drop_append, List.drop_eq_nil_of_le (by omega), show numLeft - cl.length = m by omega, List.nil_append]
    have hsplit : items cr = items (cr.take m) ++ items (cr.drop m) := by
      rw [← items_append, List.take_append_drop]
    simp only [hmove, if_true, hm, hmoved, hsum (cr.take m) fun c hc => hcr c (List.mem_of_mem_take hc)]
    have h1 := h.write (nodeOf cfg ⟨lid, (cl ++ cr).take numLeft⟩ (lastId 0 L) rid)
    rw [Multiset.cons_swap] at h1
    have h2 := h1.write (nodeOf cfg ⟨rid, (cl ++ cr).drop numLeft⟩ lid (headId R 0))
    rw [Multiset.cons_swap] at h2
    refine ⟨_, ?_, h2⟩
    rw [decide_true]
    refine congrArg₂ (fun a b => Except.ok (writeNode (writeNode t lid a) rid b, true)) ?_ ?_ <;>
      apply Node.ext <;> try rfl
    · simp
      omega
    · simp [htake, hleft]
    · simp [htake, hleft, Accumulator.add_eq]
    · have hconcat := @copyKeys_concat cfg (cl.map keyOf) (cr.map keyOf) m (by simp; omega) (by simp; omega) (by simp; omega)
      simpa [htake, nodeOf, hitemsl, hitemsr] using hconcat
    · simp
      omega
    · simp [hdrop, hright, hsplit]
    · simp [hdrop, hright, hsplit, Accumulator.sub_eq]
    · have hzero := @zeroKeys_drop cfg (cr.map keyOf) m (by simp; omega) (by simp; omega)
      rw [List.length_map, show cr.length - m = (cl.length + cr.length) / 2 by omega] at hzero
      simpa [hdrop, nodeOf, hitemsr, show cr.length - m = (cl.length + cr.length) / 2 by omega] using hzero
  · -- from left to right
    obtain ⟨m, hm⟩ : ∃ m, cl.length - numLeft = m := ⟨_, rfl⟩
    have hmoved : (leftNode.items.drop numLeft).take m = (cl.drop numLeft).map keyOf := by
      rw [hitemsl, pad, List.drop_append_of_le_length (by simp; omega), List.take_append_of_le_length (by simp; omega),
        ← List.map_drop, List.take_of_length_le (by simp; omega)]
    have htake : (cl ++ cr).take numLeft = cl.take numLeft := List.take_append_of_le_length (by omega)
    have hdrop : (cl ++ cr).drop numLeft = cl.drop numLeft ++ cr := List.drop_append_of_le_length (by omega)
    have hsplit : items cl = items (cl.take numLeft) ++ items (cl.drop numLeft) := by
      rw [← items_append, List.take_append_drop]
    simp only [hmove, if_false, hm, hmoved, hsum (cl.drop numLeft) fun c hc => hcl c (List.mem_of_mem_drop hc)]
    rw [Multiset.cons_swap] at h
    have h1 := h.write (nodeOf cfg ⟨rid, (cl ++ cr).drop numLeft⟩ lid (headId R 0))
    rw [Multiset.cons_swap] at h1
    have h2 := h1.write (nodeOf cfg ⟨lid, (cl ++ cr).take numLeft⟩ (lastId 0 L) rid)
    refine ⟨_, ?_, h2⟩
    rw [decide_false]
    refine congrArg₂ (fun a b => Except.ok (writeNode (writeNode t rid a) lid b, false)) ?_ ?_ <;>
      apply Node.ext <;> try rfl
    · simp
      omega
    · simp [hdrop, hright, add_comm]
    · simp [hdrop, hright, Accumulator.add_eq, add_comm]
    · have hfront := @copyKeys_front cfg (cl.map keyOf) (cr.map keyOf) m numLeft (by simp; omega) (by simp; omega)
        (by simp; omega)
      simpa [hdrop, nodeOf, hitemsl, hitemsr] using hfront
    · simp
      omega
    · simp [htake, hleft, hsplit]
    · simp [htake, hleft, hsplit, Accumulator.sub_eq]
    · have hzero := @zeroKeys_take cfg (cl.map keyOf) numLeft (by simp; omega) (by simp; omega)
      simpa [htake, nodeOf, hitemsl] using hzero

/-- A node without keys is taken out of its level. -/
theorem Stores.dropEmpty_ok {node : Node} {a b : ℕ}
    (h : Stores cfg t root ((id, node) ::ₘ (segment (nodeOf cfg) 0 L a + segment (nodeOf cfg) b R 0 + G)))
    (hnum : node.numItems = 0) (hprev : node.prevSibling = lastId 0 L) (hnext : node.nextSibling = headId R 0) :
    ∃ t', dropEmpty t id = .ok (t', true) ∧ Stores cfg t' root (segment (nodeOf cfg) 0 (L ++ R) 0 + G) := by
  have hread := h.readNode_eq (Multiset.mem_cons_self _ _)
  replace h := h.of_eq (show _ = segment (nodeOf cfg) 0 L a + ((id, node) ::ₘ (segment (nodeOf cfg) b R 0 + G)) by
    simp only [← Multiset.singleton_add]
    ac_rfl)
  obtain ⟨t1, h1eq, h1⟩ := h.relink_next (headId R 0)
  replace h1 := h1.of_eq (show _ = segment (nodeOf cfg) b R 0 +
      ((id, node) ::ₘ (segment (nodeOf cfg) 0 L (headId R 0) + G)) by
    simp only [← Multiset.singleton_add]
    ac_rfl)
  obtain ⟨t2, h2eq, h2⟩ := h1.relink_prev (lastId 0 L)
  rw [Multiset.add_cons] at h2
  obtain ⟨t3, h3eq, h3⟩ := h2.delete
  refine ⟨t3, ?_, h3.of_eq ?_⟩
  · simp only [dropEmpty, hread, hnum, hprev, hnext, bind, Except.bind, if_true]
    by_cases hl : lastId 0 L = 0 <;> by_cases hr : headId R 0 = 0 <;>
      simp only [hl, hr, ne_eq, not_true_eq_false, not_false_eq_true, if_true, if_false] at h1eq h2eq ⊢
    · cases h1eq
      cases h2eq
      simp only [pure, Except.pure, h3eq]
    · cases h1eq
      simp only [pure, Except.pure, h2eq, h3eq]
    · cases h2eq
      simp only [pure, Except.pure, h1eq, h3eq]
    · simp only [pure, Except.pure, h1eq, h2eq, h3eq]
  · rw [segment_append]
    ac_rfl

theorem Stores.dropEmpty_keep {node : Node} (h : Stores cfg t root F) (hmem : (id, node) ∈ F) (hnum : node.numItems ≠ 0) :
    dropEmpty t id = .ok (t, false) := by
  simp only [dropEmpty, h.readNode_eq hmem, bind, Except.bind, hnum, if_false]
  rfl

end

end NE.BTree
