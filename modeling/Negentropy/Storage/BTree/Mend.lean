import Negentropy.Storage.BTree.Rebalance

/-! What one breadcrumb of `eraseItem` does to its level: the keys of the node first, then the
node is merged with a neighbour, shares with it, or goes. -/

namespace NE.BTree

open Heap Levels NodeStore LawfulNodeStore

/-- The keys of a node once the key at `i` is out. -/
def removedKeys (ks : List Key) (i : ℕ) (needsRemove : Bool) : List Key := if needsRemove then ks.eraseIdx i else ks

/-- What the flags promise of the children `cs` that stand where `c` was: with its key out if
need be, only the key at its place, and maybe the next one, have to be refreshed. -/
structure Shrunk (before : List (Child Item)) (c : Child Item) (after cs : List (Child Item))
    (needsRemove neighbourRefresh : Bool) : Prop where
  stale : Stale (fun j => j = before.length ∨ neighbourRefresh = true ∧ j = before.length + 1)
    (removedKeys ((before ++ c :: after).map keyOf) before.length needsRemove) cs
  neighbour : neighbourRefresh = true → before.length + 1 < cs.length

/-- The old item was under these children, and now it is not. -/
def Erased (oldItem : Item) (cs cs' : List (Child Item)) : Prop :=
  ∃ xs ys, items cs = xs ++ oldItem :: ys ∧ items cs' = xs ++ ys

section
variable {before after cs b : List (Child Item)} {c d c' d' : Child Item} {oldItem : Item}

theorem Shrunk.length_eq {needsRemove neighbourRefresh : Bool} (h : Shrunk before c after cs needsRemove neighbourRefresh) :
    cs.length + (if needsRemove then 1 else 0) = (before ++ c :: after).length := by
  have hlen := h.stale.length_eq
  cases needsRemove with
  | false => simpa [removedKeys] using hlen.symm
  | true =>
    rw [removedKeys, if_pos rfl, List.length_eraseIdx_of_lt (by simp)] at hlen
    simp at hlen ⊢
    omega

theorem shrunk_kept (h : Points (keyOf c) c') : Shrunk before c after (before ++ c' :: after) false false where
  stale := (stale_replace h).mono fun _ hj => Or.inl hj
  neighbour := by simp

theorem removedKeys_self : removedKeys ((before ++ c :: after).map keyOf) before.length true = (before ++ after).map keyOf := by
  rw [removedKeys, if_pos rfl, List.map_append, List.map_cons, List.eraseIdx_append_of_length_le (by simp)]
  simp

theorem shrunk_removed : Shrunk before c after (before ++ after) true false where
  stale := by
    rw [removedKeys_self]
    exact stale_map _ _
  neighbour := by simp

theorem shrunk_right (h : Points (keyOf d) d') : Shrunk [] c (d :: after) (d' :: after) true false where
  stale := by
    rw [removedKeys_self]
    exact (show Stale (· = ([] : List (Child Item)).length) _ _ from stale_replace h).mono fun _ hj => Or.inl hj
  neighbour := by simp

theorem shrunk_left (h : keyOf d' = keyOf d) : Shrunk (b ++ [d]) c after (b ++ d' :: after) true false where
  stale := by
    rw [removedKeys_self]
    have hmap : (b ++ [d] ++ after).map keyOf = (b ++ d' :: after).map keyOf := by simp [h]
    rw [hmap]
    exact stale_map _ _
  neighbour := by simp

theorem shrunk_shared_right (hc : Points (keyOf c) c') (hd : Points (keyOf d) d') :
    Shrunk [] c (d :: after) (c' :: d' :: after) false true where
  stale := by
    refine ⟨List.Forall₂.cons hc (List.Forall₂.cons hd (points_map after)), fun j hj => ?_⟩
    simp only [List.length_nil, true_and, not_or, zero_add] at hj
    obtain ⟨j, rfl⟩ : ∃ k, j = k + 2 := ⟨j - 2, by omega⟩
    rfl
  neighbour := by simp

theorem shrunk_shared_left (hc : Points (keyOf c) c') (hd : keyOf d' = keyOf d) :
    Shrunk (b ++ [d]) c after (b ++ d' :: c' :: after) false false where
  stale := by
    have hstale := @stale_replace (b ++ [d']) after c c' hc
    have hmap : (b ++ [d] ++ c :: after).map keyOf = (b ++ [d'] ++ c :: after).map keyOf := by simp [hd]
    rw [removedKeys, if_neg Bool.false_ne_true, hmap]
    simpa using hstale
  neighbour := by simp

end

/-! ### The node and its neighbours -/

/-- A level whose only entry has two children at least. -/
def Thick (L : List (Entry Item)) : Prop := ∀ e, L = [e] → 2 ≤ e.children.length

/-- `ms` stands where the children of one parent, `lb ++ e :: ra`, were in their level, now that
`e` has the children `cs`. -/
structure Mended (cfg : Config) (l0 lb : List (Entry Item)) (e : Entry Item) (ra r0 : List (Entry Item))
    (cs : List (Child Item)) (ms : List (Entry Item)) (needsRemove neighbourRefresh : Bool) : Prop where
  children_eq : children ms = children lb ++ cs ++ children ra
  fits : Fits cfg.MIN_ITEMS cfg.MAX_ITEMS (l0 ++ ms ++ r0)
  shrunk : Shrunk (lb.map Entry.toChild) e.toChild (ra.map Entry.toChild) (ms.map Entry.toChild) needsRemove neighbourRefresh
  thick : 2 ≤ (l0 ++ (lb ++ e :: ra) ++ r0).length → Thick (l0 ++ ms ++ r0)

section
variable {cfg : Config} {l0 lb ra r0 : List (Entry Item)} {d e : Entry Item} {cs : List (Child Item)} {m : ℕ}

theorem thick_of_length {L : List (Entry Item)} (h : 2 ≤ L.length) : Thick L := by
  rintro e rfl
  simp at h

theorem points_of_id {c c' : Child Item} (h : c'.id = c.id) (hc : c.id ≠ 0) : Points (keyOf c) c' :=
  ⟨h.symm, fun h0 => absurd (h.symm.trans h0) hc⟩

/-- An entry that keeps its first child keeps its first item. -/
theorem keyOf_prefix {ds : List (Child Item)} (hd : d.children ≠ []) (hne : ∀ c ∈ d.children, c.below ≠ [])
    (h : ds.head? = d.children.head?) : keyOf (Entry.toChild ⟨d.id, ds⟩) = keyOf d.toChild := by
  obtain ⟨c, cs, hc⟩ := List.exists_cons_of_ne_nil hd
  obtain ⟨ds, rfl⟩ : ∃ ds', ds = c :: ds' := by
    rw [hc, List.head?_cons, List.head?_eq_some_iff] at h
    exact h
  have hcne := hne c (by simp [hc])
  exact Key.ext ((firstOf_toChild rfl hcne).trans (firstOf_toChild hc hcne).symm) rfl

theorem mended_kept (hfits : Fits cfg.MIN_ITEMS cfg.MAX_ITEMS (l0 ++ (lb ++ e :: ra) ++ r0)) (hid : e.id ≠ 0) (hcs : cs ≠ [])
    (hle : cs.length ≤ e.children.length) (hmin : cfg.MIN_ITEMS ≤ cs.length ∨ ra ++ r0 = []) :
    Mended cfg l0 lb e ra r0 cs (lb ++ ⟨e.id, cs⟩ :: ra) false false where
  children_eq := by simp
  fits := by
    have hfits' : Fits cfg.MIN_ITEMS cfg.MAX_ITEMS ((l0 ++ lb) ++ e :: (ra ++ r0)) := by simpa using hfits
    obtain ⟨-, hmax, -⟩ := hfits'.mid
    have hnew := hfits'.replace (fits_cons.mpr ⟨hcs, hle.trans hmax, by simp, fits_nil⟩ : Fits _ _ [(⟨e.id, cs⟩ : Entry Item)])
      fun hright d hd => by
        obtain rfl := List.mem_singleton.mp hd
        exact hmin.resolve_right hright
    simpa using hnew
  shrunk := by
    have hkept := @shrunk_kept (lb.map Entry.toChild) (ra.map Entry.toChild) e.toChild (Entry.toChild ⟨e.id, cs⟩)
      (points_of_id rfl hid)
    simpa using hkept
  thick hlen := thick_of_length (by simpa using hlen)

theorem mended_removed (hfits : Fits cfg.MIN_ITEMS cfg.MAX_ITEMS (l0 ++ [e])) : Mended cfg l0 [] e [] [] [] [] true false where
  children_eq := by simp
  fits := by simpa using hfits.left
  shrunk := shrunk_removed
  thick hlen := by
    rintro d hd
    simp only [List.append_nil] at hd
    subst hd
    have hmin := ((fits_append (by simp)).mp hfits).1 d (by simp)
    exact cfg.two_le_min.trans hmin.2.1

theorem mended_right (hfits : Fits cfg.MIN_ITEMS cfg.MAX_ITEMS (l0 ++ ([] ++ e :: d :: ra) ++ r0)) (hid : d.id ≠ 0)
    (hlen : e.children.length ≤ cs.length + 1) (htotal : cs.length + d.children.length ≤ cfg.REBALANCE_THRESHOLD) :
    Mended cfg l0 [] e (d :: ra) r0 cs (⟨d.id, cs ++ d.children⟩ :: ra) true false := by
  have hfits' : Fits cfg.MIN_ITEMS cfg.MAX_ITEMS (l0 ++ e :: ([] ++ d :: (ra ++ r0))) := by simpa using hfits
  obtain ⟨-, -, hemin⟩ := hfits'.mid
  obtain ⟨hleft, htail⟩ := (fits_append (List.cons_ne_nil e _)).mp hfits'
  obtain ⟨-, -, -, htail⟩ := fits_cons.mp htail
  obtain ⟨hdne, -, hdmin, htail⟩ := fits_cons.mp htail
  have hemin := hemin (by simp)
  have hdpos := List.length_pos_iff.mpr hdne
  have h2 := cfg.two_le_min
  have hlt := cfg.rebalance_lt_max
  refine ⟨by simp, ?_, ?_, fun _ f hf => ?_⟩
  · have hnew : Fits cfg.MIN_ITEMS cfg.MAX_ITEMS ((⟨d.id, cs ++ d.children⟩ : Entry Item) :: (ra ++ r0)) := by
      refine fits_cons.mpr ⟨by simp [hdne], by simp; omega, fun hne => ?_, htail⟩
      have hd := hdmin hne
      simp
      omega
    simpa using (fits_append (by simp)).mpr ⟨hleft, hnew⟩
  · exact shrunk_right (points_of_id rfl hid)
  · have hlen' := congrArg List.length hf
    simp at hlen'
    obtain ⟨rfl, rfl, rfl⟩ : l0 = [] ∧ ra = [] ∧ r0 = [] := by
      refine ⟨?_, ?_, ?_⟩ <;> apply List.eq_nil_of_length_eq_zero <;> omega
    simp at hf
    subst hf
    simp
    omega

theorem mended_left (hfits : Fits cfg.MIN_ITEMS cfg.MAX_ITEMS (l0 ++ (lb ++ [d] ++ e :: ra) ++ r0))
    (hne : ∀ c ∈ d.children, c.below ≠ []) (htotal : d.children.length + cs.length ≤ cfg.REBALANCE_THRESHOLD) :
    Mended cfg l0 (lb ++ [d]) e ra r0 cs (lb ++ ⟨d.id, d.children ++ cs⟩ :: ra) true false := by
  have hfits' : Fits cfg.MIN_ITEMS cfg.MAX_ITEMS ((l0 ++ lb) ++ d :: ([e] ++ (ra ++ r0))) := by simpa using hfits
  obtain ⟨hdne, -, hdmin⟩ := hfits'.mid
  have hdmin := hdmin (by simp)
  have h2 := cfg.two_le_min
  have hlt := cfg.rebalance_lt_max
  refine ⟨by simp, ?_, ?_, fun _ f hf => ?_⟩
  · have hnew : Fits cfg.MIN_ITEMS cfg.MAX_ITEMS [(⟨d.id, d.children ++ cs⟩ : Entry Item)] :=
      fits_cons.mpr ⟨by simp [hdne], by simp; omega, by simp, fits_nil⟩
    simpa using hfits'.splice hnew fun _ f hf => by
      obtain rfl := List.mem_singleton.mp hf
      simp
      omega
  · have hkey : keyOf (Entry.toChild ⟨d.id, d.children ++ cs⟩) = keyOf d.toChild :=
      keyOf_prefix hdne hne (List.head?_append_of_ne_nil _ hdne)
    simpa using @shrunk_left (ra.map Entry.toChild) (lb.map Entry.toChild) e.toChild d.toChild _ hkey
  · have hmem : (⟨d.id, d.children ++ cs⟩ : Entry Item) ∈ [f] := by
      rw [← hf]
      simp
    obtain rfl := List.mem_singleton.mp hmem
    simp
    omega

/-- Both halves of what two neighbours hold are large enough. -/
theorem half_bounds (htotal : cfg.REBALANCE_THRESHOLD < m) (hmax : m ≤ cfg.MIN_ITEMS + cfg.MAX_ITEMS) :
    cfg.MIN_ITEMS ≤ (m + 1) / 2 ∧ (m + 1) / 2 ≤ cfg.MAX_ITEMS ∧ cfg.MIN_ITEMS ≤ m - (m + 1) / 2 ∧
      m - (m + 1) / 2 ≤ cfg.MAX_ITEMS := by
  have h1 := cfg.min_lt_half_max
  have h2 := cfg.twice_min_le
  omega

/-- Two entries that are large enough. -/
theorem fits_pair {e d : Entry Item} (he : cfg.MIN_ITEMS ≤ e.children.length ∧ e.children.length ≤ cfg.MAX_ITEMS)
    (hd : cfg.MIN_ITEMS ≤ d.children.length ∧ d.children.length ≤ cfg.MAX_ITEMS) : Fits cfg.MIN_ITEMS cfg.MAX_ITEMS [e, d] := by
  have h2 := cfg.two_le_min
  refine fits_cons.mpr ⟨?_, he.2, fun _ => he.1, fits_cons.mpr ⟨?_, hd.2, by simp, fits_nil⟩⟩ <;>
    rw [← List.length_pos_iff] <;> omega

theorem mended_shared_right (hfits : Fits cfg.MIN_ITEMS cfg.MAX_ITEMS (l0 ++ ([] ++ e :: d :: ra) ++ r0)) (heid : e.id ≠ 0)
    (hdid : d.id ≠ 0) (hm : cs.length + d.children.length = m) (htotal : cfg.REBALANCE_THRESHOLD < m)
    (hsmall : cs.length ≤ cfg.MIN_ITEMS) :
    Mended cfg l0 [] e (d :: ra) r0 cs
      (⟨e.id, (cs ++ d.children).take ((m + 1) / 2)⟩ :: ⟨d.id, (cs ++ d.children).drop ((m + 1) / 2)⟩ :: ra) false true := by
  have hfits' : Fits cfg.MIN_ITEMS cfg.MAX_ITEMS (l0 ++ e :: ([d] ++ (ra ++ r0))) := by simpa using hfits
  have hdmax := hfits.le d (by simp)
  obtain ⟨h1, h2, h3, h4⟩ := half_bounds htotal (by omega)
  refine ⟨?_, ?_, ?_, fun _ => thick_of_length (by simp; omega)⟩
  · rw [children_cons, children_cons, ← List.append_assoc, List.take_append_drop, List.append_assoc]
    rfl
  · have hnew := @fits_pair cfg ⟨e.id, (cs ++ d.children).take ((m + 1) / 2)⟩ ⟨d.id, (cs ++ d.children).drop ((m + 1) / 2)⟩
      (by simp; omega) (by simp; omega)
    simpa using hfits'.splice hnew fun _ f hf => by
      rcases List.mem_pair.mp hf with rfl | rfl <;> simp <;> omega
  · exact shrunk_shared_right (points_of_id rfl heid) (points_of_id rfl hdid)

theorem mended_shared_left (hfits : Fits cfg.MIN_ITEMS cfg.MAX_ITEMS (l0 ++ (lb ++ [d] ++ e :: ra) ++ r0)) (heid : e.id ≠ 0)
    (hne : ∀ c ∈ d.children, c.below ≠ []) (hm : d.children.length + cs.length = m) (htotal : cfg.REBALANCE_THRESHOLD < m)
    (hsmall : cs.length ≤ cfg.MIN_ITEMS) :
    Mended cfg l0 (lb ++ [d]) e ra r0 cs
      (lb ++ ⟨d.id, (d.children ++ cs).take ((m + 1) / 2)⟩ :: ⟨e.id, (d.children ++ cs).drop ((m + 1) / 2)⟩ :: ra)
      false false := by
  have hfits' : Fits cfg.MIN_ITEMS cfg.MAX_ITEMS ((l0 ++ lb) ++ d :: ([e] ++ (ra ++ r0))) := by simpa using hfits
  obtain ⟨hdne, hdmax, -⟩ := hfits'.mid
  obtain ⟨h1, h2, h3, h4⟩ := half_bounds htotal (by omega)
  refine ⟨?_, ?_, ?_, fun _ => thick_of_length (by simp; omega)⟩
  · simp only [children_cons, children_append, children_nil, List.append_nil, List.append_assoc]
    rw [← List.append_assoc (List.take _ _), List.take_append_drop, List.append_assoc]
  · have hnew := @fits_pair cfg ⟨d.id, (d.children ++ cs).take ((m + 1) / 2)⟩ ⟨e.id, (d.children ++ cs).drop ((m + 1) / 2)⟩
      (by simp; omega) (by simp; omega)
    simpa using hfits'.splice hnew fun _ f hf => by
      rcases List.mem_pair.mp hf with rfl | rfl <;> simp <;> omega
  · have hkey : keyOf (Entry.toChild ⟨d.id, (d.children ++ cs).take ((m + 1) / 2)⟩) = keyOf d.toChild := by
      refine keyOf_prefix hdne hne ?_
      rw [List.head?_take, if_neg (by omega), List.head?_append_of_ne_nil _ hdne]
    have hpoints := @points_of_id e.toChild (Entry.toChild ⟨e.id, (d.children ++ cs).drop ((m + 1) / 2)⟩) rfl heid
    simpa using @shrunk_shared_left (ra.map Entry.toChild) (lb.map Entry.toChild) e.toChild d.toChild _ _ hpoints hkey

/-- What becomes of a node under the id `id` that has the children `cs` now, between its neighbours `lb` and `ra` under the
same parent. -/
inductive Repair (cfg : Config) (id : ℕ) (cs : List (Child Item)) :
    List (Entry Item) → List (Entry Item) → List (Entry Item) → Bool → Bool → Prop where
  | kept {lb ra : List (Entry Item)} : cs ≠ [] → (cfg.MIN_ITEMS ≤ cs.length ∨ lb ++ ra = []) →
      Repair cfg id cs lb ra (lb ++ ⟨id, cs⟩ :: ra) false false
  | gone : cs = [] → Repair cfg id cs [] [] [] true false
  | intoRight {d : Entry Item} {ra : List (Entry Item)} : cs.length < cfg.MIN_ITEMS →
      cs.length + d.children.length ≤ cfg.REBALANCE_THRESHOLD →
      Repair cfg id cs [] (d :: ra) (⟨d.id, cs ++ d.children⟩ :: ra) true false
  | intoLeft {d : Entry Item} {lb ra : List (Entry Item)} : cs.length < cfg.MIN_ITEMS →
      d.children.length + cs.length ≤ cfg.REBALANCE_THRESHOLD →
      Repair cfg id cs (lb ++ [d]) ra (lb ++ ⟨d.id, d.children ++ cs⟩ :: ra) true false
  | shareRight {d : Entry Item} {ra : List (Entry Item)} {m : ℕ} : cs.length < cfg.MIN_ITEMS →
      cs.length + d.children.length = m → cfg.REBALANCE_THRESHOLD < m →
      Repair cfg id cs [] (d :: ra)
        (⟨id, (cs ++ d.children).take ((m + 1) / 2)⟩ :: ⟨d.id, (cs ++ d.children).drop ((m + 1) / 2)⟩ :: ra) false true
  | shareLeft {d : Entry Item} {lb ra : List (Entry Item)} {m : ℕ} : cs.length < cfg.MIN_ITEMS →
      d.children.length + cs.length = m → cfg.REBALANCE_THRESHOLD < m →
      Repair cfg id cs (lb ++ [d]) ra
        (lb ++ ⟨d.id, (d.children ++ cs).take ((m + 1) / 2)⟩ :: ⟨id, (d.children ++ cs).drop ((m + 1) / 2)⟩ :: ra) false false

/-- In any case the level is mended. -/
theorem Repair.mended {ms : List (Entry Item)} {needsRemove neighbourRefresh : Bool}
    (h : Repair cfg e.id cs lb ra ms needsRemove neighbourRefresh)
    (hfits : Fits cfg.MIN_ITEMS cfg.MAX_ITEMS (l0 ++ (lb ++ e :: ra) ++ r0)) (hids : ∀ d ∈ lb ++ e :: ra, d.id ≠ 0)
    (hlast : lb ++ ra = [] → r0 = []) (hle : cs.length ≤ e.children.length) (hlen : e.children.length ≤ cs.length + 1)
    (hne : ∀ c ∈ children lb, c.below ≠ []) : Mended cfg l0 lb e ra r0 cs ms needsRemove neighbourRefresh := by
  have heid := hids e (by simp)
  cases h with
  | kept hcs hmin =>
    refine mended_kept hfits heid hcs hle (hmin.imp_right fun halone => ?_)
    rw [hlast halone, List.append_nil]
    exact (List.append_eq_nil_iff.mp halone).2
  | gone hcs =>
    subst hcs
    obtain rfl := hlast rfl
    exact mended_removed (by simpa using hfits)
  | intoRight hsmall htotal => exact mended_right hfits (hids _ (by simp)) hlen htotal
  | intoLeft hsmall htotal => exact mended_left hfits (fun c hc => hne c (by simp [hc])) htotal
  | shareRight hsmall hm htotal => exact mended_shared_right hfits heid (hids _ (by simp)) hm htotal hsmall.le
  | shareLeft hsmall hm htotal => exact mended_shared_left hfits heid (fun c hc => hne c (by simp [hc])) hm htotal hsmall.le

end

/-! ### The keys of a node -/

section
variable {τ : Type} [NodeStore τ] {cfg : Config} [LawfulNodeStore cfg τ] {t : τ} {root id p n : ℕ} {F G : Multiset (ℕ × Node)}
  {oldItem : Item} {ks : List Key} {cs before after : List (Child Item)} {c : Child Item} {below : List Item}

theorem Stores.refreshIf_ok {q : Prop} [Decidable q] {I : ℕ → Prop} {j : ℕ}
    (h : Stores cfg t root ((id, mkNode cfg ks below p n) ::ₘ F)) (hks : Stale I ks cs) (hcs : ∀ c ∈ cs, Backed F c)
    (hj : q → j < cs.length) :
    ∃ t' ks', (if q then refreshIndex t id j else pure t) = .ok t' ∧
      Stores cfg t' root ((id, mkNode cfg ks' below p n) ::ₘ F) ∧ Stale (fun i => I i ∧ ¬ (q ∧ i = j)) ks' cs := by
  by_cases hq : q
  · obtain ⟨t', heq, h'⟩ := h.refreshIndex_ok hks hcs (hj hq)
    exact ⟨t', _, by rw [if_pos hq, heq], h', (hks.set (hj hq)).mono fun i hi => ⟨hi.1, fun h => hi.2 h.2⟩⟩
  · exact ⟨t, ks, by rw [if_neg hq]; rfl, h, hks.mono fun i hi => ⟨hi, fun h => hq h.1⟩⟩

theorem sum_erased {xs ys : List Item} :
    Accumulator.sum (xs ++ oldItem :: ys) - Accumulator.ofItem oldItem = Accumulator.sum (xs ++ ys) := by
  simp only [Accumulator.sum_append, Accumulator.sum_cons]
  rw [sub_eq_iff_eq_add, add_assoc, add_comm (Accumulator.ofItem oldItem)]

/-- What a breadcrumb does first: the keys, the sums and the count of its node are put right. -/
def eraseKeys (oldItem : Item) (st : EraseState τ) (crumb : Breadcrumb) : Except Err τ := do
  let t ← modifyNode st.store crumb.nodeId fun node =>
    if st.needsRemove then removeKey oldItem crumb.index node
    else { node with accum := node.accum.subItem oldItem, accumCount := node.accumCount - 1 }
  let node ← readNode t crumb.nodeId
  let t ← if crumb.index < node.numItems then refreshIndex t crumb.nodeId crumb.index else pure t
  if st.neighbourRefreshNeeded then refreshIndex t crumb.nodeId (crumb.index + 1) else pure t

/-- What it does then. -/
def eraseRest (cfg : Config) (t : τ) (nodeId : ℕ) (breadcrumbs : List Breadcrumb) : Except Err (EraseState τ) := do
  let (t, neighbourRefreshNeeded) ←
    match breadcrumbs with
    | [] => pure (t, false)
    | parent :: _ => fixUnderflow cfg t nodeId parent
  let (t, needsRemove) ← dropEmpty t nodeId
  return { store := t, needsRemove, neighbourRefreshNeeded }

theorem eraseStep_eq (cfg : Config) (oldItem : Item) (st : EraseState τ) (crumb : Breadcrumb) (breadcrumbs : List Breadcrumb) :
    eraseStep cfg oldItem st crumb breadcrumbs =
      eraseKeys oldItem st crumb >>= fun t => eraseRest cfg t crumb.nodeId breadcrumbs := by
  rw [eraseStep, eraseKeys, bind_assoc]
  refine bind_congr fun t => ?_
  rw [bind_assoc]
  refine bind_congr fun node => ?_
  cases breadcrumbs <;> split_ifs <;> simp only [eraseRest, bind_assoc, pure_bind]

theorem Stores.eraseKeys_ok {st : EraseState τ}
    (h : Stores cfg st.store root ((id, nodeOf cfg ⟨id, before ++ c :: after⟩ p n) ::ₘ F))
    (hle : (before ++ c :: after).length ≤ cfg.MAX_ITEMS)
    (hsh : Shrunk before c after cs st.needsRemove st.neighbourRefreshNeeded)
    (her : Erased oldItem (before ++ c :: after) cs) (hcs : ∀ c ∈ cs, Backed F c) :
    ∃ t', eraseKeys oldItem st ⟨before.length, id⟩ = .ok t' ∧
      Stores cfg t' root ((id, nodeOf cfg ⟨id, cs⟩ p n) ::ₘ F) := by
  obtain ⟨t, needsRemove, neighbourRefresh⟩ := st
  obtain ⟨xs, ys, hold, hnew⟩ := her
  simp only at h hsh
  obtain ⟨edit, hedit⟩ : ∃ edit : Node → Node, edit = fun node =>
      if needsRemove then removeKey oldItem before.length node
      else { node with accum := node.accum.subItem oldItem, accumCount := node.accumCount - 1 } := ⟨_, rfl⟩
  have hnode : edit (nodeOf cfg ⟨id, before ++ c :: after⟩ p n) =
      mkNode cfg (removedKeys ((before ++ c :: after).map keyOf) before.length needsRemove) (items cs) p n := by
    have hcount : (items (before ++ c :: after)).length - 1 = (items cs).length := by
      rw [hold, hnew]
      simp
    have hsum : (Accumulator.sum (items (before ++ c :: after))).subItem oldItem = Accumulator.sum (items cs) := by
      rw [hold, hnew, Accumulator.subItem_eq, sum_erased]
    have hlen := hsh.length_eq
    rw [hedit]
    cases needsRemove with
    | false =>
      apply Node.ext <;> try rfl
      · exact hcount
      · exact hsum
    | true =>
      have hidx : before.length < ((before ++ c :: after).map keyOf).length := by simp
      have hpad := @erase_pad cfg ((before ++ c :: after).map keyOf) before.length hidx (by simp at hle ⊢; omega)
      apply Node.ext <;> try rfl
      · simp [removeKey, removedKeys, List.length_eraseIdx]
      · exact hcount
      · exact hsum
      · simpa [removeKey, removedKeys, nodeOf] using hpad
  obtain ⟨t1, h1eq, h1⟩ := h.modify edit
  rw [hnode] at h1
  have hread := h1.readNode_eq (Multiset.mem_cons_self _ _)
  have hlen := hsh.stale.length_eq
  obtain ⟨t2, ks2, h2eq, h2, hks2⟩ := h1.refreshIf_ok hsh.stale hcs (fun hq : before.length < cs.length => hq)
  obtain ⟨t3, ks3, h3eq, h3, hks3⟩ := h2.refreshIf_ok hks2 hcs hsh.neighbour
  refine ⟨t3, ?_, ?_⟩
  · subst hedit
    have hnum : (mkNode cfg (removedKeys ((before ++ c :: after).map keyOf) before.length needsRemove) (items cs) p n).numItems =
      cs.length := hlen
    simp only [eraseKeys, h1eq, hread, hnum, bind, Except.bind]
    by_cases hlt : before.length < cs.length <;> cases neighbourRefresh <;>
      simp only [hlt, if_true, if_false, Bool.false_eq_true] at h2eq h3eq ⊢
    · cases h3eq
      simp only [h2eq]
      rfl
    · simp only [h2eq, h3eq]
    · cases h2eq
      cases h3eq
      rfl
    · exact absurd (hsh.neighbour rfl) (by omega)
  · have hkeys : ks3 = cs.map keyOf := by
      refine hks3.eq_map fun j hj => ?_
      rintro ⟨⟨hor | hor, hnot⟩, hnot'⟩
      · exact hnot ⟨hor ▸ hj, hor⟩
      · exact hnot' hor
    rw [hkeys] at h3
    exact h3

/-! ### The node and its neighbours in the store -/

section
variable {l0 lb ra r0 : List (Entry Item)} {d e : Entry Item} {parent : Breadcrumb} {breadcrumbs : List Breadcrumb}

/-- The node is large enough, or there is no neighbour under its parent. -/
theorem Stores.eraseRest_keep (h : Stores cfg t root F) {node parentNode : Node} (hnode : (id, node) ∈ F)
    (hparent : (parent.nodeId, parentNode) ∈ F) (hkeep : ¬ (node.numItems < cfg.MIN_ITEMS ∧ parentNode.numItems > 1)) :
    eraseRest cfg t id (parent :: breadcrumbs) = (do
      let (t, needsRemove) ← dropEmpty t id
      return { store := t, needsRemove, neighbourRefreshNeeded := false }) := by
  simp only [eraseRest, fixUnderflow, h.readNode_eq hnode, h.readNode_eq hparent, hkeep, bind, Except.bind, if_false, pure,
    Except.pure]

/-- The neighbour to the right is used by the first child of a parent. -/
theorem Stores.eraseRest_right
    (h : Stores cfg t root (segment (nodeOf cfg) 0 (l0 ++ ([] ++ ⟨e.id, cs⟩ :: d :: ra) ++ r0) 0 + G))
    {parentNode : Node} (hparent : (parent.nodeId, parentNode) ∈ G) (hmany : parentNode.numItems > 1) (hindex : parent.index = 0)
    (hfits : Fits cfg.MIN_ITEMS cfg.MAX_ITEMS (l0 ++ ([] ++ e :: d :: ra) ++ r0)) (hsmall : cs.length < cfg.MIN_ITEMS)
    (hcs : ∀ c ∈ cs, Backed G c) (hd : ∀ c ∈ d.children, Backed G c) :
    ∃ st ms, eraseRest cfg t e.id (parent :: breadcrumbs) = .ok st ∧
      Stores cfg st.store root (segment (nodeOf cfg) 0 (l0 ++ ms ++ r0) 0 + G) ∧
      Repair cfg e.id cs [] (d :: ra) ms st.needsRemove st.neighbourRefreshNeeded := by
  have hlevel : l0 ++ ([] ++ ⟨e.id, cs⟩ :: d :: ra) ++ r0 = l0 ++ ⟨e.id, cs⟩ :: ⟨d.id, d.children⟩ :: (ra ++ r0) := by simp
  rw [hlevel] at h
  have hcells := h
  rw [segment_pair] at hcells
  have hreade := hcells.readNode_eq (Multiset.mem_cons_self _ _)
  have hreadd := hcells.readNode_eq (Multiset.mem_cons_of_mem (Multiset.mem_cons_self _ _))
  have hreadp := h.readNode_eq (Multiset.mem_add.mpr (Or.inr hparent))
  have hdmax := hfits.le d (by simp)
  have hreb := cfg.rebalance_lt_max
  have hhalf := cfg.min_lt_half_max
  simp only at hreade hreadd
  simp only [eraseRest, fixUnderflow, hreade, hreadp, bind, Except.bind, nodeOf_numItems, hsmall, hmany, and_true,
    if_true, hindex, nodeOf_nextSibling, hreadd]
  by_cases htotal : cs.length + d.children.length ≤ cfg.REBALANCE_THRESHOLD
  · obtain ⟨t1, node, hmove, hnum, hprev, hnext, h1⟩ := h.moveIntoRight_ok (by omega)
    rw [segment_append, headId_cons] at h1
    obtain ⟨t2, hdrop, h2⟩ := h1.dropEmpty_ok hnum hprev hnext
    refine ⟨⟨t2, true, false⟩, _, ?_, ?_, Repair.intoRight hsmall htotal⟩
    · simp only [htotal, if_true, hmove, pure, Except.pure, hdrop]
    · simpa using h2
  · have htwice := cfg.twice_min_le
    have htwo := cfg.two_le_min
    obtain ⟨t1, hmove, h1⟩ := h.rebalance_ok (by omega) (by omega) hcs hd
    rw [decide_eq_true (by omega)] at hmove
    have hkeep : dropEmpty t1 e.id = .ok (t1, false) := by
      rw [segment_pair] at h1
      refine h1.dropEmpty_keep (Multiset.mem_cons_self _ _) ?_
      rw [nodeOf_numItems, List.length_take, List.length_append]
      omega
    refine ⟨⟨t1, false, true⟩, _, ?_, ?_, Repair.shareRight hsmall rfl (by omega)⟩
    · simp only [htotal, if_false, hmove, pure, Except.pure, hkeep]
    · simpa using h1

/-- The neighbour to the left is used by any other. -/
theorem Stores.eraseRest_left
    (h : Stores cfg t root (segment (nodeOf cfg) 0 (l0 ++ (lb ++ [d] ++ ⟨e.id, cs⟩ :: ra) ++ r0) 0 + G))
    {parentNode : Node} (hparent : (parent.nodeId, parentNode) ∈ G) (hmany : parentNode.numItems > 1) (hindex : parent.index ≠ 0)
    (hfits : Fits cfg.MIN_ITEMS cfg.MAX_ITEMS (l0 ++ (lb ++ [d] ++ e :: ra) ++ r0)) (hsmall : cs.length < cfg.MIN_ITEMS)
    (hcs : ∀ c ∈ cs, Backed G c) (hd : ∀ c ∈ d.children, Backed G c) :
    ∃ st ms, eraseRest cfg t e.id (parent :: breadcrumbs) = .ok st ∧
      Stores cfg st.store root (segment (nodeOf cfg) 0 (l0 ++ ms ++ r0) 0 + G) ∧
      Repair cfg e.id cs (lb ++ [d]) ra ms st.needsRemove st.neighbourRefreshNeeded := by
  have hlevel : l0 ++ (lb ++ [d] ++ ⟨e.id, cs⟩ :: ra) ++ r0 = (l0 ++ lb) ++ ⟨d.id, d.children⟩ :: ⟨e.id, cs⟩ :: (ra ++ r0) := by
    simp
  rw [hlevel] at h
  have hcells := h
  rw [segment_pair] at hcells
  have hreadd := hcells.readNode_eq (Multiset.mem_cons_self _ _)
  have hreade := hcells.readNode_eq (Multiset.mem_cons_of_mem (Multiset.mem_cons_self _ _))
  have hreadp := h.readNode_eq (Multiset.mem_add.mpr (Or.inr hparent))
  have hdmax := hfits.le d (by simp)
  have hreb := cfg.rebalance_lt_max
  have hhalf := cfg.min_lt_half_max
  simp only at hreade hreadd
  simp only [eraseRest, fixUnderflow, hreade, hreadp, bind, Except.bind, nodeOf_numItems, hsmall, hmany, and_true,
    if_true, hindex, if_false, nodeOf_prevSibling, hreadd]
  by_cases htotal : d.children.length + cs.length ≤ cfg.REBALANCE_THRESHOLD
  · obtain ⟨t1, node, hmove, hnum, hprev, hnext, h1⟩ := h.moveIntoLeft_ok (by omega)
    have hsplit : (l0 ++ lb) ++ ⟨d.id, d.children ++ cs⟩ :: (ra ++ r0) = (l0 ++ lb ++ [⟨d.id, d.children ++ cs⟩]) ++ (ra ++ r0) := by
      simp
    rw [hsplit, segment_append] at h1
    obtain ⟨t2, hdrop, h2⟩ := h1.dropEmpty_ok hnum (by rw [hprev, lastId_concat]) hnext
    refine ⟨⟨t2, true, false⟩, _, ?_, ?_, Repair.intoLeft hsmall htotal⟩
    · simp only [htotal, if_true, hmove, pure, Except.pure, hdrop]
    · simpa using h2
  · have htwice := cfg.twice_min_le
    have htwo := cfg.two_le_min
    obtain ⟨t1, hmove, h1⟩ := h.rebalance_ok (by omega) (by omega) hd hcs
    rw [decide_eq_false (by omega)] at hmove
    have hkeep : dropEmpty t1 e.id = .ok (t1, false) := by
      rw [segment_pair] at h1
      refine h1.dropEmpty_keep (Multiset.mem_cons_of_mem (Multiset.mem_cons_self _ _)) ?_
      rw [nodeOf_numItems, List.length_drop, List.length_append]
      omega
    refine ⟨⟨t1, false, false⟩, _, ?_, ?_, Repair.shareLeft hsmall rfl (by omega)⟩
    · simp only [htotal, if_false, hmove, pure, Except.pure, hkeep]
    · simpa using h1

/-- The node is repaired. -/
theorem Stores.eraseRest_ok
    (h : Stores cfg t root (segment (nodeOf cfg) 0 (l0 ++ (lb ++ ⟨e.id, cs⟩ :: ra) ++ r0) 0 + G))
    {parentNode : Node} (hparent : (parent.nodeId, parentNode) ∈ G) (hnum : parentNode.numItems = (lb ++ e :: ra).length)
    (hindex : parent.index = lb.length) (hlast : lb ++ ra = [] → r0 = [])
    (hfits : Fits cfg.MIN_ITEMS cfg.MAX_ITEMS (l0 ++ (lb ++ e :: ra) ++ r0))
    (hbacked : ∀ c ∈ children lb ++ cs ++ children ra, Backed G c) :
    ∃ st ms, eraseRest cfg t e.id (parent :: breadcrumbs) = .ok st ∧
      Stores cfg st.store root (segment (nodeOf cfg) 0 (l0 ++ ms ++ r0) 0 + G) ∧
      Repair cfg e.id cs lb ra ms st.needsRemove st.neighbourRefreshNeeded := by
  have hlevel : l0 ++ (lb ++ ⟨e.id, cs⟩ :: ra) ++ r0 = (l0 ++ lb) ++ ⟨e.id, cs⟩ :: (ra ++ r0) := by simp
  have hcells := h
  rw [hlevel, segment_split, Multiset.cons_add] at hcells
  have hnode := Multiset.mem_cons_self (e.id, nodeOf cfg ⟨e.id, cs⟩ (lastId 0 (l0 ++ lb)) (headId (ra ++ r0) 0))
    (segment (nodeOf cfg) 0 (l0 ++ lb) e.id + segment (nodeOf cfg) e.id (ra ++ r0) 0 + G)
  by_cases hkeep : cs.length < cfg.MIN_ITEMS ∧ parentNode.numItems > 1
  · obtain ⟨hsmall, hmany⟩ := hkeep
    rcases List.eq_nil_or_concat lb with rfl | ⟨lb, d, rfl⟩
    · obtain ⟨d, ra, rfl⟩ := List.exists_cons_of_ne_nil (show ra ≠ [] by
        rintro rfl
        simp at hnum
        omega)
      exact h.eraseRest_right hparent hmany hindex hfits hsmall (fun c hc => hbacked c (by simp [hc]))
        fun c hc => hbacked c (by simp [hc])
    · rw [List.concat_eq_append] at *
      exact h.eraseRest_left hparent hmany (by simp [hindex]) hfits hsmall (fun c hc => hbacked c (by simp [hc]))
        fun c hc => hbacked c (by simp [hc])
  · have hparent' : (parent.nodeId, parentNode) ∈ (e.id, nodeOf cfg ⟨e.id, cs⟩ (lastId 0 (l0 ++ lb)) (headId (ra ++ r0) 0)) ::ₘ
        (segment (nodeOf cfg) 0 (l0 ++ lb) e.id + segment (nodeOf cfg) e.id (ra ++ r0) 0 + G) := by
      simp [hparent]
    rw [hcells.eraseRest_keep hnode hparent' (by simpa using hkeep)]
    have halone : cs.length < cfg.MIN_ITEMS → lb = [] ∧ ra = [] := by
      intro hsmall
      have hone : ¬ parentNode.numItems > 1 := fun hmany => hkeep ⟨hsmall, hmany⟩
      simp only [hnum, List.length_append, List.length_cons] at hone
      exact ⟨List.eq_nil_of_length_eq_zero (by omega), List.eq_nil_of_length_eq_zero (by omega)⟩
    by_cases hcs : cs = []
    · subst hcs
      obtain ⟨rfl, rfl⟩ := halone (Nat.lt_of_lt_of_le Nat.two_pos cfg.two_le_min)
      obtain rfl := hlast rfl
      obtain ⟨t', hdrop, h'⟩ := hcells.dropEmpty_ok (by simp) (by simp) (by simp)
      refine ⟨⟨t', true, false⟩, [], ?_, by simpa using h', Repair.gone rfl⟩
      simp only [hdrop, bind, Except.bind, pure, Except.pure]
    · have hkept := hcells.dropEmpty_keep hnode (by simpa using hcs)
      refine ⟨⟨t, false, false⟩, _, ?_, h, Repair.kept hcs ?_⟩
      · simp only [hkept, bind, Except.bind, pure, Except.pure]
      · by_cases hmin : cfg.MIN_ITEMS ≤ cs.length
        · exact Or.inl hmin
        · obtain ⟨rfl, rfl⟩ := halone (not_le.mp hmin)
          exact Or.inr rfl

end

end

end NE.BTree
