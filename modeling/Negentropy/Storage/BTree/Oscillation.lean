import Negentropy.Lib.Runs
import Negentropy.Storage.BTree.Rounds
import Negentropy.Storage.BTree.Verify

/-! Inserting and erasing one item in turn stops changing the tree in memory. -/

namespace NE.Storage.BTreeMem

open BTree Levels

variable {cfg : Config} {x : Item} {xs : List Item}

/-- What a node holds besides `x`: the items of a leaf, the pointers of any other. -/
def held (x : Item) (node : Node) : List (Item ⊕ ℕ) := ((keysOf node).map Key.content).filter (· ≠ .inl x)

/-- The root is the same, no node was made and none deleted, and each holds what it held, but for `x`. -/
structure Unmoved (x : Item) (t u : BTreeMem cfg) : Prop where
  rootNodeId : u.rootNodeId = t.rootNodeId
  nodes : ∀ id, (u.nodeStorageMap id).map (held x) = (t.nodeStorageMap id).map (held x)

/-- An item erased and inserted in turn, beginning with the erase if it is there. -/
def oscillation (x : Item) : Bool → ℕ → List Op
  | _, 0 => []
  | present, n + 1 => (if present then .eraseItem x else .insertItem x) :: oscillation x (!present) n

/-! ### Trees that hold the same -/

theorem held_iff {t : BTreeMem cfg} {levels : List (List (Entry Item))} (h : Represents cfg t levels xs) {id : ℕ}
    {v : List (Item ⊕ ℕ)} :
    (t.nodeStorageMap id).map (held x) = some v ↔
      (id, v) ∈ (levels.map (List.map fun e => (e.id, (contents e).2.filter (· ≠ .inl x)))).flatten := by
  have hheld : ∀ (e : Entry Item) (p n : ℕ), held x (nodeOf cfg e p n) = (contents e).2.filter (· ≠ .inl x) := by
    intro e p n
    rw [held, keysOf_nodeOf, List.map_map]
    rfl
  simp only [Option.map_eq_some_iff, List.mem_flatten, List.mem_map]
  constructor
  · rintro ⟨node, hnode, rfl⟩
    obtain ⟨depth, hd, A, e, B, hlevel, rfl, rfl⟩ := h.node_eq hnode
    exact ⟨_, ⟨_, List.getElem_mem hd, rfl⟩, List.mem_map.mpr ⟨e, by simp [hlevel], by rw [hheld]⟩⟩
  · rintro ⟨_, ⟨L, hL, rfl⟩, hmem⟩
    obtain ⟨e, he, heq⟩ := List.mem_map.mp hmem
    obtain ⟨rfl, rfl⟩ := Prod.mk.inj heq
    obtain ⟨A, B, rfl⟩ := List.append_of_mem he
    exact ⟨_, h.node_of hL, hheld _ _ _⟩

/-- Levels that are alike but for `x` are trees that are the same but for `x`. -/
theorem unmoved_of_alike {t u : BTreeMem cfg} {levels levels' : List (List (Entry Item))} {ys : List Item}
    (h : Represents cfg t levels xs) (h' : Represents cfg u levels' ys) (halike : AlikeBut x levels levels') : Unmoved x t u where
  rootNodeId := by
    have hroot := h.rooted
    have hroot' := h'.rooted
    rcases levels with - | ⟨L, Ls⟩ <;> rcases levels' with - | ⟨L', Ls'⟩
    · exact hroot'.trans hroot.symm
    · simp [AlikeBut] at halike
    · simp [AlikeBut] at halike
    · obtain ⟨e, rfl, hid, -⟩ := hroot
      obtain ⟨e', rfl, hid', -⟩ := hroot'
      have hsame : e.id = e'.id := by
        simp only [AlikeBut, List.map_cons, List.map_nil, List.cons.injEq, Prod.mk.injEq] at halike
        exact halike.1.1.1
      exact hid'.symm.trans (hsame.symm.trans hid)
  nodes id := by
    refine Option.ext fun v => ?_
    rw [held_iff h, held_iff h', show _ = _ from halike]

theorem AlikeBut.reverse {Ls Ms : List (List (Entry Item))} (h : AlikeBut x Ls Ms) : AlikeBut x Ls.reverse Ms.reverse := by
  rw [AlikeBut, List.map_reverse, List.map_reverse]
  exact congrArg List.reverse h

/-! ### Rounds -/

/-- A tree over `xs`, with its levels. -/
abbrev Tree (cfg : Config) (xs : List Item) : Type :=
  { p : BTreeMem cfg × List (List (Entry Item)) // Represents cfg p.1 p.2 xs }

noncomputable def Tree.gauge (x : Item) (p : Tree cfg xs) : ℕ ×ₗ ℕ := BTree.gauge cfg x p.1.2.reverse

theorem round_ok (habsent : x ∉ xs) (hxs : xs ≠ []) (p : Tree cfg xs) :
    ∃ u, ∃ q : Tree cfg xs, p.1.1.apply (.insertItem x) = .ok (true, u) ∧ u.apply (.eraseItem x) = .ok (true, q.1.1) ∧
      ((Unmoved x p.1.1 u ∧ Unmoved x u q.1.1) ∧ q.gauge x ≤ p.gauge x ∨ q.gauge x < p.gauge x) := by
  obtain ⟨⟨t, levels⟩, h⟩ := p
  obtain ⟨u, ys, v, f, fs, g, gs, tops, hinsert, hu, herase, hv, hlevels, hround⟩ := h.round habsent hxs
  refine ⟨u, ⟨⟨v, tops.reverse⟩, hv⟩, hinsert, herase, ?_⟩
  have htops : tops ≠ [] := by
    rintro rfl
    exact hxs (List.map_eq_nil_iff.mp (show [] = xs.map Child.leaf from hv.stack).symm)
  have hold : levels = ((f :: fs).map Focus.level).reverse := by rw [hlevels, List.reverse_reverse]
  simp only [Tree.gauge, List.reverse_reverse, ← hlevels]
  refine (hround.settles htops).imp_left fun hcalm => ⟨⟨?_, ?_⟩, hcalm.2.2⟩
  · exact unmoved_of_alike h hu (hold ▸ AlikeBut.reverse hcalm.1)
  · exact unmoved_of_alike hu hv (AlikeBut.reverse hcalm.2.1)

/-- From some call on, none moves anything. -/
def Settles (x : Item) (present : Bool) (t : BTreeMem cfg) : Prop :=
  ∃ N, ∀ n ≥ N, ∃ rs u v, t.run (oscillation x present n) = .ok (rs, u) ∧
    t.run (oscillation x present (n + 1)) = .ok (rs ++ [true], v) ∧ Unmoved x u v

theorem run_cons {t u v : BTreeMem cfg} {op : Op} {ops : List Op} {r : Bool} {rs : List Bool} (h : t.apply op = .ok (r, u))
    (h' : u.run ops = .ok (rs, v)) : t.run (op :: ops) = .ok (r :: rs, v) := by
  simp only [run, h, h', bind, Except.bind]
  rfl

theorem run_append {t u v : BTreeMem cfg} {ops ops' : List Op} {rs rs' : List Bool} (h : t.run ops = .ok (rs, u))
    (h' : u.run ops' = .ok (rs', v)) : t.run (ops ++ ops') = .ok (rs ++ rs', v) := by
  induction ops generalizing t rs with
  | nil =>
    cases h
    exact h'
  | cons op ops ih =>
    obtain ⟨⟨r, t1⟩, happly, h⟩ := Stateful.except_bind_eq_ok.mp h
    obtain ⟨⟨rs1, t2⟩, hrun, h⟩ := Stateful.except_bind_eq_ok.mp h
    cases h
    exact run_cons happly (ih hrun)

theorem settles_absent (habsent : x ∉ xs) (hxs : xs ≠ []) (p : Tree cfg xs) : Settles x false p.1.1 := by
  choose mid next hinsert herase hcalm using @round_ok cfg x xs habsent hxs
  obtain ⟨N, hN⟩ := Runs.settles hcalm p
  -- an even number of calls is a number of rounds
  have hrounds : ∀ (m k : ℕ) (p : Tree cfg xs) {rs : List Bool} {v : BTreeMem cfg},
      (next^[m] p).1.1.run (oscillation x false k) = .ok (rs, v) →
        p.1.1.run (oscillation x false (2 * m + k)) = .ok (List.replicate (2 * m) true ++ rs, v) := by
    intro m k
    induction m with
    | zero => simp
    | succ m ih =>
      intro p rs v h
      rw [Function.iterate_succ_apply] at h
      rw [show 2 * (m + 1) + k = 2 * m + k + 2 by omega]
      exact run_cons (hinsert p) (run_cons (herase p) (ih (next p) h))
  refine ⟨2 * N, fun n hn => ?_⟩
  rcases Nat.even_or_odd' n with ⟨m, rfl | rfl⟩
  all_goals
    obtain ⟨hinserted, herased⟩ := hN m (by omega)
    generalize hq : next^[m] p = q at hinserted herased
    have hone : q.1.1.run (oscillation x false 1) = .ok ([true], mid q) := run_cons (hinsert q) rfl
    have htwo : q.1.1.run (oscillation x false 2) = .ok ([true, true], (next q).1.1) :=
      run_cons (hinsert q) (run_cons (herase q) rfl)
    subst hq
  · exact ⟨_, _, _, hrounds m 0 p rfl, by simpa using hrounds m 1 p hone, hinserted⟩
  · exact ⟨_, _, _, hrounds m 1 p hone, by simpa using hrounds m 2 p htwo, herased⟩

/-- The same from a tree that has the item. -/
theorem settles_present (hpresent : x ∈ xs) (hothers : ∃ y ∈ xs, y ≠ x) (p : Tree cfg xs) : Settles x true p.1.1 := by
  obtain ⟨⟨t, levels⟩, h⟩ := p
  obtain ⟨u, levels', pre, post, f, fs, -, herase, -, -, hmem, hu, -⟩ := h.eraseItem_present hpresent
  obtain ⟨y, hy, hyx⟩ := hothers
  have hxs : pre ++ post ≠ [] := List.ne_nil_of_mem ((hmem y).mpr ⟨hy, hyx⟩)
  obtain ⟨N, hN⟩ := settles_absent (fun hx => ((hmem x).mp hx).2 rfl) hxs ⟨⟨u, levels'⟩, hu⟩
  refine ⟨N + 1, fun n hn => ?_⟩
  obtain ⟨n, rfl⟩ : ∃ m, n = m + 1 := ⟨n - 1, by omega⟩
  obtain ⟨rs, u1, u2, h1, h2, hunmoved⟩ := hN n (by omega)
  exact ⟨true :: rs, u1, u2, run_cons herase h1, run_cons herase h2, hunmoved⟩

/-- If a tree that some history has left holds another item too, then the calls that erase and insert `x` in turn, beginning
with the one that applies, move nothing from some call on. -/
theorem oscillation_settles (cfg : Config) (ops : List Op) (x : Item) (hothers : ∃ y ∈ itemsAfter ∅ ops, y ≠ x) :
    ∃ N, ∀ n ≥ N, ∃ rs t u,
      run ({} : BTreeMem cfg) (ops ++ oscillation x (decide (x ∈ itemsAfter ∅ ops)) n) = .ok (rs, t) ∧
      run ({} : BTreeMem cfg) (ops ++ oscillation x (decide (x ∈ itemsAfter ∅ ops)) (n + 1)) = .ok (rs ++ [true], u) ∧
      Unmoved x t u := by
  obtain ⟨t, levels, xs, hrun, h, hxs⟩ := reachable cfg ops
  simp only [← hxs, List.mem_toFinset] at hothers ⊢
  have hsettles : Settles x (decide (x ∈ xs)) t := by
    by_cases hx : x ∈ xs
    · rw [decide_eq_true hx]
      exact settles_present hx hothers ⟨⟨t, levels⟩, h⟩
    · obtain ⟨y, hy, -⟩ := hothers
      rw [decide_eq_false hx]
      exact settles_absent hx (List.ne_nil_of_mem hy) ⟨⟨t, levels⟩, h⟩
  obtain ⟨N, hN⟩ := hsettles
  refine ⟨N, fun n hn => ?_⟩
  obtain ⟨rs, u, v, h1, h2, hunmoved⟩ := hN n hn
  exact ⟨answers ∅ ops ++ rs, u, v, run_append hrun h1, by simpa using run_append hrun h2, hunmoved⟩

/-- Six items fill a leaf of the small build, and the first call splits it. -/
theorem oscillation_settles_beside_six :
    ∃ N, ∀ n ≥ N, ∃ rs t u,
      run ({} : BTreeMem Config.fuzzTest) ((itemsAt (List.range 6)).map .insertItem ++ oscillation (sampleItem 6 0) false n) =
        .ok (rs, t) ∧
      run ({} : BTreeMem Config.fuzzTest)
        ((itemsAt (List.range 6)).map .insertItem ++ oscillation (sampleItem 6 0) false (n + 1)) = .ok (rs ++ [true], u) ∧
      Unmoved (sampleItem 6 0) t u := by
  have hnew : decide (sampleItem 6 0 ∈ itemsAfter ∅ ((itemsAt (List.range 6)).map .insertItem)) = false := by decide +kernel
  have hother : ∃ y ∈ itemsAfter ∅ ((itemsAt (List.range 6)).map .insertItem), y ≠ sampleItem 6 0 :=
    ⟨sampleItem 0 0, by decide +kernel, by decide⟩
  have hsettles := oscillation_settles Config.fuzzTest ((itemsAt (List.range 6)).map .insertItem) (sampleItem 6 0) hother
  rwa [hnew] at hsettles

end NE.Storage.BTreeMem
