import Negentropy.Storage.BTree.Erase

/-! The shape of a tree: which node holds what. An insert into a node with room keeps it; what an
erase changes of it lowers a weight. -/

namespace NE.BTree

open Levels

/-! ### What the nodes hold -/

/-- What is in a slot: an item or a pointer. -/
def Key.content (k : Key) : Item ⊕ ℕ := if k.nodeId = 0 then .inl k.item else .inr k.nodeId

def contentOf (c : Child Item) : Item ⊕ ℕ := (keyOf c).content

/-- The node of an entry, and what it holds. -/
def contents (e : Entry Item) : ℕ × List (Item ⊕ ℕ) := (e.id, e.children.map contentOf)

/-- The same nodes hold the same. -/
def Alike (Ls Ms : List (List (Entry Item))) : Prop := Ls.map (List.map contents) = Ms.map (List.map contents)

theorem Points.content_eq {k : Key} {c : Child Item} (h : Points k c) : k.content = contentOf c := by
  obtain ⟨hid, hitem⟩ := h
  by_cases h0 : c.id = 0
  · simp [Key.content, contentOf, hid, h0, hitem h0]
  · simp [Key.content, contentOf, hid, h0]

theorem Alike.cons {L M : List (Entry Item)} {Ls Ms : List (List (Entry Item))} (hL : L.map contents = M.map contents)
    (h : Alike Ls Ms) : Alike (L :: Ls) (M :: Ms) := congrArg₂ List.cons hL h

/-- An entry takes the place of one that holds the same. -/
theorem map_contents_mid {A B : List (Entry Item)} {d e : Entry Item} (h : contents d = contents e) :
    (A ++ d :: B).map contents = (A ++ e :: B).map contents := by simp [h]

theorem contentOf_toChild {e d : Entry Item} (hid : e.id = d.id) (h0 : d.id ≠ 0) : contentOf e.toChild = contentOf d.toChild := by
  simp [contentOf, Key.content, hid, h0]

/-- Children that did not lose one are still the same. -/
theorem Shrunk.contents_eq {before after cs : List (Child Item)} {c : Child Item} {neighbourRefresh : Bool}
    (h : Shrunk before c after cs false neighbourRefresh) : (before ++ c :: after).map contentOf = cs.map contentOf := by
  have hpoints := h.stale.points
  rw [removedKeys, if_neg Bool.false_ne_true] at hpoints
  rw [show contentOf = Key.content ∘ keyOf from rfl, ← List.map_map]
  exact List.forall₂_eq_eq_eq ▸ (List.forall₂_map_left_iff.mpr (List.forall₂_map_right_iff.mpr (hpoints.imp fun k c h => h.content_eq)))

variable {cfg : Config}

theorem Grown.cons {f : Focus Item} {fs : List (Focus Item)} {c : Child Item} {ch : List (Child Item)} {needsMerge : Bool}
    {tops : List (List (Entry Item))} (h : Grown cfg (f :: fs) c ch needsMerge tops) :
    ∃ needsMerge' es rest, tops = (f.left ++ es ++ f.right) :: rest ∧ f.id ≠ 0 ∧ Placed cfg f ch needsMerge needsMerge' es ∧
      Grown cfg fs f.entry.toChild (es.map Entry.toChild) needsMerge' rest := by
  cases h with
  | next hid hplaced hgrown => exact ⟨_, _, _, rfl, hid, hplaced, hgrown⟩

/-- An insert that adds no child to the lowest node adds none above it. -/
theorem Grown.alike {fs : List (Focus Item)} {c : Child Item} {ch : List (Child Item)} {tops : List (List (Entry Item))}
    (h : Grown cfg fs c ch false tops) (hch : ch.map contentOf = [contentOf c]) : Alike tops (fs.map Focus.level) := by
  induction fs generalizing c ch tops with
  | nil =>
    cases h
    rfl
  | cons f fs ih =>
    cases h with
    | next hid hplaced hgrown =>
      cases hplaced with
      | grown _ =>
        have hentry : contents ⟨f.id, f.before ++ ch ++ f.after⟩ = contents f.entry := by
          simp [contents, Focus.entry, hch]
        have hchild : contentOf (Entry.toChild ⟨f.id, f.before ++ ch ++ f.after⟩) = contentOf f.entry.toChild :=
          contentOf_toChild rfl hid
        rw [List.append_assoc f.left]
        exact Alike.cons (map_contents_mid hentry) (ih hgrown (congrArg (fun v => [v]) hchild))

/-! ### Weights -/

def small (cfg : Config) (e : Entry Item) : ℕ := if e.children.length < cfg.MIN_ITEMS then 1 else 0

/-- Two for each node of a level, and one if the last is small. -/
def weight (cfg : Config) (L : List (Entry Item)) : ℕ := 2 * L.length + L.getLast?.elim 0 (small cfg)

def weights (cfg : Config) (Ls : List (List (Entry Item))) : ℕ := (Ls.map (weight cfg)).sum

theorem weights_cons (L : List (Entry Item)) (Ls : List (List (Entry Item))) :
    weights cfg (L :: Ls) = weight cfg L + weights cfg Ls := rfl

theorem small_le (e : Entry Item) : small cfg e ≤ 1 := by
  rw [small]
  split_ifs <;> omega

theorem weight_mid (A : List (Entry Item)) (e : Entry Item) (R : List (Entry Item)) :
    weight cfg (A ++ e :: R) = 2 * A.length + 2 + if R = [] then small cfg e else weight cfg R := by
  rcases eq_or_ne R [] with rfl | hR
  · simp [weight]
    omega
  · have hlast : (A ++ e :: R).getLast? = R.getLast? := by
      rw [List.getLast?_append_of_ne_nil _ (by simp), List.getLast?_cons_of_ne_nil hR]
    rw [if_neg hR, weight, weight, hlast]
    simp only [List.length_append, List.length_cons]
    omega

theorem weight_pair (A : List (Entry Item)) (d e : Entry Item) (R : List (Entry Item)) :
    weight cfg (A ++ d :: e :: R) = 2 * A.length + 4 + if R = [] then small cfg e else weight cfg R := by
  rw [weight_mid, if_neg (List.cons_ne_nil _ _), ← List.nil_append (e :: R), weight_mid, List.length_nil]
  omega

/-- A level without a small node. -/
theorem weight_eq {L : List (Entry Item)} (h : ∀ e ∈ L, cfg.MIN_ITEMS ≤ e.children.length) : weight cfg L = 2 * L.length := by
  rw [weight]
  rcases hl : L.getLast? with - | e
  · rfl
  · have hmin := h e (List.mem_of_getLast? hl)
    simp [small, not_lt.mpr hmin]

theorem Alike.weights_eq {Ls Ms : List (List (Entry Item))} (h : Alike Ls Ms) : weights cfg Ls = weights cfg Ms := by
  have hweight : weight cfg = (fun L : List (ℕ × List (Item ⊕ ℕ)) =>
      2 * L.length + L.getLast?.elim 0 fun p => if p.2.length < cfg.MIN_ITEMS then 1 else 0) ∘ List.map contents := by
    funext L
    simp only [weight, Function.comp, List.length_map, List.getLast?_map, Option.elim_map]
    congr 2
    funext e
    simp [small, contents]
  rw [weights, weights, hweight, ← List.map_map, ← List.map_map, show Ls.map (List.map contents) = Ms.map (List.map contents) from h]

section
variable {id lost : ℕ} {cs ds : List (Child Item)} {l0 lb ra r0 ms : List (Entry Item)} {needsRemove neighbourRefresh : Bool}

/-- A level is repaired at the cost of its weight, when its node had `lost` more children. -/
theorem Repair.weight_le (h : Repair cfg id cs lb ra ms needsRemove neighbourRefresh)
    (hfits : Fits cfg.MIN_ITEMS cfg.MAX_ITEMS (l0 ++ (lb ++ ⟨id, ds⟩ :: ra) ++ r0)) (hlast : lb ++ ra = [] → r0 = [])
    (hlen : ds.length = cs.length + lost) (hlost : lost ≤ 1) :
    weight cfg (l0 ++ ms ++ r0) + (if needsRemove then 1 else 0) ≤ weight cfg (l0 ++ (lb ++ ⟨id, ds⟩ :: ra) ++ r0) + lost ∧
      (lost = 0 → ms = lb ++ ⟨id, cs⟩ :: ra ∧ needsRemove = false ∨
        weight cfg (l0 ++ ms ++ r0) + (if needsRemove then 1 else 0) < weight cfg (l0 ++ (lb ++ ⟨id, ds⟩ :: ra) ++ r0)) := by
  have htwo := cfg.two_le_min
  cases h with
  | kept hcs _ =>
    have hold : l0 ++ (lb ++ ⟨id, ds⟩ :: ra) ++ r0 = (l0 ++ lb) ++ ⟨id, ds⟩ :: (ra ++ r0) := by simp
    have hnew : l0 ++ (lb ++ ⟨id, cs⟩ :: ra) ++ r0 = (l0 ++ lb) ++ ⟨id, cs⟩ :: (ra ++ r0) := by simp
    refine ⟨?_, fun _ => Or.inl ⟨rfl, rfl⟩⟩
    rw [hold, hnew, weight_mid, weight_mid]
    simp only [small, hlen, Bool.false_eq_true, if_false]
    split_ifs <;> omega
  | gone hcs =>
    obtain rfl := hlast rfl
    simp only [List.nil_append, List.append_nil] at hfits ⊢
    obtain ⟨hleft, hright⟩ := (fits_append (List.cons_ne_nil _ _)).mp hfits
    have hds : ds.length ≠ 0 := fun h0 => hright.ne_nil _ (List.mem_singleton_self _) (List.eq_nil_of_length_eq_zero h0)
    rw [weight_mid, weight_eq fun e he => (hleft e he).2.1]
    simp only [hcs, List.length_nil] at hlen
    simp only [if_true]
    omega
  | @intoRight d ra hsmall htotal =>
    have hold : l0 ++ ([] ++ ⟨id, ds⟩ :: d :: ra) ++ r0 = l0 ++ ⟨id, ds⟩ :: d :: (ra ++ r0) := by simp
    have hnew : l0 ++ (⟨d.id, cs ++ d.children⟩ :: ra) ++ r0 = l0 ++ ⟨d.id, cs ++ d.children⟩ :: (ra ++ r0) := by simp
    rw [hold] at hfits
    have hmin := hfits.mid.2.2 (by simp)
    have hle := @small_le cfg ⟨d.id, cs ++ d.children⟩
    rw [hold, hnew, weight_pair, weight_mid]
    simp only [if_true] at hmin ⊢
    split_ifs <;> omega
  | @intoLeft d lb ra hsmall htotal =>
    have hold : l0 ++ (lb ++ [d] ++ ⟨id, ds⟩ :: ra) ++ r0 = (l0 ++ lb) ++ d :: ⟨id, ds⟩ :: (ra ++ r0) := by simp
    have hnew : l0 ++ (lb ++ ⟨d.id, d.children ++ cs⟩ :: ra) ++ r0 = (l0 ++ lb) ++ ⟨d.id, d.children ++ cs⟩ :: (ra ++ r0) := by
      simp
    rw [hold] at hfits
    have hmin := hfits.mid.2.2 (by simp)
    have hle : small cfg ⟨d.id, d.children ++ cs⟩ = 0 := if_neg (by simp; omega)
    rw [hold, hnew, weight_pair, weight_mid, hle]
    simp only [if_true]
    split_ifs <;> omega
  | @shareRight d ra m hsmall hm htotal =>
    have hold : l0 ++ ([] ++ ⟨id, ds⟩ :: d :: ra) ++ r0 = l0 ++ ⟨id, ds⟩ :: d :: (ra ++ r0) := by simp
    rw [hold] at hfits
    have hmin := hfits.mid.2.2 (by simp)
    have hmax := hfits.le d (by simp)
    obtain ⟨-, -, hhalf, -⟩ := half_bounds htotal (by omega)
    have hle : small cfg ⟨d.id, (cs ++ d.children).drop ((m + 1) / 2)⟩ = 0 := if_neg (by simp; omega)
    rw [hold, List.append_assoc l0, List.cons_append, List.cons_append, weight_pair, weight_pair, hle]
    simp only [Bool.false_eq_true, if_false] at hmin ⊢
    split_ifs <;> omega
  | @shareLeft d lb ra m hsmall hm htotal =>
    have hold : l0 ++ (lb ++ [d] ++ ⟨id, ds⟩ :: ra) ++ r0 = (l0 ++ lb) ++ d :: ⟨id, ds⟩ :: (ra ++ r0) := by simp
    have hnew : ∀ d e : Entry Item, l0 ++ (lb ++ d :: e :: ra) ++ r0 = (l0 ++ lb) ++ d :: e :: (ra ++ r0) := by simp
    rw [hold] at hfits
    have hmax := hfits.le d (by simp)
    have hright := (fits_append (List.cons_ne_nil d _)).mp hfits |>.2
    have hmin := (fits_cons.mp (fits_cons.mp hright).2.2.2).2.2.1
    obtain ⟨-, -, hhalf, -⟩ := half_bounds htotal (by omega)
    have hle : small cfg ⟨id, (d.children ++ cs).drop ((m + 1) / 2)⟩ = 0 := if_neg (by simp; omega)
    rw [hold, hnew, weight_pair, weight_pair, hle]
    by_cases hnil : ra ++ r0 = []
    · simp only [hnil, if_true, Bool.false_eq_true, if_false, small]
      split_ifs <;> omega
    · have hmin := hmin hnil
      simp only [hnil, Bool.false_eq_true, if_false] at hmin ⊢
      omega

end

/-- The weight of the levels that an erase leaves, when the first node had `lost` more children. If it had no more, then all
is as before or lighter. -/
theorem Shed.weights_le {fs : List (Focus Item)} {f : Focus Item} {cs ds : List (Child Item)}
    {tops : List (List (Entry Item))} {lost : ℕ} (h : Shed cfg (f :: fs) cs tops)
    (hfits : Fits cfg.MIN_ITEMS cfg.MAX_ITEMS (f.left ++ ⟨f.id, ds⟩ :: f.right))
    (hfs : ∀ g ∈ fs, Fits cfg.MIN_ITEMS cfg.MAX_ITEMS g.level) (hlen : ds.length = cs.length + lost) (hlost : lost ≤ 1)
    (hsame : lost = 0 → ds.map contentOf = cs.map contentOf) :
    weights cfg tops ≤ weights cfg ((f.left ++ ⟨f.id, ds⟩ :: f.right) :: fs.map Focus.level) + lost ∧
      (lost = 0 → Alike tops ((f.left ++ ⟨f.id, ds⟩ :: f.right) :: fs.map Focus.level) ∨
        weights cfg tops < weights cfg ((f.left ++ ⟨f.id, ds⟩ :: f.right) :: fs.map Focus.level)) := by
  induction fs generalizing f cs ds tops lost with
  | nil =>
    cases h with
    | last hcs hleft hright =>
      rw [hleft, hright]
      refine ⟨?_, fun h0 => Or.inl ?_⟩
      · simp only [weights, weight, List.map_cons, List.map_nil, List.sum_cons, List.sum_nil, List.nil_append, small,
          List.getLast?_singleton, Option.elim_some, List.length_singleton]
        split_ifs <;> omega
      · simp [Alike, contents, hsame h0]
    | shrunk _ _ =>
      have hpos : 0 < weights cfg [f.left ++ ⟨f.id, ds⟩ :: f.right] := by
        simp only [weights, List.map_cons, List.map_nil, List.sum_cons, List.sum_nil, weight_mid]
        omega
      exact ⟨Nat.zero_le _, fun _ => Or.inr hpos⟩
  | cons f' fs ih =>
    cases h with
    | @next _ _ _ _ l0 lb ra r0 ms needsRemove neighbourRefresh tops hswept hsh hshed =>
      obtain ⟨hl, hr, -, -, halone, hrepair⟩ := hswept
      have hlevel : ∀ e : Entry Item, f.left ++ e :: f.right = l0 ++ (lb ++ e :: ra) ++ r0 := by simp [hl, hr]
      rw [hlevel] at hfits ⊢
      have hlen' := hsh.length_eq
      obtain ⟨hle, hcases⟩ := hrepair.weight_le hfits halone hlen hlost
      obtain ⟨hle', hcases'⟩ := @ih f' (ms.map Entry.toChild) (f'.before ++ f'.child :: f'.after) tops
        (if needsRemove then 1 else 0) hshed (hfs f' (by simp)) (fun g hg => hfs g (by simp [hg])) hlen'.symm
        (by split_ifs <;> omega) (fun h0 => by
          cases needsRemove with
          | false => exact hsh.contents_eq
          | true => simp at h0)
      change weights cfg tops ≤ weights cfg ((f' :: fs).map Focus.level) + _ at hle'
      change _ → Alike tops ((f' :: fs).map Focus.level) ∨ weights cfg tops < weights cfg ((f' :: fs).map Focus.level) at hcases'
      rw [weights_cons, weights_cons]
      refine ⟨by omega, fun h0 => ?_⟩
      rcases hcases h0 with ⟨rfl, rfl⟩ | hlt
      · refine (hcases' rfl).imp (Alike.cons ?_) fun hlt => ?_
        · rw [← hlevel, ← hlevel]
          exact map_contents_mid (congrArg (Prod.mk f.id) (hsame h0).symm)
        · simp only [Bool.false_eq_true, if_false] at hle
          omega
      · exact Or.inr (by omega)

/-! ### The right edge -/

/-- How many levels from the lowest up end in a full node. -/
def spine (cfg : Config) : List (List (Entry Item)) → ℕ
  | [] => 0
  | L :: Ls => if L.getLast?.any fun e => e.children.length = cfg.MAX_ITEMS then spine cfg Ls + 1 else 0

theorem spine_full {A : List (Entry Item)} {d : Entry Item} (h : d.children.length = cfg.MAX_ITEMS)
    (Ls : List (List (Entry Item))) : spine cfg ((A ++ [d]) :: Ls) = spine cfg Ls + 1 := by simp [spine, h]

theorem spine_room {A : List (Entry Item)} {d : Entry Item} (h : d.children.length ≠ cfg.MAX_ITEMS)
    (Ls : List (List (Entry Item))) : spine cfg ((A ++ [d]) :: Ls) = 0 := by simp [spine, h]

/-- The path runs along the right edge. -/
def AtEdge (fs : List (Focus Item)) : Prop := ∀ f ∈ fs, f.after = [] ∧ f.right = []

/-- From the lowest level up, full nodes at the right edge have got a neighbour with a single child, as far as the level of
a node with more of them. -/
inductive Budded (cfg : Config) : List (List (Entry Item)) → List (List (Entry Item)) → Prop where
  | stop {old new : List (List (Entry Item))} {A : List (Entry Item)} {e : Entry Item} : 2 ≤ e.children.length →
      Budded cfg old ((A ++ [e]) :: new)
  | bud {old new : List (List (Entry Item))} {A : List (Entry Item)} {d r : Entry Item} : d.children.length = cfg.MAX_ITEMS →
      r.children.length = 1 → Budded cfg old new → Budded cfg ((A ++ [d]) :: old) ((A ++ [d] ++ [r]) :: new)

theorem level_edge {f : Focus Item} {A : List (Entry Item)} {e : Entry Item} (hright : f.right = []) (h : f.level = A ++ [e]) :
    f.left = A ∧ f.entry = e := by
  rw [Focus.level, hright] at h
  exact List.append_singleton_inj.mp h

/-- A full node at the right edge is left as it was, beside a new one. -/
theorem Placed.bud {f : Focus Item} {r : Child Item} {es : List (Entry Item)}
    (h : Placed cfg f [f.child, r] true true es) (hafter : f.after = []) (hright : f.right = []) :
    f.entry.children.length = cfg.MAX_ITEMS ∧ ∃ id, es = [f.entry, ⟨id, [r]⟩] := by
  cases h with
  | @split l id hfull hl =>
    rw [if_pos hright] at hl
    have hlen : l = (f.before ++ [f.child]).length := by
      rw [hl, ← hfull]
      simp [Focus.entry, hafter]
    refine ⟨hfull, id, ?_⟩
    have hsplit : f.before ++ [f.child, r] ++ f.after = (f.before ++ [f.child]) ++ [r] := by simp [hafter]
    rw [hsplit, hlen, List.take_left, List.drop_left, Focus.entry, hafter]

/-- An insert at the right edge, where a node was split. -/
theorem Grown.budded {fs : List (Focus Item)} {c r : Child Item} {tops : List (List (Entry Item))}
    (h : Grown cfg fs c [c, r] true tops) (hedge : AtEdge fs) : Budded cfg (fs.map Focus.level) tops := by
  induction fs generalizing c r tops with
  | nil =>
    cases h with
    | root => exact @Budded.stop cfg [] [] [] _ (by simp)
  | cons f fs ih =>
    obtain ⟨hafter, hright⟩ := hedge f (by simp)
    cases h with
    | @next _ _ _ _ needsMerge' es tops hid hplaced hgrown =>
      rw [hright, List.append_nil]
      cases needsMerge' with
      | false =>
        cases hplaced with
        | grown _ => exact Budded.stop (by simp; omega)
      | true =>
        obtain ⟨hfull, id, rfl⟩ := hplaced.bud hafter hright
        have hlevel : f.level = f.left ++ [f.entry] := by rw [Focus.level, hright]
        have hnew : f.left ++ [f.entry, ⟨id, [r]⟩] = f.left ++ [f.entry] ++ [⟨id, [r]⟩] := by simp
        rw [List.map_cons, hlevel, hnew]
        exact Budded.bud hfull rfl (ih hgrown fun g hg => hedge g (by simp [hg]))

/-- The erase takes the new nodes away again, and parts the last of the full ones. -/
theorem Shed.spine_lt {fs : List (Focus Item)} {f : Focus Item} {tops old : List (List (Entry Item))} {A : List (Entry Item)}
    {d : Entry Item} (h : Shed cfg (f :: fs) [] tops) (hedge : AtEdge (f :: fs)) (hleft : f.left = A ++ [d])
    (hfull : d.children.length = cfg.MAX_ITEMS) (hbudded : Budded cfg old (fs.map Focus.level)) :
    spine cfg tops < spine cfg ((A ++ [d]) :: old) := by
  rw [spine_full hfull]
  induction fs generalizing f tops old A d with
  | nil => cases hbudded
  | cons f' fs ih =>
    obtain ⟨-, hright⟩ := hedge f (by simp)
    obtain ⟨hafter', hright'⟩ := hedge f' (by simp)
    cases h with
    | @next _ _ _ _ l0 lb ra r0 ms needsRemove neighbourRefresh tops hswept hsh hshed =>
      obtain ⟨hl, hr, hbefore, -, -, hrepair⟩ := hswept
      obtain ⟨rfl, rfl⟩ := List.append_eq_nil_iff.mp (hr.symm.trans hright)
      generalize hfs : (f' :: fs).map Focus.level = new at hbudded
      cases hbudded with
      | @stop _ new A' e hwide =>
        -- the parent has other children, so the last full node shares with the new one
        obtain ⟨hlevel, -⟩ := List.cons_eq_cons.mp hfs
        obtain ⟨-, rfl⟩ := level_edge hright' hlevel
        have hlb : lb ≠ [] := by
          rintro rfl
          simp [Focus.entry, ← hbefore, hafter'] at hwide
        cases hrepair with
        | kept hcs _ => exact absurd rfl hcs
        | gone _ => exact absurd rfl hlb
        | @intoLeft d' lb _ _ htotal =>
          obtain ⟨-, rfl⟩ := List.append_singleton_inj.mp ((List.append_assoc l0 lb [d']).trans (hl.symm.trans hleft))
          have hlt := cfg.rebalance_lt_max
          simp only [List.length_nil] at htotal
          omega
        | @shareLeft d' lb _ m _ hm _ =>
          obtain ⟨-, rfl⟩ := List.append_singleton_inj.mp ((List.append_assoc l0 lb [d']).trans (hl.symm.trans hleft))
          have hnew : ∀ a b : Entry Item, l0 ++ (lb ++ [a, b]) ++ [] = (l0 ++ lb ++ [a]) ++ [b] := by simp
          rw [hnew, spine_room]
          · omega
          · have hmax := cfg.min_lt_half_max
            simp only [List.length_nil] at hm
            simp
            omega
      | @bud _ new A' d' r hfull' hone hbudded =>
        -- the parent has no other child, so the new node goes and the parent is empty in its turn
        obtain ⟨hlevel, rfl⟩ := List.cons_eq_cons.mp hfs
        obtain ⟨hleft', rfl⟩ := level_edge hright' hlevel
        have hlb : lb = [] := by
          rw [← List.map_eq_nil_iff, hbefore, ← List.length_eq_zero_iff]
          simp [Focus.entry] at hone
          omega
        cases hrepair with
        | kept hcs _ => exact absurd rfl hcs
        | gone _ =>
          have hrec := ih hshed (fun g hg => hedge g (by simp [hg])) hleft' hfull' hbudded
          have hl0 : l0 ++ [] ++ [] = A ++ [d] := by simpa using hl.symm.trans hleft
          rw [hl0, spine_full hfull, spine_full hfull']
          omega
        | intoLeft _ _ => simp at hlb
        | shareLeft _ _ _ => simp at hlb

end NE.BTree
