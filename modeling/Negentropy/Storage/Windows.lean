import Mathlib.Order.Bounds.Basic
import Negentropy.Storage.Standalone

/-! Searches in a window, and the windows that two searches cut out. A vector's search stays in
its window. A tree's is the search in all of it, cut off at the end of the window only, so it is
the vector's unless the bound falls before the window and behind an item. -/

namespace NE.Storage

open BTree Sorted

/-! ### A search in a window -/

/-- What is found in a window is the first position of it that is at or behind the bound. -/
theorem lowerBound_isLeast {xs : List Item} (hs : xs.Pairwise (· < ·)) {b e : ℕ} (hbe : b ≤ e) (he : e ≤ xs.length)
    (k : Item) :
    IsLeast {i | b ≤ i ∧ i ≤ e ∧ (i = e ∨ ∃ x, xs[i]? = some x ∧ k ≤ x)} (max b (min (lowerBound xs k) e)) := by
  constructor
  · refine ⟨le_max_left _ _, max_le hbe (min_le_right _ _), ?_⟩
    by_cases hend : max b (min (lowerBound xs k) e) = e
    · exact Or.inl hend
    · have hi : max b (min (lowerBound xs k) e) < xs.length := by omega
      refine Or.inr ⟨_, List.getElem?_eq_getElem hi, ?_⟩
      rw [← lowerBound_le_iff hs hi]
      omega
  · intro i hi
    obtain ⟨hbi, hie, rfl | ⟨x, hx, hkx⟩⟩ := hi
    · exact max_le hbi (min_le_right _ _)
    · obtain ⟨hlt, rfl⟩ := List.getElem?_eq_some_iff.mp hx
      have hle := (lowerBound_le_iff hs hlt).mpr hkx
      exact max_le hbi ((min_le_left _ _).trans hle)

/-- No item is below the bound. -/
theorem lowerBound_eq_zero_iff {xs : List Item} (hs : xs.Pairwise (· < ·)) (k : Item) :
    lowerBound xs k = 0 ↔ ∀ x ∈ xs, k ≤ x := by
  constructor
  · intro hzero x hx
    have hdrop : x ∈ xs.drop (lowerBound xs k) := by rwa [hzero, List.drop_zero]
    exact le_of_mem_drop hs hdrop
  · exact lowerBound_eq_zero hs

/-- All items in front of a position are below the bound. -/
theorem le_lowerBound_iff {xs : List Item} (hs : xs.Pairwise (· < ·)) {b : ℕ} (hb : b ≤ xs.length) (k : Item) :
    b ≤ lowerBound xs k ↔ ∀ x ∈ xs.take b, x < k := by
  constructor
  · intro hle x hx
    exact lt_of_mem_take ((List.take_prefix_take_left hle).subset hx)
  · intro hall
    by_contra hlt
    have hi : lowerBound xs k < xs.length := by omega
    have hmem : xs[lowerBound xs k] ∈ xs.take b := List.mem_take_iff_getElem.mpr ⟨_, by omega, rfl⟩
    exact absurd ((lt_lowerBound_iff hs hi).mpr (hall _ hmem)) (lt_irrefl _)

/-- The vector's search finds the first position of the window that is at or behind the bound. The
tree's finds the same one unless some item is below the bound and some item in front of the window is not. -/
theorem findLowerBound_window_iff (cfg : Config) (ops : List BTreeMem.Op) {v : Vector}
    (hv : v.Holds (BTreeMem.itemsAfter ∅ ops)) :
    ∃ t, BTreeMem.run ({} : BTreeMem cfg) ops = .ok (BTreeMem.answers ∅ ops, t) ∧
      ∀ b e (bound : Bound), b ≤ e → e ≤ v.items.length → ∃ i, v.findLowerBound b e bound = .ok i ∧
        IsLeast {i | b ≤ i ∧ i ≤ e ∧ (i = e ∨ ∃ x, v.items[i]? = some x ∧ bound.item ≤ x)} i ∧
        (BTree.findLowerBound t b e bound = .ok i ↔
          (∀ x ∈ v.items, bound.item ≤ x) ∨ ∀ x ∈ v.items.take b, x < bound.item) := by
  obtain ⟨t, levels, hrun, h⟩ := BTreeMem.reachable_holds cfg ops hv
  refine ⟨t, hrun, fun b e bound hbe he => ?_⟩
  refine ⟨_, Vector.findLowerBound_eq hv.isSealed hv.sorted hbe he bound, lowerBound_isLeast hv.sorted hbe he _, ?_⟩
  have hempty : v.items = [] → e = b := by
    intro hnil
    rw [hnil, List.length_nil] at he
    omega
  rw [h.findLowerBound_ok hbe he, Except.ok.injEq, ← lowerBound_eq_zero_iff hv.sorted,
    ← le_lowerBound_iff hv.sorted (hbe.trans he)]
  split_ifs with hzero hnil
  · have := hempty hnil
    omega
  · omega
  · omega

/-- Two items and the window of the second one, searched for it. -/
theorem findLowerBound_window_two :
    ∃ t, BTreeMem.run ({} : BTreeMem Config.fuzzTest) [.insertItem ⟨1, ItemId.zero⟩, .insertItem ⟨2, ItemId.zero⟩] =
        .ok ([true, true], t) ∧ BTree.findLowerBound t 1 2 (Bound.ofTimestamp 2) = .ok 1 := by
  obtain ⟨t, hrun, hsearch⟩ := findLowerBound_window_iff Config.fuzzTest
    [.insertItem ⟨1, ItemId.zero⟩, .insertItem ⟨2, ItemId.zero⟩]
    (v := { items := [⟨1, ItemId.zero⟩, ⟨2, ItemId.zero⟩], isSealed := true }) ⟨rfl, by decide, by decide⟩
  obtain ⟨i, hvec, -, hiff⟩ := hsearch 1 2 (Bound.ofTimestamp 2) (by decide) le_rfl
  obtain rfl : i = 1 := by
    cases hvec
    rfl
  exact ⟨t, hrun, hiff.mpr (Or.inr (by decide))⟩

/-- A tree of three items and the window of the last one: the bound is the second item, and the
search answers with its position, in front of the window. -/
theorem findLowerBound_before_window :
    ∃ t, BTreeMem.run ({} : BTreeMem Config.fuzzTest)
        [.insertItem ⟨1, ItemId.zero⟩, .insertItem ⟨2, ItemId.zero⟩, .insertItem ⟨3, ItemId.zero⟩] =
          .ok ([true, true, true], t) ∧
      BTree.findLowerBound t 2 3 (Bound.ofTimestamp 2) = .ok 1 ∧
      Vector.findLowerBound { items := [⟨1, ItemId.zero⟩, ⟨2, ItemId.zero⟩, ⟨3, ItemId.zero⟩], isSealed := true } 2 3
        (Bound.ofTimestamp 2) = .ok 2 := by
  obtain ⟨t, levels, hrun, h⟩ := BTreeMem.reachable_holds Config.fuzzTest
    [.insertItem ⟨1, ItemId.zero⟩, .insertItem ⟨2, ItemId.zero⟩, .insertItem ⟨3, ItemId.zero⟩]
    (v := { items := [⟨1, ItemId.zero⟩, ⟨2, ItemId.zero⟩, ⟨3, ItemId.zero⟩], isSealed := true })
    ⟨rfl, by decide, by decide⟩
  refine ⟨t, hrun, ?_, rfl⟩
  exact (h.findLowerBound_ok (by decide) le_rfl _).trans (congrArg Except.ok (by decide))

/-! ### The window between two bounds -/

/-- The items at the positions of the window are those between the two bounds. -/
structure SubRange.Selects {β : Type} [StorageBase β] (r : SubRange β) (base : β) (s : Finset Item) (lower upper : Bound) :
    Prop where
  begin_le : r.subBegin ≤ r.subEnd
  end_le : ∃ n, StorageBase.size base = .ok n ∧ r.subEnd ≤ n
  mem_iff : ∀ x, (∃ i, r.subBegin ≤ i ∧ i < r.subEnd ∧ StorageBase.getItem base i = .ok x) ↔
    x ∈ s ∧ lower.item ≤ x ∧ x < upper.item

/-- The end of the window: one further than the search says if it has found the bound itself. -/
def endOf (items : List Item) (upper : Bound) (u : ℕ) : ℕ := if items[u]? = some upper.item then u + 1 else u

section
variable {β : Type} [StorageBase β] {base : β} {items : List Item} {fp : ℕ → ℕ → Fingerprint}

theorem endOf_le {u : ℕ} (hu : u ≤ items.length) (upper : Bound) : endOf items upper u ≤ items.length := by
  unfold endOf
  split
  · next hx => exact (List.getElem?_eq_some_iff.mp hx).1
  · exact hu

/-- Behind the search, the window ends with the last item up to the bound. -/
theorem lt_endOf_iff (hs : items.Pairwise (· < ·)) {upper : Bound} {i : ℕ} (hi : i < items.length) :
    i < endOf items upper (lowerBound items upper.item) ↔ items[i] ≤ upper.item := by
  have hlow := lt_lowerBound_iff hs hi (k := upper.item)
  unfold endOf
  split
  · next hfound =>
    obtain ⟨hu, heq⟩ := List.getElem?_eq_some_iff.mp hfound
    constructor
    · intro hlt
      rcases Nat.lt_succ_iff_lt_or_eq.mp hlt with hlt | rfl
      · exact (hlow.mp hlt).le
      · exact heq.le
    · intro hle
      rcases hle.lt_or_eq with hlt | hsame
      · exact Nat.lt_succ_of_lt (hlow.mpr hlt)
      · have hat := (lowerBound_le_iff hs hu).mp le_rfl
        by_contra hge
        exact absurd (List.pairwise_iff_getElem.mp hs _ _ hu hi (by omega)) (by rw [heq, hsame]; exact lt_irrefl _)
  · next hmiss =>
    rw [hlow]
    refine ⟨le_of_lt, fun hle => hle.lt_of_ne fun hsame => ?_⟩
    have hiu : lowerBound items upper.item = i := by
      refine lowerBound_eq hs hi.le (fun hpos => ?_) (fun _ => hsame.ge)
      rw [← hsame]
      exact List.pairwise_iff_getElem.mp hs _ _ _ hi (by omega)
    rw [hiu, List.getElem?_eq_getElem hi, hsame] at hmiss
    exact hmiss rfl

/-- Between bounds in reverse order that search ends where the other begins exactly if it has no item to cross. -/
theorem endOf_eq_iff (hs : items.Pairwise (· < ·)) {lower upper : Bound} (h : upper.item < lower.item) :
    endOf items upper (lowerBound items upper.item) = lowerBound items lower.item ↔
      ∀ x ∈ items, upper.item < x → lower.item ≤ x := by
  have hend := endOf_le (lowerBound_le_length items upper.item) upper
  have hlow := lowerBound_le_length items lower.item
  constructor
  · intro heq x hx hlt
    obtain ⟨i, hi, rfl⟩ := List.mem_iff_getElem.mp hx
    rw [← lowerBound_le_iff hs hi, ← heq, ← not_lt, lt_endOf_iff hs hi]
    exact not_le.mpr hlt
  · intro hnone
    by_contra hne
    rcases Nat.lt_or_gt_of_ne hne with hlt | hgt
    · have hi := hlt.trans_le hlow
      have hbelow := (lt_lowerBound_iff hs hi).mp hlt
      have habove := not_le.mp ((lt_endOf_iff hs hi).not.mp (lt_irrefl _))
      exact absurd (hnone _ (List.getElem_mem hi) habove) (not_le.mpr hbelow)
    · have hi := hgt.trans_le hend
      have hbelow := (lowerBound_le_iff hs hi).mp le_rfl
      have habove := (lt_endOf_iff hs hi).mp hgt
      exact absurd (habove.trans_lt h) (not_lt.mpr hbelow)

/-- From where the lower bound is, the search of a smaller one does not move. -/
theorem endOf_begin (hs : items.Pairwise (· < ·)) {lower upper : Bound} (h : upper.item < lower.item) :
    endOf items upper (lowerBound items lower.item) = lowerBound items lower.item := by
  unfold endOf
  split
  · next hfound =>
    obtain ⟨hi, heq⟩ := List.getElem?_eq_some_iff.mp hfound
    have hle := (lowerBound_le_iff hs hi).mp le_rfl
    exact absurd (hle.trans heq.le) (not_le.mpr h)
  · rfl

/-- The two shortcuts of the constructor give what the searches would. -/
theorem SubRange.make_eq (hs : Presents base items fp) (hfin : ∀ x ∈ items, x.timestamp < MAX_U64) {lower upper : Bound}
    {u : ℕ} (hu : u ≤ items.length) (hend : lowerBound items upper.item = items.length → u = items.length)
    (hsearch : StorageBase.findLowerBound base (lowerBound items lower.item) items.length upper = .ok u) :
    SubRange.make base lower upper = .ok
      { base, baseSize := items.length, subBegin := lowerBound items lower.item, subEnd := endOf items upper u
        subSize := usub (endOf items upper u) (lowerBound items lower.item) } := by
  have hok : ∀ {γ δ : Type} (x : γ) (f : γ → Except Err δ), (Except.ok x >>= f) = f x := fun _ _ => rfl
  have hbegin : ∀ {γ : Type} (f : ℕ → Except Err γ),
      (if lower.sameItem (Bound.ofTimestamp 0) then pure 0 >>= f
        else StorageBase.findLowerBound base 0 items.length lower >>= f) = f (lowerBound items lower.item) := by
    intro γ f
    split
    · next hzero =>
      have hlow : lowerBound items lower.item = 0 := by
        refine lowerBound_eq_zero hs.sorted fun x _ => ?_
        rw [show lower.item = (Bound.ofTimestamp 0).item by simpa [Bound.sameItem] using hzero]
        exact Bound.zero_le x
      rw [hlow]
      rfl
    · rw [hs.findLowerBound 0 lower (Nat.zero_le _)]
      rfl
  have hfound : ∀ {γ : Type} (f : ℕ → Except Err γ),
      (if upper.sameItem (Bound.ofTimestamp MAX_U64) then pure items.length >>= f
        else StorageBase.findLowerBound base (lowerBound items lower.item) items.length upper >>= f) = f u := by
    intro γ f
    split
    · next hinf =>
      have hall : lowerBound items upper.item = items.length := by
        refine lowerBound_eq_length hs.sorted fun x hx => ?_
        rw [show upper.item = (Bound.ofTimestamp MAX_U64).item by simpa [Bound.sameItem] using hinf]
        exact Item.lt_iff.mpr (Or.inl (hfin x hx))
      rw [hend hall]
      rfl
    · rw [hsearch]
      rfl
  have hlast : ∀ {γ : Type} (f : ℕ → Except Err γ),
      (if u ≠ items.length then StorageBase.getItem base u >>= fun item =>
          if (Bound.ofItem item).sameItem upper then pure (uadd u 1) >>= f else pure u >>= f
        else pure u >>= f) = f (endOf items upper u) := by
    intro γ f
    have hlen := hs.length_lt
    unfold endOf
    split
    · next hne =>
      have hlt : u < items.length := by omega
      rw [hs.getItem u hlt, hok, uadd_of_lt (by omega)]
      by_cases hsame : items[u] = upper.item
      · rw [if_pos (by simpa [Bound.sameItem] using hsame), if_pos (by simpa [List.getElem?_eq_getElem hlt] using hsame)]
        rfl
      · rw [if_neg (by simpa [Bound.sameItem] using hsame), if_neg (by simpa [List.getElem?_eq_getElem hlt] using hsame)]
        rfl
    · next hne =>
      obtain rfl : u = items.length := not_not.mp hne
      rw [if_neg (by simp)]
      rfl
  rw [SubRange.make, hs.size, hok]
  exact (hbegin _).trans ((hfound _).trans ((hlast _).trans rfl))

/-- What is at the positions of a window. -/
theorem exists_getItem_iff (hs : Reads base items fp) {b e : ℕ} (he : e ≤ items.length) (x : Item) :
    (∃ i, b ≤ i ∧ i < e ∧ StorageBase.getItem base i = .ok x) ↔ x ∈ slice items b e := by
  rw [mem_slice_iff he]
  constructor
  · rintro ⟨i, hbi, hie, hget⟩
    have hi : i < items.length := by omega
    rw [hs.getItem i hi, Except.ok.injEq] at hget
    exact ⟨i, hi, hbi, hie, hget⟩
  · rintro ⟨i, hi, hbi, hie, rfl⟩
    exact ⟨i, hbi, hie, hs.getItem i hi⟩

variable {s : Finset Item} {r : SubRange β} {lower upper : Bound}

/-- Bounds in order: the window has the upper bound in it if that is an item. -/
theorem SubRange.selects_of_le (hs : Presents base items fp) (hset : items.toFinset = s) (h : lower.item ≤ upper.item)
    (hbegin : r.subBegin = lowerBound items lower.item)
    (hend : r.subEnd = endOf items upper (lowerBound items upper.item)) :
    r.Selects base s lower upper ↔ upper.item ∉ s := by
  subst hset
  have hmono := lowerBound_mono hs.sorted h
  have hle := lowerBound_le_length items upper.item
  have hlen := endOf_le hle upper
  constructor
  · intro hsel hmem
    obtain ⟨i, hi, hget⟩ := List.mem_iff_getElem.mp (List.mem_toFinset.mp hmem)
    have hbefore : lowerBound items lower.item ≤ i := by
      rw [lowerBound_le_iff hs.sorted hi, hget]
      exact h
    have hwithin : i < endOf items upper (lowerBound items upper.item) := by
      rw [lt_endOf_iff hs.sorted hi, hget]
    have hin := (hsel.mem_iff upper.item).mp ⟨i, hbegin.trans_le hbefore, hwithin.trans_eq hend.symm, by rw [hs.getItem i hi, hget]⟩
    exact absurd hin.2.2 (lt_irrefl _)
  · intro hnot
    have hmiss : items[lowerBound items upper.item]? ≠ some upper.item := fun hfound =>
      hnot (List.mem_toFinset.mpr (List.mem_of_getElem? hfound))
    rw [endOf, if_neg hmiss] at hend
    refine ⟨by omega, ⟨_, hs.size, by omega⟩, fun x => ?_⟩
    rw [exists_getItem_iff hs.toReads (by omega), hbegin, hend, slice_lowerBound hs.sorted h, mem_within, List.mem_toFinset]

/-- Bounds in reverse order: the window has to be empty. -/
theorem SubRange.selects_of_lt (hs : Presents base items fp) (h : upper.item < lower.item) (hlen : r.subEnd ≤ items.length) :
    r.Selects base s lower upper ↔ r.subEnd = r.subBegin := by
  have hnone : ∀ x, ¬ (x ∈ s ∧ lower.item ≤ x ∧ x < upper.item) := fun x hx =>
    absurd (hx.2.1.trans_lt (hx.2.2.trans h)) (lt_irrefl _)
  constructor
  · intro hsel
    refine le_antisymm ?_ hsel.begin_le
    by_contra hlt
    have hi : r.subBegin < items.length := by omega
    exact hnone _ ((hsel.mem_iff _).mp ⟨r.subBegin, le_rfl, by omega, hs.getItem _ hi⟩)
  · intro heq
    refine ⟨heq.ge, ⟨_, hs.size, hlen⟩, fun x => iff_of_false ?_ (hnone x)⟩
    rintro ⟨i, hbi, hie, -⟩
    omega

end

/-- The item that the upper bound is stays in the window. Over a tree, besides, a reversed pair of bounds
has to have no item below both or none between them. -/
theorem subRange_selects_iff [Sha256] (lower upper : Bound) :
    (∀ (v : Vector) (s : Finset Item), v.Holds s → s.card < 2 ^ 64 → (∀ x ∈ s, x.timestamp < MAX_U64) →
      ∃ r, SubRange.make v lower upper = .ok r ∧
        (r.Selects v s lower upper ↔ ¬ (lower.item ≤ upper.item ∧ upper.item ∈ s))) ∧
    ∀ (cfg : Config) (ops : List BTreeMem.Op), (BTreeMem.itemsAfter ∅ ops).card < 2 ^ 64 →
      (∀ x ∈ BTreeMem.itemsAfter ∅ ops, x.timestamp < MAX_U64) →
      ∃ t, BTreeMem.run ({} : BTreeMem cfg) ops = .ok (BTreeMem.answers ∅ ops, t) ∧
      ∃ r, SubRange.make t lower upper = .ok r ∧
        (r.Selects t (BTreeMem.itemsAfter ∅ ops) lower upper ↔
          ¬ (lower.item ≤ upper.item ∧ upper.item ∈ BTreeMem.itemsAfter ∅ ops) ∧
          (upper.item < lower.item → (∀ x ∈ BTreeMem.itemsAfter ∅ ops, upper.item ≤ x) ∨
            ∀ x ∈ BTreeMem.itemsAfter ∅ ops, upper.item < x → lower.item ≤ x)) := by
  constructor
  · intro v s hv hcard hfin
    have hlen : v.items.length < 2 ^ 64 := by rwa [length_eq hv.sorted hv.toFinset]
    have hs := Vector.presents hv.isSealed hlen hv.sorted
    have hfin' : ∀ x ∈ v.items, x.timestamp < MAX_U64 := fun x hx =>
      hfin x (hv.toFinset ▸ List.mem_toFinset.mpr hx)
    have hll := lowerBound_le_length v.items lower.item
    have hul := lowerBound_le_length v.items upper.item
    have hsearch : StorageBase.findLowerBound v (lowerBound v.items lower.item) v.items.length upper = .ok _ :=
      Vector.findLowerBound_eq hv.isSealed hv.sorted hll le_rfl upper
    refine ⟨_, SubRange.make_eq hs hfin' (by omega) (by omega) hsearch, ?_⟩
    rcases le_or_gt lower.item upper.item with hle | hlt
    · have hmono := lowerBound_mono hv.sorted hle
      rw [SubRange.selects_of_le hs hv.toFinset hle rfl (by dsimp only; congr 1; omega)]
      simp [hle]
    · have hmono := lowerBound_mono hv.sorted hlt.le
      rw [SubRange.selects_of_lt hs hlt (endOf_le (by omega) upper)]
      dsimp only
      rw [Nat.min_eq_left hul, Nat.max_eq_left hmono, endOf_begin hv.sorted hlt]
      simp [not_le.mpr hlt]
  · intro cfg ops hcard hfin
    obtain ⟨t, levels, xs, hrun, h, hxs⟩ := BTreeMem.reachable cfg ops
    rw [← hxs] at hfin ⊢
    simp only [List.mem_toFinset] at hfin ⊢
    have hlen : xs.length < 2 ^ 64 := by rwa [length_eq h.sorted hxs]
    have hs := BTreeMem.presents h hlen
    have hll := lowerBound_le_length xs lower.item
    have hul := lowerBound_le_length xs upper.item
    have hsearch : StorageBase.findLowerBound t (lowerBound xs lower.item) xs.length upper =
        .ok (if lowerBound xs upper.item = 0 then lowerBound xs lower.item else lowerBound xs upper.item) := by
      refine (h.findLowerBound_ok hll le_rfl upper).trans (congrArg Except.ok ?_)
      rw [Nat.min_eq_left hul]
      split_ifs with hzero hnil
      · subst hnil
        rfl
      · rfl
      · rfl
    refine ⟨t, hrun, _, SubRange.make_eq hs hfin (by split_ifs <;> omega) (by split_ifs <;> omega) hsearch, ?_⟩
    rcases le_or_gt lower.item upper.item with hle | hlt
    · have hmono := lowerBound_mono h.sorted hle
      rw [SubRange.selects_of_le hs rfl hle rfl (by dsimp only; congr 1; split_ifs <;> omega)]
      simp [hle, not_lt.mpr hle]
    · rw [SubRange.selects_of_lt hs hlt (endOf_le (by split_ifs <;> omega) upper), ← lowerBound_eq_zero_iff h.sorted]
      simp only [not_le.mpr hlt, hlt, false_and, not_false_eq_true, true_and, true_implies]
      split_ifs with hzero
      · exact iff_of_true (endOf_begin h.sorted hlt) (Or.inl hzero)
      · rw [endOf_eq_iff h.sorted hlt]
        simp [hzero]

section

local instance windowsSha256 : Sha256 := SHA256.real

/-- The upper two of three items, up to infinity. -/
theorem subRange_selects_two :
    let v : Vector := { items := [⟨1, ItemId.zero⟩, ⟨2, ItemId.zero⟩, ⟨3, ItemId.zero⟩], isSealed := true }
    ∃ r, SubRange.make v (Bound.ofTimestamp 2) (Bound.ofTimestamp MAX_U64) = .ok r ∧
      r.Selects v v.items.toFinset (Bound.ofTimestamp 2) (Bound.ofTimestamp MAX_U64) := by
  intro v
  obtain ⟨r, hmake, hiff⟩ := (subRange_selects_iff (Bound.ofTimestamp 2) (Bound.ofTimestamp MAX_U64)).1 v v.items.toFinset
    ⟨rfl, by decide, rfl⟩ (by decide) (by decide)
  exact ⟨r, hmake, hiff.mpr (by decide)⟩

/-- The sub-range of two items up to the second one has both. -/
theorem subRange_selects_upper :
    let v : Vector := { items := [⟨1, ItemId.zero⟩, ⟨2, ItemId.zero⟩], isSealed := true }
    v.Holds v.items.toFinset ∧ ∃ r, SubRange.make v (Bound.ofTimestamp 1) (Bound.ofTimestamp 2) = .ok r ∧ r.subEnd = 2 ∧
      StorageBase.getItem v 1 = .ok ⟨2, ItemId.zero⟩ ∧
      ¬ r.Selects v v.items.toFinset (Bound.ofTimestamp 1) (Bound.ofTimestamp 2) := by
  intro v
  have hv : v.Holds v.items.toFinset := ⟨rfl, by decide, rfl⟩
  have hmake := @SubRange.make_eq _ _ _ _ _ (Vector.presents hv.isSealed (by decide) hv.sorted) (by decide)
    (Bound.ofTimestamp 1) (Bound.ofTimestamp 2) 1 (by decide) (by decide) rfl
  refine ⟨hv, _, hmake, by decide, rfl, fun hsel => ?_⟩
  have hin := (hsel.mem_iff ⟨2, ItemId.zero⟩).mp ⟨1, by decide, by decide, rfl⟩
  exact absurd hin.2.2 (by decide)

end

end NE.Storage
