import Negentropy.Storage.Agree
import Negentropy.Storage.SubRange

/-! A sub-range against a vector of its own that holds the same items. Over a vector it cannot be
told apart from it. Over a tree the two differ in a search whose window does not reach down to
where the base has the bound. -/

namespace NE.Storage

open BTree Sorted

/-- Size, items, iterations and fingerprints agree. -/
structure SameReads {σ τ : Type} [StorageBase σ] [StorageBase τ] (s : σ) (t : τ) (n : ℕ) : Prop where
  size_left : StorageBase.size s = .ok n
  size_right : StorageBase.size t = .ok n
  getItem : ∀ i < n, StorageBase.getItem s i = StorageBase.getItem t i
  iterate : ∀ {α : Type} b e (cb : α → Item → ℕ → α × Bool) (st : α),
    StorageBase.iterate s b e cb st = StorageBase.iterate t b e cb st
  fingerprint : ∀ b e, StorageBase.fingerprint s b e = StorageBase.fingerprint t b e

/-- Both read like the same array. -/
theorem sameReads {σ τ : Type} [StorageBase σ] [StorageBase τ] {s : σ} {t : τ} {items : List Item}
    {fp fp' : ℕ → ℕ → Fingerprint} (hs : Reads s items fp) (ht : Reads t items fp')
    (hfp : ∀ b e, b ≤ e → e ≤ items.length → fp b e = fp' b e) : SameReads s t items.length where
  size_left := hs.size
  size_right := ht.size
  getItem i hi := (hs.getItem i hi).trans (ht.getItem i hi).symm
  iterate b e cb st := (hs.iterate b e cb st).trans (ht.iterate b e cb st).symm
  fingerprint b e := by
    rw [hs.fingerprint, ht.fingerprint]
    split
    · next hbe => rw [hfp b e hbe.1 hbe.2]
    · rfl

/-! ### The window of a sub-range -/

/-- The indices that a callback is given, moved by the start of the window. -/
theorem iterateItems_shift {α : Type} (cb : α → Item → ℕ → α × Bool) {l : ℕ} (items : List Item) (b : ℕ) (st : α)
    (h : l + b + items.length ≤ 2 ^ 64) :
    iterateItems (fun st item index => cb st item (usub index l)) items (l + b) st = iterateItems cb items b st := by
  induction items generalizing b st with
  | nil => rfl
  | cons x items ih =>
    rw [List.length_cons] at h
    have hindex : usub (l + b) l = b := by
      rw [usub]
      omega
    rw [iterateItems, iterateItems, hindex]
    split
    · exact ih (b + 1) _ (by omega)
    · rfl

/-- What the constructor leaves. -/
structure SubRange.Window {β : Type} (r : SubRange β) (base : β) (items : List Item) : Prop where
  base_eq : r.base = base
  begin_le : r.subBegin ≤ r.subEnd
  end_le : r.subEnd ≤ items.length
  size_eq : r.subSize = r.subEnd - r.subBegin

section
variable {β : Type} [StorageBase β] {base : β} {items : List Item} {fp : ℕ → ℕ → Fingerprint}

theorem SubRange.make_ok (hs : Presents base items fp) {lower upper : Bound} (h : lower.item ≤ upper.item) :
    ∃ r, SubRange.make base lower upper = .ok r ∧ r.Window base items := by
  have hlen := hs.length_lt
  have hmono := lowerBound_mono hs.sorted h
  have hle := lowerBound_le_length items upper.item
  -- the start of the window
  obtain ⟨l, hl, hlu, hbegin⟩ : ∃ l, l ≤ lowerBound items upper.item ∧ l ≤ items.length ∧
      ∀ {γ : Type} (f : ℕ → Except Err γ),
        (if lower.sameItem (Bound.ofTimestamp 0) then pure 0 >>= f
          else StorageBase.findLowerBound base 0 items.length lower >>= f) = f l := by
    split
    · exact ⟨0, Nat.zero_le _, Nat.zero_le _, fun _ => rfl⟩
    · rw [hs.findLowerBound 0 lower (Nat.zero_le _)]
      exact ⟨_, hmono, hmono.trans hle, fun _ => rfl⟩
  -- its end, which moves behind an item that equals the upper bound
  obtain ⟨u, hlu', hu, hend⟩ : ∃ u, l ≤ u ∧ u ≤ items.length ∧
      ∀ {γ : Type} (f : ℕ → Except Err γ),
        (if upper.sameItem (Bound.ofTimestamp MAX_U64) then pure items.length >>= f
          else StorageBase.findLowerBound base l items.length upper >>= f) = f u := by
    split
    · exact ⟨_, hlu, le_rfl, fun _ => rfl⟩
    · rw [hs.findLowerBound l upper hl]
      exact ⟨_, hl, hle, fun _ => rfl⟩
  obtain ⟨u', hu', hend', hlast⟩ : ∃ u', u ≤ u' ∧ u' ≤ items.length ∧
      ∀ {γ : Type} (f : ℕ → Except Err γ),
        (if u ≠ items.length then StorageBase.getItem base u >>= fun item =>
            if (Bound.ofItem item).sameItem upper then pure (uadd u 1) >>= f else pure u >>= f
          else pure u >>= f) = f u' := by
    split
    · next hne =>
      rw [hs.getItem u (by omega), uadd_of_lt (by omega)]
      by_cases hsame : (Bound.ofItem items[u]).sameItem upper = true
      · exact ⟨u + 1, Nat.le_succ u, by omega, fun f => if_pos hsame⟩
      · exact ⟨u, le_rfl, hu, fun f => if_neg hsame⟩
    · exact ⟨u, le_rfl, hu, fun _ => rfl⟩
  refine ⟨⟨base, items.length, l, u', usub u' l⟩, ?_, ⟨rfl, by simp only; omega, hend', ?_⟩⟩
  · have hok : ∀ {γ δ : Type} (x : γ) (f : γ → Except Err δ), (Except.ok x >>= f) = f x := fun _ _ => rfl
    rw [SubRange.make, hs.size, hok]
    exact (hbegin _).trans ((hend _).trans ((hlast _).trans rfl))
  · change usub u' l = u' - l
    rw [usub]
    omega

variable {r : SubRange β}

/-- The window reads like the items in it. -/
theorem SubRange.Window.reads (hr : r.Window base items) (hs : Reads base items fp) :
    Reads r (slice items r.subBegin r.subEnd) (fun b e => fp (r.subBegin + b) (r.subBegin + e)) := by
  obtain ⟨rfl, hbe, he, hsize⟩ := hr
  have hlen := hs.length_lt
  have hslice : (slice items r.subBegin r.subEnd).length = r.subSize := by rw [slice_length items he, hsize]
  have hbounds : ∀ b e, r.checkBounds b e = if b ≤ e ∧ e ≤ r.subSize then .ok () else .error (.err "bad range") := by
    intro b e
    rw [SubRange.checkBounds]
    split_ifs <;> first | rfl | omega
  refine ⟨by omega, ?_, fun i hi => ?_, fun b e cb st => ?_, fun b e => ?_⟩
  · rw [hslice]
    rfl
  · change r.getItem i = _
    rw [hslice] at hi
    rw [SubRange.getItem, if_neg (by omega), uadd_of_lt (by omega)]
    change StorageBase.getItem r.base (r.subBegin + i) = _
    rw [hs.getItem _ (by omega), getElem_slice]
  · change r.iterate b e cb st = _
    rw [SubRange.iterate, hbounds, hslice]
    split
    · next h =>
      rw [uadd_of_lt (by omega), uadd_of_lt (by omega)]
      change StorageBase.iterate r.base _ _ _ _ = _
      rw [hs.iterate, if_pos (by omega), slice_slice items (by omega), iterateItems_shift]
      rw [slice_length items (by omega)]
      omega
    · rfl
  · change r.fingerprint b e = _
    rw [SubRange.fingerprint, hbounds, hslice]
    split
    · next h =>
      rw [uadd_of_lt (by omega), uadd_of_lt (by omega)]
      change StorageBase.fingerprint r.base _ _ = _
      rw [hs.fingerprint, if_pos (by omega)]
    · rfl

/-- A vector of the items in the window. -/
theorem SubRange.Window.sameReads [Sha256] (hr : r.Window base items)
    (hs : Reads base items (fun b e => fingerprintOf (slice items b e))) {w : Vector} (hw : w.isSealed = true)
    (hitems : w.items = slice items r.subBegin r.subEnd) : SameReads r w r.subSize := by
  have hreads := hr.reads hs
  have hlen := slice_length items hr.end_le (b := r.subBegin)
  have hvec := Vector.reads hw (hitems ▸ hreads.length_lt)
  rw [hitems] at hvec
  have hle := hr.begin_le
  have hsame := Storage.sameReads hreads hvec fun b e hbe he => by
    rw [slice_slice items (by omega)]
  rwa [hlen, ← hr.size_eq] at hsame

omit [StorageBase β] in
/-- What a vector of the items in the window answers to a search. -/
theorem SubRange.Window.search_eq (hr : r.Window base items) (hsorted : items.Pairwise (· < ·)) {w : Vector}
    (hw : w.isSealed = true) (hitems : w.items = slice items r.subBegin r.subEnd) {b e : ℕ} (hbe : b ≤ e)
    (he : e ≤ r.subSize) (bound : Bound) :
    w.findLowerBound b e bound =
      .ok (max (r.subBegin + b) (min (lowerBound items bound.item) (r.subBegin + e)) - r.subBegin) := by
  obtain ⟨-, hle, hend, hsize⟩ := hr
  have hlen := slice_length items hend (b := r.subBegin)
  have hsub : w.items.Pairwise (· < ·) := by
    rw [hitems]
    exact hsorted.sublist ((List.take_sublist _ _).trans (List.drop_sublist _ _))
  have hsl := lowerBound_slice hsorted (k := bound.item) hle hend
  rw [Vector.findLowerBound_eq hw hsub hbe (by rw [hitems]; omega), hitems]
  congr 1
  omega

/-- A vector's search stays in its window, so it is the same in the sub-range. -/
theorem SubRange.Window.vector_search {v w : Vector} {r : SubRange Vector} [Sha256] (hr : r.Window v v.items)
    (hv : v.isSealed = true) (hsorted : v.items.Pairwise (· < ·)) (hlen : v.items.length < 2 ^ 64)
    (hw : w.isSealed = true) (hitems : w.items = slice v.items r.subBegin r.subEnd) {b e : ℕ} (hbe : b ≤ e)
    (he : e ≤ r.subSize) (bound : Bound) : r.findLowerBound b e bound = w.findLowerBound b e bound := by
  have hsearch := hr.search_eq hsorted hw hitems hbe he bound
  obtain ⟨rfl, hle, hend, hsize⟩ := hr
  have hin : StorageBase.findLowerBound r.base (r.subBegin + b) (r.subBegin + e) bound = _ :=
    Vector.findLowerBound_eq hv hsorted (Nat.add_le_add_left hbe _) (by omega) bound
  rw [hsearch, SubRange.findLowerBound, SubRange.checkBounds, if_neg (by omega), uadd_of_lt (by omega), uadd_of_lt (by omega), hin]
  change Except.ok (min (usub _ _) _) = Except.ok _
  rw [usub]
  congr 1
  omega

/-- How many items of the base are below the bound decides whether a tree's search is the right one. It
is not if there are some but not all up to the start of the window, unless the window is the empty one
at the end of the sub-range and the bound is below its start. -/
def SearchAgrees (below subBegin subSize begin_ : ℕ) : Prop :=
  below = 0 ∨ subBegin + begin_ ≤ below ∨ below < subBegin ∧ begin_ = subSize

theorem SubRange.Window.tree_search {cfg : Config} {t : BTreeMem cfg} {w : Vector} {r : SubRange (BTreeMem cfg)} [Sha256]
    {levels : List (List (Levels.Entry Item))} (hr : r.Window t items) (h : Represents cfg t levels items)
    (hlen : items.length < 2 ^ 64) (hw : w.isSealed = true) (hitems : w.items = slice items r.subBegin r.subEnd) {b e : ℕ}
    (hbe : b ≤ e) (he : e ≤ r.subSize) (bound : Bound) :
    r.findLowerBound b e bound = w.findLowerBound b e bound ↔
      SearchAgrees (lowerBound items bound.item) r.subBegin r.subSize b := by
  have hsearch := hr.search_eq h.sorted hw hitems hbe he bound
  have hbelow := lowerBound_le_length items bound.item
  obtain ⟨rfl, hle, hend, hsize⟩ := hr
  have hin : StorageBase.findLowerBound r.base (r.subBegin + b) (r.subBegin + e) bound = _ :=
    h.findLowerBound_ok (Nat.add_le_add_left hbe _) (by omega) bound
  have hempty : items = [] → e = b := by
    rintro rfl
    simp only [List.length_nil] at hend
    omega
  rw [hsearch, SubRange.findLowerBound, SubRange.checkBounds, if_neg (by omega), uadd_of_lt (by omega), uadd_of_lt (by omega), hin]
  change Except.ok (min (usub _ _) _) = Except.ok _ ↔ _
  rw [Except.ok.injEq, SearchAgrees, usub]
  split_ifs with hzero hnil
  · have := hempty hnil
    omega
  · omega
  · omega

/-- A sub-range of a vector stands for a vector of its own. One of a tree does in everything but the
searches that the tree answers with a position before their window. -/
theorem subRange_standalone [Sha256] {lower upper : Bound} (hle : lower.item ≤ upper.item) :
    (∀ (v : Vector) (s : Finset Item), v.Holds s → s.card < 2 ^ 64 →
      ∃ r, SubRange.make v lower upper = .ok r ∧
        ∀ w : Vector, w.isSealed = true → w.items = slice (s.sort (· ≤ ·)) r.subBegin r.subEnd →
          SameReads r w r.subSize ∧
          ∀ b e bound, b ≤ e → e ≤ r.subSize → r.findLowerBound b e bound = w.findLowerBound b e bound) ∧
    (∀ (cfg : Config) (ops : List BTreeMem.Op), (BTreeMem.itemsAfter ∅ ops).card < 2 ^ 64 →
      ∃ t, BTreeMem.run ({} : BTreeMem cfg) ops = .ok (BTreeMem.answers ∅ ops, t) ∧
      ∃ r, SubRange.make t lower upper = .ok r ∧
        ∀ w : Vector, w.isSealed = true →
          w.items = slice ((BTreeMem.itemsAfter ∅ ops).sort (· ≤ ·)) r.subBegin r.subEnd →
          SameReads r w r.subSize ∧
          ∀ b e bound, b ≤ e → e ≤ r.subSize → (r.findLowerBound b e bound = w.findLowerBound b e bound ↔
            SearchAgrees (lowerBound ((BTreeMem.itemsAfter ∅ ops).sort (· ≤ ·)) bound.item) r.subBegin r.subSize b)) := by
  constructor
  · intro v s hv hcard
    have hsort := sort_eq hv.sorted hv.toFinset
    have hlen : v.items.length < 2 ^ 64 := by rwa [length_eq hv.sorted hv.toFinset]
    have hpresents := Vector.presents hv.isSealed hlen hv.sorted
    obtain ⟨r, hmake, hr⟩ := SubRange.make_ok hpresents hle
    refine ⟨r, hmake, fun w hw hitems => ?_⟩
    rw [hsort] at hitems
    exact ⟨hr.sameReads hpresents.toReads hw hitems,
      fun b e bound hbe he => hr.vector_search hv.isSealed hv.sorted hlen hw hitems hbe he bound⟩
  · intro cfg ops hcard
    obtain ⟨t, levels, xs, hrun, h, hxs⟩ := BTreeMem.reachable cfg ops
    have hsort := sort_eq h.sorted hxs
    have hlen : xs.length < 2 ^ 64 := by rwa [length_eq h.sorted hxs]
    have hpresents := BTreeMem.presents h hlen
    obtain ⟨r, hmake, hr⟩ := SubRange.make_ok hpresents hle
    refine ⟨t, hrun, r, hmake, fun w hw hitems => ?_⟩
    rw [hsort] at hitems ⊢
    exact ⟨hr.sameReads hpresents.toReads hw hitems, fun b e bound hbe he => hr.tree_search h hlen hw hitems hbe he bound⟩

end

section

local instance standaloneSha256 : Sha256 := SHA256.real

/-- The upper two of three items. -/
theorem subRange_standalone_two :
    let v : Vector := { items := [⟨1, ItemId.zero⟩, ⟨2, ItemId.zero⟩, ⟨3, ItemId.zero⟩], isSealed := true }
    ∃ r, SubRange.make v (Bound.ofTimestamp 2) (Bound.ofTimestamp MAX_U64) = .ok r ∧ r.subBegin = 1 ∧
      r.findLowerBound 0 2 (Bound.ofTimestamp 1) = .ok 0 := by
  intro v
  obtain ⟨r, hmake, hr⟩ := (@subRange_standalone _ (Bound.ofTimestamp 2) (Bound.ofTimestamp MAX_U64) (by decide)).1 v
    v.items.toFinset ⟨rfl, by decide, rfl⟩ (by decide)
  have hwindow : (SubRange.make v (Bound.ofTimestamp 2) (Bound.ofTimestamp MAX_U64)).toOption.map
      (fun r => (r.subBegin, r.subEnd, r.subSize)) = some (1, 3, 2) := by decide +kernel
  rw [hmake] at hwindow
  simp only [Except.toOption, Option.map_some, Option.some.injEq, Prod.mk.injEq] at hwindow
  obtain ⟨hbegin, hend, hsize⟩ := hwindow
  have hsearch := (hr { items := [⟨2, ItemId.zero⟩, ⟨3, ItemId.zero⟩], isSealed := true } rfl (by
    rw [sort_eq (by decide) rfl, hbegin, hend]
    rfl)).2 0 2 (Bound.ofTimestamp 1) (Nat.zero_le 2) hsize.ge
  exact ⟨r, hmake, hbegin, hsearch.trans rfl⟩

/-- A tree of three items and the sub-range of the last one: the bound falls between the first
item and the sub-range, and the search answers with the end of the window. -/
theorem subRange_search_wraps :
    ∃ t r, BTreeMem.run ({} : BTreeMem Config.fuzzTest)
        [.insertItem ⟨1, ItemId.zero⟩, .insertItem ⟨2, ItemId.zero⟩, .insertItem ⟨3, ItemId.zero⟩] =
          .ok ([true, true, true], t) ∧
      SubRange.make t (Bound.ofTimestamp 3) (Bound.ofTimestamp MAX_U64) = .ok r ∧ r.subBegin = 2 ∧ r.subEnd = 3 ∧
      r.findLowerBound 0 1 (Bound.ofTimestamp 2) = .ok 1 ∧
      Vector.findLowerBound { items := [⟨3, ItemId.zero⟩], isSealed := true } 0 1 (Bound.ofTimestamp 2) = .ok 0 := by
  obtain ⟨t, levels, hrun, h⟩ := BTreeMem.reachable_holds Config.fuzzTest
    [.insertItem ⟨1, ItemId.zero⟩, .insertItem ⟨2, ItemId.zero⟩, .insertItem ⟨3, ItemId.zero⟩]
    (v := { items := [⟨1, ItemId.zero⟩, ⟨2, ItemId.zero⟩, ⟨3, ItemId.zero⟩], isSealed := true })
    ⟨rfl, by decide, by decide⟩
  have hsize : StorageBase.size t = .ok 3 := h.size_ok
  have hlow : StorageBase.findLowerBound t 0 3 (Bound.ofTimestamp 3) = .ok 2 :=
    (h.findLowerBound_ok (Nat.zero_le 3) le_rfl _).trans (congrArg Except.ok (by decide))
  have hsearch : StorageBase.findLowerBound t 2 3 (Bound.ofTimestamp 2) = .ok 1 :=
    (h.findLowerBound_ok (by decide) le_rfl _).trans (congrArg Except.ok (by decide))
  refine ⟨t, ⟨t, 3, 2, 3, 1⟩, hrun, ?_, rfl, rfl, ?_, rfl⟩
  · rw [SubRange.make, hsize]
    change (StorageBase.findLowerBound t 0 3 (Bound.ofTimestamp 3) >>= _) = _
    rw [hlow]
    rfl
  · rw [SubRange.findLowerBound]
    change (StorageBase.findLowerBound t 2 3 (Bound.ofTimestamp 2) >>= _) = _
    rw [hsearch]
    exact congrArg Except.ok (show min (usub 1 2) 1 = 1 by decide)

end

end NE.Storage
