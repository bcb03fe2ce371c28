import Negentropy.Js.Accumulator
import Negentropy.Js.Order
import Negentropy.Js.Varint
import Negentropy.Storage.Vector

/-! What JavaScript holds where C++ holds an item, a bound or a sealed vector, and that it
answers the same: comparisons, searches, iterations and fingerprints. -/

namespace NE.Js

open Sorted

/-! ### Timestamps -/

/-- A timestamp as a Number; infinity is another one there. -/
def number (t : UInt64) : ℤ := if t = MAX_U64 then MAX_VALUE else t.toNat

theorem toNat_lt_max {t : UInt64} (h : t ≠ MAX_U64) : t.toNat < 2 ^ 64 - 1 := by
  have hlt := t.toNat_lt
  have hne : t.toNat ≠ 2 ^ 64 - 1 := fun heq => h (UInt64.toNat_inj.mp heq)
  omega

theorem lt_MAX_VALUE : (2 ^ 64 : ℤ) < MAX_VALUE := by
  have hpow : (2 : ℤ) ^ 64 ≤ 2 ^ 971 := pow_le_pow_right₀ one_le_two (by decide)
  unfold MAX_VALUE
  generalize (2 : ℤ) ^ 971 = unit at hpow ⊢
  omega

theorem number_of_ne {t : UInt64} (h : t ≠ MAX_U64) : number t = t.toNat := if_neg h

theorem number_max : number MAX_U64 = MAX_VALUE := if_pos rfl

theorem number_lt_iff (t u : UInt64) : number t < number u ↔ t < u := by
  have hbig := lt_MAX_VALUE
  rw [UInt64.lt_iff_toNat_lt]
  have hmax : MAX_U64.toNat = 2 ^ 64 - 1 := rfl
  by_cases ht : t = MAX_U64 <;> by_cases hu : u = MAX_U64
  · subst ht hu
    simp
  · subst ht
    have hlt := toNat_lt_max hu
    rw [number_max, number_of_ne hu, hmax]
    omega
  · subst hu
    have hlt := toNat_lt_max ht
    rw [number_max, number_of_ne ht, hmax]
    omega
  · rw [number_of_ne ht, number_of_ne hu]
    omega

theorem number_inj {t u : UInt64} : number t = number u ↔ t = u := by
  constructor
  · intro h
    have h1 := (number_lt_iff t u).not.mp h.not_lt
    have h2 := (number_lt_iff u t).not.mp h.symm.not_lt
    exact UInt64.le_antisymm (UInt64.not_lt.mp h2) (UInt64.not_lt.mp h1)
  · rintro rfl
    rfl

/-! ### Items and bounds -/

def ofItem (x : NE.Item) : Item := ⟨number x.timestamp, x.id.bytes⟩

/-- A bound keeps as much of the id as is sent. -/
def ofBound (b : NE.Bound) : Bound := ⟨number b.item.timestamp, b.idPrefix⟩

/-- Zeros behind the shorter of two lists do not change which is smaller. -/
theorem lt_padded_iff {a p : Bytes} {n : ℕ} (hlen : a.length = p.length + n) :
    a < p ++ List.replicate n 0 ↔ a < p := by
  induction p generalizing a with
  | nil =>
    have hn : n = a.length := by simpa using hlen.symm
    subst hn
    exact iff_of_false (by simpa using not_lt_replicate_zero a) (List.not_lt_nil a)
  | cons y p ih =>
    cases a with
    | nil =>
      simp only [List.length_nil, List.length_cons] at hlen
      omega
    | cons x a =>
      have hlen' : a.length = p.length + n := by
        simp only [List.length_cons] at hlen
        omega
      rw [List.cons_append, List.cons_lt_cons_iff, List.cons_lt_cons_iff, ih hlen']

theorem before_ofBound_iff (x : NE.Item) (b : NE.Bound) : (ofItem x).Before (ofBound b) ↔ x < b.item := by
  have hid : b.item.id.bytes = b.idPrefix ++ List.replicate (ID_SIZE - b.idLen) 0 := by
    rw [Bound.idPrefix, ← b.zero_padded, List.take_append_drop]
  have hlen : x.id.bytes.length = b.idPrefix.length + (ID_SIZE - b.idLen) := by
    have := b.idLen_le
    rw [x.id.length_eq, b.idPrefix_length]
    omega
  unfold Item.Before ofItem ofBound
  rw [NE.Item.lt_iff, ItemId.lt_def, hid, lt_padded_iff hlen, number_lt_iff, number_inj]

/-- An item is compared with a bound as in C++. -/
theorem itemCompare_bound_iff (x : NE.Item) (b : NE.Bound) : itemCompare (ofItem x) (ofBound b) < 0 ↔ x < b.item := by
  rw [itemCompare_neg_iff, before_ofBound_iff]

theorem before_ofItem_iff (x y : NE.Item) : (ofItem x).Before (ofItem y) ↔ x < y := by
  unfold Item.Before ofItem
  rw [NE.Item.lt_iff, ItemId.lt_def, number_lt_iff, number_inj]

theorem sharedPrefixBytes_eq (a b : Bytes) : Negentropy.sharedPrefixBytes a b = NE.Negentropy.sharedPrefixBytes a b := by
  induction a generalizing b with
  | nil => cases b <;> rfl
  | cons x a ih =>
    cases b with
    | nil => rfl
    | cons y b => simp only [Negentropy.sharedPrefixBytes, NE.Negentropy.sharedPrefixBytes, ih]

theorem ofBound_ofPrefix (t : UInt64) (id : Bytes) (h : id.length ≤ ID_SIZE) :
    ofBound (Bound.ofPrefix t id h) = ⟨number t, id⟩ := by
  have hprefix : (Bound.ofPrefix t id h).idPrefix = id := by
    change (id ++ List.replicate (ID_SIZE - id.length) 0).take id.length = id
    exact List.take_left' rfl
  rw [ofBound, hprefix]
  rfl

theorem ofBound_ofTimestamp (t : UInt64) : ofBound (Bound.ofTimestamp t) = bound (number t) := ofBound_ofPrefix t [] _

theorem ofBound_ofItem (x : NE.Item) : ofBound (Bound.ofItem x) = ofItem x := by
  have hlen := x.id.length_eq
  simp only [ofBound, ofItem, Bound.ofItem, Bound.idPrefix]
  rw [← hlen, List.take_length]

theorem getMinimalBound_eq (prev curr : NE.Item) :
    Negentropy.getMinimalBound (ofItem prev) (ofItem curr) = ofBound (NE.Negentropy.getMinimalBound prev curr) := by
  unfold Negentropy.getMinimalBound NE.Negentropy.getMinimalBound
  by_cases hts : curr.timestamp = prev.timestamp
  · have hnum : (ofItem curr).timestamp = (ofItem prev).timestamp := number_inj.mpr hts
    rw [if_neg (not_not.mpr hnum), if_neg (not_not.mpr hts), sharedPrefixBytes_eq, ofBound_ofPrefix]
    rfl
  · have hnum : (ofItem curr).timestamp ≠ (ofItem prev).timestamp := fun h => hts (number_inj.mp h)
    rw [if_pos hnum, if_pos hts, ofBound_ofTimestamp]
    rfl

/-! ### Sealed vectors -/

/-- The loop of the search finds the place where the comparison stops to hold. -/
theorem binarySearchFrom_eq {arr : List Item} {cmp : Item → Bool} {g : ℕ} (hg : ∀ i (hi : i < arr.length), cmp arr[i] = true ↔ i < g) :
    ∀ rounds first count, count ≤ rounds → first + count ≤ arr.length →
      NegentropyStorageVector.binarySearchFrom arr cmp rounds first count = max first (min g (first + count)) := by
  intro rounds
  induction rounds with
  | zero =>
    intro first count hcount _
    rw [NegentropyStorageVector.binarySearchFrom]
    omega
  | succ rounds ih =>
    intro first count hcount hlen
    rw [NegentropyStorageVector.binarySearchFrom]
    split
    · next hpos =>
      have hit : first + count / 2 < arr.length := by omega
      have hcmp : arr[first + count / 2]?.any cmp = true ↔ first + count / 2 < g := by
        rw [List.getElem?_eq_getElem hit, Option.any_some, hg]
      dsimp only
      split
      · next hbelow =>
        have hlt := hcmp.mp hbelow
        rw [ih _ _ (by omega) (by omega)]
        omega
      · next habove =>
        have hge := hcmp.not.mp habove
        rw [ih _ _ (by omega) (by omega)]
        omega
    · omega

theorem iterateItems_eq {α : Type} (cb : α → Item → ℕ → α × Bool) (items : List NE.Item) (b : ℕ) (st : α) :
    iterateItems cb (items.map ofItem) b st = NE.iterateItems (fun st item index => cb st (ofItem item) index) items b st := by
  induction items generalizing b st with
  | nil => rfl
  | cons x items ih =>
    rw [List.map_cons, iterateItems, NE.iterateItems]
    generalize cb st (ofItem x) b = r
    obtain ⟨st', _ | _⟩ := r
    · rfl
    · exact ih _ _

/-- The same items, sealed or not. -/
def ofVector (v : NE.Storage.Vector) : NegentropyStorageVector := ⟨v.items.map ofItem, v.isSealed⟩

section
variable {v : NE.Storage.Vector} (hv : v.isSealed = true)
include hv

theorem checkSealed_ofVector : (ofVector v).checkSealed = .ok () := if_pos hv

omit hv in
theorem checkBounds_ofVector (b e : ℕ) : (ofVector v).checkBounds b e =
    if b ≤ e ∧ e ≤ v.items.length then .ok () else .error (.error "bad range") := by
  unfold NegentropyStorageVector.checkBounds ofVector
  rw [List.length_map]
  split_ifs <;> first | rfl | omega

theorem size_ofVector : (ofVector v).size = .ok v.items.length := by
  unfold NegentropyStorageVector.size
  rw [checkSealed_ofVector hv]
  exact congrArg Except.ok (List.length_map _)

theorem iterate_ofVector {α : Type} {b e : ℕ} (hbe : b ≤ e) (he : e ≤ v.items.length) (cb : α → Item → ℕ → α × Bool) (st : α) :
    (ofVector v).iterate b e cb st =
      .ok (NE.iterateItems (fun st item index => cb st (ofItem item) index) (slice v.items b e) b st) := by
  unfold NegentropyStorageVector.iterate
  rw [checkSealed_ofVector hv, checkBounds_ofVector, if_pos ⟨hbe, he⟩, ← iterateItems_eq, slice, List.map_take, List.map_drop]
  rfl

/-- A search finds what `std::lower_bound` finds. -/
theorem findLowerBound_ofVector (hsorted : v.items.Pairwise (· < ·)) {b e : ℕ} (hbe : b ≤ e) (he : e ≤ v.items.length)
    (bound : NE.Bound) :
    (ofVector v).findLowerBound b e (ofBound bound) = .ok (max b (min (lowerBound v.items bound.item) e)) := by
  unfold NegentropyStorageVector.findLowerBound
  rw [checkSealed_ofVector hv, checkBounds_ofVector, if_pos ⟨hbe, he⟩]
  have hg : ∀ i (hi : i < (ofVector v).items.length),
      decide (itemCompare (ofVector v).items[i] (ofBound bound) < 0) = true ↔ i < lowerBound v.items bound.item := by
    intro i hi
    have hi' : i < v.items.length := by simpa [ofVector] using hi
    have hget : (ofVector v).items[i] = ofItem v.items[i] := List.getElem_map _
    rw [decide_eq_true_iff, hget, itemCompare_bound_iff, lt_lowerBound_iff hsorted hi']
  have hlen : (ofVector v).items.length = v.items.length := List.length_map _
  refine congrArg Except.ok ((binarySearchFrom_eq hg (e - b) b (e - b) le_rfl (by omega)).trans ?_)
  omega

variable [Sha256]

omit hv [Sha256] in
/-- The same sum of ids. -/
theorem foldl_add_eq (items : List NE.Item) (a : NE.Accumulator) :
    items.foldl (fun (out : Accumulator) x => out.add (ofItem x).id) ⟨a.buf, a.length_eq⟩ =
      ⟨(items.foldl NE.Accumulator.addItem a).buf, (items.foldl NE.Accumulator.addItem a).length_eq⟩ := by
  induction items generalizing a with
  | nil => rfl
  | cons x items ih =>
    have hadd : (⟨a.buf, a.length_eq⟩ : Accumulator).add (ofItem x).id = ⟨(a.addItem x).buf, (a.addItem x).length_eq⟩ :=
      Accumulator.ext (Accumulator.add_eq a ⟨x.id.bytes, x.id.length_eq⟩)
    rw [List.foldl_cons, hadd, ih]
    rfl

theorem fingerprint_ofVector {b e : ℕ} (hbe : b ≤ e) (he : e ≤ v.items.length) (hlen : e - b < 2 ^ 32) :
    (ofVector v).fingerprint b e = .ok (fingerprintOf (slice v.items b e)).buf := by
  have hcount : (e : ℤ) - b = (e - b : ℕ) := by omega
  unfold NegentropyStorageVector.fingerprint
  rw [iterate_ofVector hv hbe he, NE.iterateItems_fold (fun (out : Accumulator) x => out.add (ofItem x).id)]
  refine congrArg Except.ok ?_
  unfold Accumulator.getFingerprint fingerprintOf NE.Accumulator.getFingerprint
  rw [hcount, encodeVarInt_eq _ hlen, slice_length v.items he]
  rw [show (Accumulator.setToZero : Accumulator) = ⟨NE.Accumulator.setToZero.buf, NE.Accumulator.setToZero.length_eq⟩ from rfl,
    foldl_add_eq]

end

end NE.Js
