import Negentropy.Lib.Rbsr.Divide
import Negentropy.Respond

/-! Splitting a range: the minimal bound between two neighbours separates them, so that the
ranges of `Party.splitRange` are about the items they should be about. -/

namespace NE

open Sorted

/-! ### Minimal bounds -/

/-- A list cut after its first byte that differs from a smaller one, and padded, lies between
the two. -/
theorem padded_prefix_between {curr prev : Bytes} (hlen : curr.length = prev.length) (hlt : prev < curr) :
    let keep := Negentropy.sharedPrefixBytes curr prev + 1
    let padded := curr.take keep ++ List.replicate (curr.length - keep) 0
    prev < padded ∧ padded ≤ curr := by
  induction curr generalizing prev with
  | nil => exact absurd hlt (List.not_lt_nil prev)
  | cons x curr ih =>
    cases prev with
    | nil => cases hlen
    | cons y prev =>
      simp only [List.length_cons, Nat.add_right_cancel_iff] at hlen
      rw [List.cons_lt_cons_iff] at hlt
      by_cases hxy : x = y
      · subst hxy
        have hlt' : prev < curr := (hlt.resolve_left (UInt8.lt_irrefl x)).2
        obtain ⟨h1, h2⟩ := ih hlen hlt'
        simp only [Negentropy.sharedPrefixBytes, if_true, List.take_succ_cons, List.length_cons,
          Nat.add_sub_add_right, List.cons_append]
        exact ⟨List.cons_lt_cons_self.mpr h1, List.cons_le_cons_iff.mpr (.inr ⟨rfl, h2⟩)⟩
      · have hyx : y < x := hlt.resolve_right fun h => hxy h.1.symm
        simp only [Negentropy.sharedPrefixBytes, hxy, if_false, List.take_succ_cons, List.take_zero,
          List.length_cons, Nat.add_sub_cancel, List.singleton_append, Nat.zero_add]
        refine ⟨List.cons_lt_cons_iff.mpr (.inl hyx), List.cons_le_cons_iff.mpr (.inr ⟨rfl, ?_⟩)⟩
        exact List.not_lt.mp (not_lt_replicate_zero curr)

theorem minimalBound_between {prev curr : Item} (h : prev < curr) :
    prev < (Negentropy.getMinimalBound prev curr).item ∧ (Negentropy.getMinimalBound prev curr).item ≤ curr := by
  by_cases hts : curr.timestamp = prev.timestamp
  · have hid : prev.id < curr.id := by
      rcases Item.lt_iff.mp h with h | h
      · exact absurd (hts ▸ h) (UInt64.lt_irrefl _)
      · exact h.2
    have hbetween := padded_prefix_between (curr.id.length_eq.trans prev.id.length_eq.symm) hid
    simp only at hbetween
    have hkeep : ∀ n, ID_SIZE - (curr.id.bytes.take n).length = curr.id.bytes.length - n := by
      intro n
      rw [List.length_take, curr.id.length_eq]
      omega
    have hid' : (Negentropy.getMinimalBound prev curr).item.id.bytes =
        curr.id.bytes.take (Negentropy.sharedPrefixBytes curr.id.bytes prev.id.bytes + 1) ++
          List.replicate (curr.id.bytes.length - (Negentropy.sharedPrefixBytes curr.id.bytes prev.id.bytes + 1)) 0 := by
      rw [Negentropy.getMinimalBound, if_neg (not_not.mpr hts)]
      simp only [Bound.ofPrefix, ItemId.ofPrefix, hkeep]
    have hts' : (Negentropy.getMinimalBound prev curr).item.timestamp = curr.timestamp := by
      rw [Negentropy.getMinimalBound, if_neg (not_not.mpr hts)]
      rfl
    rw [Item.lt_iff, Item.le_iff, ItemId.lt_def, hts', hid']
    exact ⟨.inr ⟨hts.symm, hbetween.1⟩, .inr ⟨rfl, show _ ≤ curr.id.bytes from hid' ▸ hbetween.2⟩⟩
  · have hlt : prev.timestamp < curr.timestamp := by
      rcases Item.lt_iff.mp h with h | h
      · exact h
      · exact absurd h.1.symm hts
    rw [Negentropy.getMinimalBound, if_pos hts]
    exact ⟨Item.lt_of_timestamp_lt hlt, Item.le_iff.mpr (.inr ⟨rfl, ItemId.zero_le curr.id⟩)⟩

/-- Up to the first byte that differs the ids are the same. -/
theorem take_sharedPrefixBytes {currKey prevKey : Bytes} {k : ℕ} (hk : k ≤ Negentropy.sharedPrefixBytes currKey prevKey) :
    currKey.take k = prevKey.take k := by
  induction k generalizing currKey prevKey with
  | zero => rfl
  | succ k ih =>
    cases currKey with
    | nil => exact absurd hk (Nat.not_succ_le_zero k)
    | cons x currKey =>
      cases prevKey with
      | nil => exact absurd hk (Nat.not_succ_le_zero k)
      | cons y prevKey =>
        unfold Negentropy.sharedPrefixBytes at hk
        split at hk
        · next hxy =>
          rw [hxy, List.take_succ_cons, List.take_succ_cons, ih (Nat.le_of_succ_le_succ hk)]
        · exact absurd hk (Nat.not_succ_le_zero k)

/-- A list is not below what is left of it when its end is put to zero. -/
theorem padded_take_le (l : Bytes) (k : ℕ) : l.take k ++ List.replicate (l.length - k) 0 ≤ l := by
  induction l generalizing k with
  | nil => simp
  | cons x l ih =>
    cases k with
    | zero => exact List.not_lt.mp (not_lt_replicate_zero _)
    | succ k =>
      simp only [List.take_succ_cons, List.length_cons, Nat.add_sub_add_right, List.cons_append]
      exact List.cons_le_cons_iff.mpr (.inr ⟨rfl, ih k⟩)

/-- The minimal bound separates two neighbours, so that a search for it stops between them, and no shorter
prefix of the second one's id does. -/
theorem minimalBound_shortest {prev curr : Item} (h : prev < curr) :
    let b := Negentropy.getMinimalBound prev curr
    prev < b.item ∧ b.item ≤ curr ∧ lowerBound [prev, curr] b.item = 1 ∧ b.idLen ≤ ID_SIZE ∧
      ∀ b' : Bound, b'.item.timestamp = curr.timestamp → b'.idPrefix <+: curr.id.bytes → b'.idLen < b.idLen →
        ¬ (prev < b'.item ∧ b'.item ≤ curr) := by
  intro b
  obtain ⟨h1, h2⟩ := minimalBound_between h
  refine ⟨h1, h2, ?_, b.idLen_le, fun b' hts hprefix hlen hsep => ?_⟩
  · simp [lowerBound, b, h1, h2]
  · have hb : b = Negentropy.getMinimalBound prev curr := rfl
    rw [Negentropy.getMinimalBound] at hb
    split at hb
    · rw [hb] at hlen
      exact absurd hlen (Nat.not_lt_zero _)
    · next hsame =>
      rw [not_not] at hsame
      have hk : b'.idLen ≤ Negentropy.sharedPrefixBytes curr.id.bytes prev.id.bytes := by
        rw [hb] at hlen
        change b'.idLen < (curr.id.bytes.take _).length at hlen
        rw [List.length_take] at hlen
        omega
      have htake : b'.idPrefix = prev.id.bytes.take b'.idLen := by
        rw [← take_sharedPrefixBytes hk]
        exact (List.prefix_iff_eq_take.mp hprefix).trans (by rw [b'.idPrefix_length])
      have hid : b'.item.id ≤ prev.id := by
        have hbytes : b'.item.id.bytes = b'.idPrefix ++ List.replicate (ID_SIZE - b'.idLen) 0 := by
          rw [Bound.idPrefix, ← b'.zero_padded, List.take_append_drop]
        change b'.item.id.bytes ≤ prev.id.bytes
        rw [hbytes, htake, ← prev.id.length_eq]
        exact padded_take_le prev.id.bytes b'.idLen
      exact absurd hsep.1 (not_lt_of_ge (Item.le_iff.mpr (.inr ⟨hts.trans hsame, hid⟩)))

/-- Two ids that differ in their last byte only. -/
theorem minimalBound_shortest_last :
    let prev : Item := ⟨7, ItemId.zero⟩
    let curr : Item := ⟨7, ⟨List.replicate 31 0 ++ [1], rfl⟩⟩
    prev < curr ∧ (Negentropy.getMinimalBound prev curr).idLen = ID_SIZE ∧
      lowerBound [prev, curr] (Negentropy.getMinimalBound prev curr).item = 1 := by
  intro prev curr
  have h : prev < curr := by decide
  exact ⟨h, by decide, (minimalBound_shortest h).2.2.1⟩

/-! ### Ranges and the items they are about -/

/-- A range, its fingerprint replaced by the items it is over. -/
def Payload.abstract {φ : Type} (elems : φ → List Item) : Payload φ → Rbsr.Payload Item ItemId
  | .skip => .skip
  | .fingerprint f => .fingerprint (elems f)
  | .idList ids => .idList ids

def abstract {φ : Type} (elems : φ → List Item) (rs : List (Range φ)) : List (Rbsr.Range Item ItemId) :=
  rs.map fun r => ⟨r.bound.item, r.payload.abstract elems⟩

theorem abstract_append {φ : Type} (elems : φ → List Item) (rs rs' : List (Range φ)) :
    abstract elems (rs ++ rs') = abstract elems rs ++ abstract elems rs' := List.map_append

/-- The items of a window. -/
def Party.elems (P : Party) (w : Window) : List Item := slice P.items w.begin_ w.end_

section
variable {P : Party} (hsorted : P.items.Pairwise (· < ·))
include hsorted

theorem item_lt {i j : ℕ} (hij : i < j) (hj : j < P.items.length) : P.item i < P.item j := by
  have hi : i < P.items.length := hij.trans hj
  simp only [Party.item, List.getD_eq_getElem?_getD, List.getElem?_eq_getElem hi, List.getElem?_eq_getElem hj,
    Option.getD_some]
  exact List.pairwise_iff_getElem.mp hsorted i j hi hj hij

theorem lowerBound_le_item_iff {k : Item} {i : ℕ} (hi : i < P.items.length) :
    lowerBound P.items k ≤ i ↔ k ≤ P.item i := by
  rw [lowerBound_le_iff hsorted hi, Party.item, List.getD_eq_getElem?_getD, List.getElem?_eq_getElem hi,
    Option.getD_some]

/-- The bound between two buckets is where the second one starts. -/
theorem lowerBound_minimalBound {i : ℕ} (h0 : 0 < i) (hi : i < P.items.length) :
    P.item (i - 1) < (Negentropy.getMinimalBound (P.item (i - 1)) (P.item i)).item ∧
      (Negentropy.getMinimalBound (P.item (i - 1)) (P.item i)).item ≤ P.item i ∧
      lowerBound P.items (Negentropy.getMinimalBound (P.item (i - 1)) (P.item i)).item = i := by
  obtain ⟨h1, h2⟩ := minimalBound_between (item_lt hsorted (Nat.sub_lt h0 Nat.one_pos) hi)
  refine ⟨h1, h2, le_antisymm ((lowerBound_le_item_iff hsorted hi).mpr h2) ?_⟩
  by_contra hlt
  have hle : lowerBound P.items (Negentropy.getMinimalBound (P.item (i - 1)) (P.item i)).item ≤ i - 1 := by omega
  exact absurd h1 (not_lt_of_ge ((lowerBound_le_item_iff hsorted (by omega)).mp hle))

theorem splitBuckets_parts {n upper itemsPerBucket bucketsWithExtra : ℕ} {upperBound : Bound}
    (hupper : lowerBound P.items upperBound.item = upper) (hpos : 0 < itemsPerBucket)
    (hextra : bucketsWithExtra ≤ Negentropy.buckets)
    (hn : Negentropy.buckets * itemsPerBucket + bucketsWithExtra = n) :
    ∀ (remaining curr : ℕ) (l : Item), remaining + 1 ≤ Negentropy.buckets →
      curr + (remaining + 1) * itemsPerBucket + (bucketsWithExtra - (Negentropy.buckets - (remaining + 1))) = upper →
      lowerBound P.items l = curr → l ≤ upperBound.item →
      Rbsr.Parts P.items n Negentropy.buckets (remaining + 1) l upperBound.item (abstract P.elems
        (P.splitBuckets upper upperBound itemsPerBucket bucketsWithExtra (remaining + 1) curr)) := by
  have hu : upper ≤ P.items.length := hupper ▸ lowerBound_le_length _ _
  -- a part has one element more only where there are elements to be shared out
  have hshare : ∀ i, (itemsPerBucket + if i < bucketsWithExtra then 1 else 0) * Negentropy.buckets < n + Negentropy.buckets := by
    intro i
    rw [Nat.mul_comm] at hn
    rw [Nat.add_mul]
    split <;> simp only [Negentropy.buckets] at hn ⊢ <;> omega
  intro remaining
  induction remaining with
  | zero =>
    intro curr l hr hsum hl hle
    have hnext := Party.bucket_step hr hsum
    simp only [Nat.zero_mul, Nat.add_zero] at hnext
    have hlast : curr + (itemsPerBucket + if Negentropy.buckets - (0 + 1) < bucketsWithExtra then 1 else 0) = upper := by
      omega
    have hwithin : within P.items l upperBound.item = slice P.items curr upper := by
      rw [← slice_lowerBound hsorted hle, hl, hupper]
    have hlen : (slice P.items curr upper).length =
        itemsPerBucket + if Negentropy.buckets - (0 + 1) < bucketsWithExtra then 1 else 0 := by
      rw [slice_length _ hu]
      omega
    simp only [Party.splitBuckets, hlast, if_true, abstract, List.map_cons, List.map_nil, Payload.abstract, Party.elems]
    rw [← hwithin] at hlen ⊢
    exact .last hle (List.length_pos_iff.mp (by omega)) (hlen ▸ hshare _)
  | succ remaining ih =>
    intro curr l hr hsum hl hle
    have hnext := Party.bucket_step hr hsum
    simp only at hnext
    set next := curr + (itemsPerBucket + if Negentropy.buckets - (remaining + 1 + 1) < bucketsWithExtra then 1 else 0)
      with hdef
    have hlt : next < upper := by
      have : 0 < (remaining + 1) * itemsPerBucket := Nat.mul_pos (Nat.succ_pos _) hpos
      omega
    obtain ⟨h1, h2, h3⟩ := lowerBound_minimalBound hsorted (show 0 < next by omega) (show next < P.items.length by omega)
    have hlb : l ≤ (Negentropy.getMinimalBound (P.item (next - 1)) (P.item next)).item :=
      ((lowerBound_le_item_iff hsorted (by omega)).mp (show lowerBound P.items l ≤ next - 1 by omega)).trans h1.le
    have hbu : (Negentropy.getMinimalBound (P.item (next - 1)) (P.item next)).item ≤ upperBound.item := by
      by_contra hgt
      have := (lowerBound_le_item_iff hsorted (show next < P.items.length by omega)).mpr
        ((not_le.mp hgt).le.trans h2)
      omega
    have hwithin : within P.items l (Negentropy.getMinimalBound (P.item (next - 1)) (P.item next)).item =
        slice P.items curr next := by
      rw [← slice_lowerBound hsorted hlb, hl, h3]
    have hlen : (slice P.items curr next).length =
        itemsPerBucket + if Negentropy.buckets - (remaining + 1 + 1) < bucketsWithExtra then 1 else 0 := by
      rw [slice_length _ (show next ≤ P.items.length by omega)]
      omega
    rw [Party.splitBuckets]
    simp only [← hdef, hlt.ne, if_false, abstract, List.map_cons, Payload.abstract, Party.elems]
    rw [← hwithin] at hlen ⊢
    exact .cons hlb (List.length_pos_iff.mp (by omega)) (hlen ▸ hshare _) (ih next _ (by omega) hnext h3 hbu)

/-- What `splitRange` writes divides the range. -/
theorem splitRange_divide {l : Item} {upperBound : Bound} (hle : l ≤ upperBound.item) :
    Rbsr.Divide P.items Item.id Negentropy.buckets 31 l upperBound.item (abstract P.elems
      (P.splitRange (lowerBound P.items l) (lowerBound P.items upperBound.item) upperBound)) := by
  set lower := lowerBound P.items l with hlower
  set upper := lowerBound P.items upperBound.item with hupper
  have hu : upper ≤ P.items.length := lowerBound_le_length _ _
  have hwithin : within P.items l upperBound.item = slice P.items lower upper := (slice_lowerBound hsorted hle).symm
  have hlen : (within P.items l upperBound.item).length = upper - lower := by rw [hwithin, slice_length _ hu]
  have hb : Negentropy.buckets * 2 = 32 := rfl
  by_cases hn : upper - lower < Negentropy.buckets * 2
  · simp only [Party.splitRange, if_pos hn, abstract, List.map_cons, List.map_nil, Payload.abstract, ← hwithin]
    exact .list (by omega)
  · have hdiv := Nat.div_add_mod (upper - lower) Negentropy.buckets
    have hmod := Nat.mod_lt (upper - lower) (show 0 < Negentropy.buckets by decide)
    have hpos : 0 < (upper - lower) / Negentropy.buckets := Nat.div_pos (by omega) (by decide)
    have hrest : Negentropy.buckets - (15 + 1) = 0 := rfl
    have hsum : Negentropy.buckets * ((upper - lower) / Negentropy.buckets) = (15 + 1) * ((upper - lower) / Negentropy.buckets) := rfl
    simp only [Party.splitRange, if_neg hn]
    refine .parts (by omega) ?_
    exact splitBuckets_parts hsorted hupper.symm hpos hmod.le (hlen ▸ hdiv) 15 lower l le_rfl (by omega) hlower.symm hle

/-- What `splitRange` writes splits the range. -/
theorem splitRange_split {l : Item} {upperBound : Bound} (hle : l ≤ upperBound.item) :
    Rbsr.Split P.items Item.id l upperBound.item (abstract P.elems
      (P.splitRange (lowerBound P.items l) (lowerBound P.items upperBound.item) upperBound)) :=
  (splitRange_divide hsorted hle).split (by decide) (by decide)

end

end NE
