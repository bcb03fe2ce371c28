import Negentropy.Deltas
import Negentropy.Js.Reading
import Negentropy.Partition

/-! The two writers side by side, over vectors of the same items. Both write the same bounds,
fingerprints and ids as long as no timestamp is behind the last one. -/

namespace NE.Js

open Sorted Stateful

/-- The bound can be coded as a small difference to `o`. -/
structure Codable (o : UInt64) (b : NE.Bound) : Prop where
  small : SmallTimestamp b.item.timestamp
  le : b.item.timestamp ≠ MAX_U64 → o ≤ b.item.timestamp

theorem codable_infinity (o : UInt64) : Codable o (Bound.ofTimestamp MAX_U64) :=
  ⟨fun h => absurd rfl h, fun h => absurd rfl h⟩

section
variable {input : Bytes} {ne : NE.Negentropy NE.Storage.Vector} {i o : UInt64} {unread : Bytes}
  {s : Run NegentropyStorageVector} (h : Twin input ne i o unread s)
include h

/-- The object has coded a timestamp. -/
theorem Twin.coded (b : UInt64) :
    Twin input ne i b unread { s with ne := { s.ne with lastTimestampOut := number b } } :=
  ⟨⟨h.sound.unread, h.sound.counts, h.sound.exact⟩, h.raw, h.storage, h.limit, h.role, h.lastIn, rfl⟩

theorem Twin.encodeBound {b : NE.Bound} (hb : Codable o b) :
    ∃ t, (Negentropy.encodeBound (ofBound b) : Method NegentropyStorageVector Bytes) s = .ok (boundBytes o b) t ∧
      Twin input ne i b.item.timestamp unread t := by
  have hid : encodeVarInt ((ofBound b).id.length : ℕ) = NE.encodeVarInt (UInt64.ofNat b.idLen) := by
    have hlen : (ofBound b).id.length = b.idLen := b.idPrefix_length
    have hle := b.idLen_le
    rw [hlen, encodeVarInt_eq _ (hle.trans_lt (by decide))]
  refine ⟨_, ?_, h.coded b.item.timestamp⟩
  unfold Negentropy.encodeBound Negentropy.encodeTimestampOut
  by_cases hmax : b.item.timestamp = MAX_U64
  · have hts : (ofBound b).timestamp = MAX_VALUE := by
      change number b.item.timestamp = MAX_VALUE
      rw [hmax, number_max]
    rw [if_pos hts]
    unfold boundBytes
    rw [if_pos hmax, hmax, number_max, ← hid]
    rfl
  · have hts : (ofBound b).timestamp = b.item.timestamp.toNat := number_of_ne hmax
    have hsmall := hb.small hmax
    have hle := UInt64.le_iff_toNat_le.mp (hb.le hmax)
    have ho : o ≠ MAX_U64 := by
      rintro rfl
      have : MAX_U64.toNat = 2 ^ 64 - 1 := rfl
      omega
    have hsub : (b.item.timestamp - o + 1).toNat = b.item.timestamp.toNat - o.toNat + 1 := by
      have hone : (1 : UInt64).toNat = 1 := rfl
      rw [UInt64.toNat_add, UInt64.toNat_sub_of_le _ _ (hb.le hmax)]
      omega
    have hcode : encodeVarInt ((b.item.timestamp - o + 1).toNat : ℕ) = NE.encodeVarInt (b.item.timestamp - o + 1) := by
      have hlt : (b.item.timestamp - o + 1).toNat < 2 ^ 32 := by omega
      rw [encodeVarInt_eq _ hlt, UInt64.ofNat_toNat]
    have hdelta : nearest (nearest ((b.item.timestamp.toNat : ℤ) - o.toNat) + 1) = (b.item.timestamp - o + 1).toNat := by
      have hnear : nearest ((b.item.timestamp.toNat : ℤ) - o.toNat) = b.item.timestamp.toNat - o.toNat :=
        nearest_eq (by omega)
      rw [hnear, nearest_eq (by omega), hsub]
      omega
    have hlast : s.ne.lastTimestampOut = o.toNat := h.lastOut.trans (number_of_ne ho)
    have hbig := lt_MAX_VALUE
    have hget : (get : Method NegentropyStorageVector (Run NegentropyStorageVector)) s = .ok s s := rfl
    rw [hts, if_neg (by omega)]
    unfold boundBytes
    rw [if_neg hmax, ← hid, ← hcode, ← hdelta, number_of_ne hmax, ← hlast]
    rfl

end

/-! ### The storages -/

/-- The two items around a position. -/
theorem iterateItems_minimalBound (items : List NE.Item) {curr : ℕ} (h0 : 0 < curr) (h1 : curr < items.length) :
    NE.iterateItems (fun (p : Option Item × Option Item) item index =>
        (if index = curr - 1 then (some (ofItem item), p.2) else (p.1, some (ofItem item)), true))
      (slice items (curr - 1) (curr + 1)) (curr - 1) (none, none) =
      (some (ofItem (items.getD (curr - 1) {})), some (ofItem (items.getD curr {}))) := by
  have hsl : slice items (curr - 1) (curr + 1) = [items[curr - 1], items[curr]] := by
    rw [slice, List.drop_eq_getElem_cons (by omega), show curr + 1 - (curr - 1) = 0 + 1 + 1 by omega,
      List.take_succ_cons, show curr - 1 + 1 = curr by omega, List.drop_eq_getElem_cons h1, List.take_succ_cons,
      List.take_zero]
  have hne : curr - 1 + 1 ≠ curr - 1 := by omega
  rw [hsl]
  simp [NE.iterateItems, List.getD_eq_getElem?_getD, h1, show curr - 1 < items.length by omega]

/-- A sealed vector of few items with small timestamps. -/
structure SmallVector (v : NE.Storage.Vector) : Prop where
  isSealed : v.isSealed = true
  sorted : v.items.Pairwise (· < ·)
  length_lt : v.items.length < 2 ^ 31
  timestamps : ∀ x ∈ v.items, x.timestamp.toNat < 2 ^ 31 - 1

section
variable [Sha256] {input : Bytes} {ne : NE.Negentropy NE.Storage.Vector} (hv : SmallVector ne.storage) {i o : UInt64}
  {unread : Bytes} {s : Run NegentropyStorageVector} (h : Twin input ne i o unread s)
include hv

omit h in
theorem SmallVector.reads : Reads ne.storage ne.storage.items (ownFp ne.storage.items) :=
  NE.Storage.Vector.reads hv.isSealed (hv.length_lt.trans (by decide))

omit [Sha256] h in
theorem SmallVector.timestamp_lt {j : ℕ} (hj : j < ne.storage.items.length) :
    (Recorded.tsAt ne.storage.items j).toNat < 2 ^ 31 - 1 := by
  unfold Recorded.tsAt
  rw [List.getD_eq_getElem?_getD, List.getElem?_eq_getElem hj]
  exact hv.timestamps _ (List.getElem_mem hj)

include h

theorem Twin.storageSize : (Negentropy.storageSize : Method NegentropyStorageVector ℕ) s = .ok ne.storage.items.length s := by
  have hsize : Storage.size s.ne.storage = .ok ne.storage.items.length := by
    rw [h.storage]
    exact size_ofVector hv.isSealed
  change (call (Storage.size s.ne.storage) : Method NegentropyStorageVector ℕ) s = _
  rw [hsize]
  rfl

theorem Twin.fingerprint {b e : ℕ} (hb : b ≤ e) (he : e ≤ ne.storage.items.length) :
    (Negentropy.fingerprint b e : Method NegentropyStorageVector Bytes) s = .ok (ownFp ne.storage.items b e).buf s := by
  have hlen := hv.length_lt
  have hfp : Storage.fingerprint s.ne.storage b e = .ok (ownFp ne.storage.items b e).buf := by
    rw [h.storage]
    exact fingerprint_ofVector hv.isSealed hb he (by omega)
  change (call (Storage.fingerprint s.ne.storage b e) : Method NegentropyStorageVector Bytes) s = _
  rw [hfp]
  rfl

theorem Twin.iterate {α : Type} {b e : ℕ} (hb : b ≤ e) (he : e ≤ ne.storage.items.length) (cb : α → Item → ℕ → α × Bool)
    (st : α) : (Negentropy.iterate b e cb st : Method NegentropyStorageVector α) s =
      .ok (NE.iterateItems (fun st item index => cb st (ofItem item) index) (slice ne.storage.items b e) b st) s := by
  have hit : Storage.iterate s.ne.storage b e cb st =
      .ok (NE.iterateItems (fun st item index => cb st (ofItem item) index) (slice ne.storage.items b e) b st) := by
    rw [h.storage]
    exact iterate_ofVector hv.isSealed hb he cb st
  change (call (Storage.iterate s.ne.storage b e cb st) : Method NegentropyStorageVector α) s = _
  rw [hit]
  rfl

theorem Twin.findLowerBound {b : ℕ} (hb : b ≤ ne.storage.items.length) (bound : NE.Bound) :
    (Negentropy.findLowerBound b ne.storage.items.length (ofBound bound) : Method NegentropyStorageVector ℕ) s =
      .ok (max b (min (lowerBound ne.storage.items bound.item) ne.storage.items.length)) s := by
  have hfind : Storage.findLowerBound s.ne.storage b ne.storage.items.length (ofBound bound) =
      .ok (max b (min (lowerBound ne.storage.items bound.item) ne.storage.items.length)) := by
    rw [h.storage]
    exact findLowerBound_ofVector hv.isSealed hv.sorted hb le_rfl bound
  change (call (Storage.findLowerBound s.ne.storage b ne.storage.items.length (ofBound bound)) :
    Method NegentropyStorageVector ℕ) s = _
  rw [hfind]
  rfl

/-! ### Splitting -/

theorem Twin.splitBuckets {upper : ℕ} (hu : upper ≤ ne.storage.items.length) {upperBound : NE.Bound}
    (hupper : SmallTimestamp upperBound.item.timestamp) {itemsPerBucket bucketsWithExtra : ℕ} (hpos : 0 < itemsPerBucket)
    (hextra : bucketsWithExtra ≤ NE.Negentropy.buckets) :
    ∀ (remaining curr : ℕ), remaining + 1 ≤ NE.Negentropy.buckets →
      curr + (remaining + 1) * itemsPerBucket + (bucketsWithExtra - (NE.Negentropy.buckets - (remaining + 1))) = upper →
      o ≤ upperBound.item.timestamp →
      (∀ j, curr ≤ j → j < upper → o ≤ Recorded.tsAt ne.storage.items j ∧
        Recorded.tsAt ne.storage.items j ≤ upperBound.item.timestamp) →
      ∃ t, (Negentropy.splitBuckets upper (ofBound upperBound) itemsPerBucket bucketsWithExtra (remaining + 1) curr :
          Method NegentropyStorageVector Bytes) s = .ok (rangesBytes o (render (ownFp ne.storage.items)
            ((ne.party ne.storage.items).splitBuckets upper upperBound itemsPerBucket bucketsWithExtra (remaining + 1) curr))) t ∧
        Twin input ne i upperBound.item.timestamp unread t := by
  intro remaining
  induction remaining generalizing o s with
  | zero =>
    intro curr hr hsum ho hwin
    have hlast : curr + (itemsPerBucket + if NE.Negentropy.buckets - (0 + 1) < bucketsWithExtra then 1 else 0) = upper := by
      split <;> omega
    obtain ⟨t, henc, ht⟩ := h.encodeBound ⟨hupper, fun _ => ho⟩
    have hend : (Negentropy.splitBuckets upper (ofBound upperBound) itemsPerBucket bucketsWithExtra 0 upper :
        Method NegentropyStorageVector Bytes) t = .ok [] t := rfl
    refine ⟨t, ?_, ht⟩
    rw [Negentropy.splitBuckets]
    simp only [Party.splitBuckets, show Negentropy.buckets = NE.Negentropy.buckets from rfl, hlast, if_true]
    rw [bind_of_ok (h.fingerprint hv (show curr ≤ upper by omega) hu), pure_bind, bind_of_ok henc, bind_of_ok hend]
    simp only [render_cons, render_nil, rangesBytes, List.append_nil, Range.map, Payload.map, windowFp, payloadBytes,
      List.append_assoc]
    rfl
  | succ remaining ih =>
    intro curr hr hsum ho hwin
    have hnext := Party.bucket_step hr hsum
    simp only at hnext
    set next := curr + (itemsPerBucket + if NE.Negentropy.buckets - (remaining + 1 + 1) < bucketsWithExtra then 1 else 0)
      with hdef
    have hlt : next < upper := by
      have : 0 < (remaining + 1) * itemsPerBucket := Nat.mul_pos (Nat.succ_pos _) hpos
      omega
    set b := NE.Negentropy.getMinimalBound (ne.storage.items.getD (next - 1) {}) (ne.storage.items.getD next {}) with hbdef
    have hb : b.item.timestamp = Recorded.tsAt ne.storage.items next := Recorded.minimalBound_timestamp _ _
    have hwin' := hwin next (by omega) hlt
    have hcodable : Codable o b := ⟨fun _ => hb ▸ hv.timestamp_lt (hlt.trans_le hu), fun _ => hb ▸ hwin'.1⟩
    obtain ⟨t, henc, ht⟩ := h.encodeBound hcodable
    obtain ⟨t', hrest, ht'⟩ := ih ht next (by omega) hnext (hb ▸ hwin'.2) fun j hj hju =>
      ⟨hb ▸ Recorded.tsAt_mono hv.sorted hj (by omega), (hwin j (by omega) hju).2⟩
    have hpair := iterateItems_minimalBound ne.storage.items (show 0 < next by omega) (by omega)
    have hcall : (call (Negentropy.minimalBound (some (ofItem (ne.storage.items.getD (next - 1) {})))
        (some (ofItem (ne.storage.items.getD next {})))) : Method NegentropyStorageVector Bound) s = .ok (ofBound b) s := by
      rw [Negentropy.minimalBound, getMinimalBound_eq]
      rfl
    refine ⟨t', ?_, ht'⟩
    rw [Negentropy.splitBuckets, Party.splitBuckets]
    simp only [show Negentropy.buckets = NE.Negentropy.buckets from rfl, ← hdef, hlt.ne, if_false]
    rw [bind_of_ok (h.fingerprint hv (show curr ≤ next by omega) (by omega)),
      bind_of_ok (h.iterate hv (by omega) (by omega) _ _), hpair, bind_of_ok hcall, bind_of_ok henc, bind_of_ok hrest]
    simp only [render_cons, rangesBytes, Range.map, Payload.map, windowFp, payloadBytes, List.append_assoc]
    rfl

theorem Twin.splitRange {lower upper : ℕ} (hl : lower ≤ upper) (hu : upper ≤ ne.storage.items.length) {upperBound : NE.Bound}
    (hupper : Codable o upperBound) (ho : o ≤ upperBound.item.timestamp)
    (hwin : ∀ j, lower ≤ j → j < upper → o ≤ Recorded.tsAt ne.storage.items j ∧
      Recorded.tsAt ne.storage.items j ≤ upperBound.item.timestamp) :
    ∃ t, (Negentropy.splitRange lower upper (ofBound upperBound) : Method NegentropyStorageVector Bytes) s =
        .ok (rangesBytes o (render (ownFp ne.storage.items) ((ne.party ne.storage.items).splitRange lower upper upperBound))) t ∧
      Twin input ne i upperBound.item.timestamp unread t := by
  have hlen := hv.length_lt
  have hbuckets : Negentropy.buckets = NE.Negentropy.buckets := rfl
  have hcount : (upper : ℤ) - lower = (upper - lower : ℕ) := by omega
  unfold Negentropy.splitRange Party.splitRange
  dsimp only
  by_cases hn : upper - lower < NE.Negentropy.buckets * 2
  · obtain ⟨t, henc, ht⟩ := h.encodeBound hupper
    have hids : NE.iterateItems (fun (o : Bytes) (item : NE.Item) _ => (o ++ (ofItem item).id, true))
        (slice ne.storage.items lower upper) lower [] = idBytes ((slice ne.storage.items lower upper).map NE.Item.id) :=
      iterateItems_ids _ _
    refine ⟨t, ?_, ht⟩
    rw [if_pos (by omega), if_pos hn, bind_of_ok henc, bind_of_ok (ht.iterate hv hl hu _ _), hids, hcount,
      encodeVarInt_eq _ (by omega)]
    simp only [render_cons, render_nil, rangesBytes, Range.map, Payload.map, payloadBytes, List.append_assoc, List.append_nil,
      List.length_map, slice_length ne.storage.items hu (b := lower), Negentropy.party]
    rfl
  · have hdiv := Nat.div_add_mod (upper - lower) NE.Negentropy.buckets
    have hmul : NE.Negentropy.buckets * ((upper - lower) / NE.Negentropy.buckets) = 16 * ((upper - lower) / NE.Negentropy.buckets) := rfl
    have hpos : 0 < (upper - lower) / NE.Negentropy.buckets := Nat.div_pos (by omega) (by decide)
    have hrest : NE.Negentropy.buckets - (15 + 1) = 0 := rfl
    have hmod := Nat.mod_lt (upper - lower) (show 0 < NE.Negentropy.buckets by decide)
    rw [if_neg (by omega), if_neg hn, hcount, Int.toNat_natCast]
    exact h.splitBuckets hv hu hupper.small hpos hmod.le 15 lower le_rfl (by omega) ho hwin

/-! ### The ends of an iteration -/

omit [Sha256] hv h in
/-- The local variables of the loop, as JavaScript holds them. The message is not among them there. -/
def ofState (st : NE.Negentropy.ReconcileState) : Negentropy.ReconcileState where
  fullOutput := st.fullOutput
  prevBound := ofBound st.prevBound
  prevIndex := st.prevIndex
  skip := st.skip
  haveIds := st.haveIds.map ItemId.bytes
  needIds := st.needIds.map ItemId.bytes

/-- What both have come to at the end of an iteration that began with `st`. The party that did not initiate finds
no ids. -/
def Ended (input : Bytes) (ne : NE.Negentropy NE.Storage.Vector) (st : NE.Negentropy.ReconcileState) (i : UInt64)
    (query : Bytes) (r : NE.Negentropy.ReconcileState × Bool) (r' : Negentropy.ReconcileState × Bool)
    (c : NE.Negentropy NE.Storage.Vector) (t : Run NegentropyStorageVector) : Prop :=
  r' = (ofState r.1, r.2) ∧ r.1.query = query ∧
    (ne.isInitiator = false → r.1.haveIds = st.haveIds ∧ r.1.needIds = st.needIds) ∧
    ∃ o, c = ne.at i o ∧ Twin input ne i o query t

omit [Sha256] hv in
theorem Twin.doSkip (st : NE.Negentropy.ReconcileState) (hsmall : SmallTimestamp st.prevBound.item.timestamp)
    (ho : o ≤ st.prevBound.item.timestamp) :
    Lockstep (fun r r' c t => r'.1 = ofState r.1 ∧ r'.2 = r.2 ∧ r.1 = { st with skip := false } ∧
        ∃ o', o' ≤ st.prevBound.item.timestamp ∧ c = ne.at i o' ∧ Twin input ne i o' unread t)
      ((NE.Negentropy.doSkip st : NE.Method NE.Storage.Vector (NE.Negentropy.ReconcileState × Bytes)) (ne.at i o))
      ((Negentropy.doSkip (ofState st) : Method NegentropyStorageVector (Negentropy.ReconcileState × Bytes)) s) := by
  unfold NE.Negentropy.doSkip Negentropy.doSkip
  cases hskip : st.skip with
  | false =>
    have hskip' : (ofState st).skip = false := hskip
    rw [hskip']
    exact .ok ⟨rfl, rfl, by rw [← hskip], o, ho, rfl, h⟩
  | true =>
    have hskip' : (ofState st).skip = true := hskip
    obtain ⟨t, henc, ht⟩ := h.encodeBound ⟨hsmall, fun _ => ho⟩
    rw [hskip', if_pos rfl, if_pos rfl, bind_of_ok (encodeBound_eq ne i o _)]
    rw [show (ofState st).prevBound = ofBound st.prevBound from rfl, bind_of_ok henc]
    exact .ok ⟨rfl, rfl, rfl, _, UInt64.le_refl _, rfl, ht⟩

theorem Twin.finishRange {upper : ℕ} (hu : upper ≤ ne.storage.items.length) (currBound : NE.Bound) (bytes : Bytes)
    (st : NE.Negentropy.ReconcileState) (hquery : st.query = unread) :
    Lockstep (Ended input ne st i unread)
      ((NE.Negentropy.finishRange ne.storage.items.length currBound upper bytes st :
        NE.Method NE.Storage.Vector (NE.Negentropy.ReconcileState × Bool)) (ne.at i o))
      ((Negentropy.finishRange ne.storage.items.length (ofBound currBound) upper bytes (ofState st) :
        Method NegentropyStorageVector (Negentropy.ReconcileState × Bool)) s) := by
  have hget : (get : NE.Method NE.Storage.Vector _) (ne.at i o) = .ok (ne.at i o) (ne.at i o) := rfl
  have hget' : (get : Method NegentropyStorageVector (Run NegentropyStorageVector)) s = .ok s s := rfl
  have hexceeded : s.ne.exceededFrameSizeLimit ((ofState st).fullOutput.length + bytes.length) =
      (ne.at i o).exceededFrameSizeLimit (st.fullOutput.length + bytes.length) := by
    unfold Negentropy.exceededFrameSizeLimit NE.Negentropy.exceededFrameSizeLimit
    rw [h.limit]
    rfl
  unfold NE.Negentropy.finishRange Negentropy.finishRange
  rw [bind_of_ok hget, bind_of_ok hget', hexceeded]
  split
  · obtain ⟨t, henc, ht⟩ := h.encodeBound (codable_infinity o)
    have hinf : bound MAX_VALUE = ofBound (Bound.ofTimestamp MAX_U64) := by rw [ofBound_ofTimestamp, number_max]
    rw [bind_of_ok (fingerprint_eq hv.reads hu le_rfl i o), bind_of_ok (encodeBound_eq ne i o _),
      bind_of_ok (h.fingerprint hv hu le_rfl), hinf, bind_of_ok henc]
    exact .ok ⟨rfl, hquery, fun _ => ⟨rfl, rfl⟩, _, rfl, ht⟩
  · exact .ok ⟨rfl, hquery, fun _ => ⟨rfl, rfl⟩, o, rfl, h⟩

end

end NE.Js
