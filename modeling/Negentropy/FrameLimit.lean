import Negentropy.Truthful

/-! No message is longer than the frame size limit, whatever the query and whatever the
storage's search returns. Each step of the loop is bounded by what it can write after
its last check of the limit. -/

namespace NE

open Sorted Stateful Negentropy

section
variable {σ : Type} [StorageBase σ] {items : List Item} {fp : ℕ → ℕ → Fingerprint}

/-- The object is the same up to its two timestamps. -/
def SameObject (ne ne' : Negentropy σ) : Prop := ∃ i o, ne' = ne.at i o

omit [StorageBase σ] in
theorem SameObject.refl (ne : Negentropy σ) : SameObject ne ne := ⟨ne.lastTimestampIn, ne.lastTimestampOut, rfl⟩

omit [StorageBase σ] in
theorem SameObject.trans {ne ne' ne'' : Negentropy σ} (h : SameObject ne ne') (h' : SameObject ne' ne'') :
    SameObject ne ne'' := by
  obtain ⟨i, o, rfl⟩ := h
  obtain ⟨i', o', rfl⟩ := h'
  exact ⟨i', o', rfl⟩

omit [StorageBase σ] in
theorem encodeBound_ok {b : Bound} {ne ne' : Negentropy σ} {o : Bytes} (h : encodeBound b ne = .ok o ne') :
    o = boundBytes ne.lastTimestampOut b ∧ SameObject ne ne' := by
  have heq := encodeBound_eq ne ne.lastTimestampIn ne.lastTimestampOut b
  rw [show ne.at ne.lastTimestampIn ne.lastTimestampOut = ne from rfl, h] at heq
  cases heq
  exact ⟨rfl, _, _, rfl⟩

theorem fingerprint_ok {b e : ℕ} {ne ne' : Negentropy σ} {f : Fingerprint}
    (h : Negentropy.fingerprint b e ne = .ok f ne') : ne' = ne := by
  simp only [Negentropy.fingerprint, bind_eq_ok, get_eq_ok, call_eq_ok] at h
  obtain ⟨_, _, ⟨rfl, rfl⟩, -, rfl⟩ := h
  rfl

theorem iterate_ok {ne ne' : Negentropy σ} (hs : Reads ne.storage items fp) {b e : ℕ} {α : Type}
    {cb : α → Item → ℕ → α × Bool} {st st' : α} (h : Negentropy.iterate b e cb st ne = .ok st' ne') :
    ne' = ne ∧ b ≤ e ∧ e ≤ items.length ∧ st' = iterateItems cb (slice items b e) b st := by
  simp only [Negentropy.iterate, bind_eq_ok, get_eq_ok, call_eq_ok] at h
  obtain ⟨_, _, ⟨rfl, rfl⟩, hit, rfl⟩ := h
  rw [hs.iterate] at hit
  split at hit
  · next hbe =>
    cases hit
    exact ⟨rfl, hbe.1, hbe.2, rfl⟩
  · cases hit

/-! ### What a step writes -/

theorem splitBuckets_length {upper : ℕ} {upperBound : Bound} {itemsPerBucket bucketsWithExtra : ℕ} :
    ∀ {remaining curr : ℕ} {ne ne' : Negentropy σ} {o : Bytes},
      splitBuckets upper upperBound itemsPerBucket bucketsWithExtra remaining curr ne = .ok o ne' →
      o.length ≤ 60 * remaining ∧ SameObject ne ne' := by
  intro remaining
  induction remaining with
  | zero =>
    intro curr ne ne' o h
    cases h
    exact ⟨le_rfl, SameObject.refl ne⟩
  | succ remaining ih =>
    intro curr ne ne' o h
    rw [splitBuckets, bind_eq_ok] at h
    obtain ⟨f, _, hf, h⟩ := h
    obtain rfl := fingerprint_ok hf
    dsimp only at h
    generalize curr + (itemsPerBucket + if buckets - (remaining + 1) < bucketsWithExtra then 1 else 0) = next at h
    have hrest : ∀ {b : Bound} {ne : Negentropy σ},
        (do
          let bound ← encodeBound b
          let o ← splitBuckets upper upperBound itemsPerBucket bucketsWithExtra remaining next
          return bound ++ encodeVarInt Mode.fingerprint.toU64 ++ f.buf ++ o : Method σ Bytes) ne = .ok o ne' →
        o.length ≤ 60 * (remaining + 1) ∧ SameObject ne ne' := by
      intro b ne h
      obtain ⟨bound, _, hb, h⟩ := bind_eq_ok.mp h
      obtain ⟨rest, _, hr, h⟩ := bind_eq_ok.mp h
      obtain ⟨rfl, hsame⟩ := encodeBound_ok hb
      obtain ⟨hlen, hsame'⟩ := ih hr
      cases h
      have hf := f.length_eq
      have hbound := boundBytes_length ne.lastTimestampOut b
      have hmode : (encodeVarInt Mode.fingerprint.toU64).length = 1 := rfl
      have hsize : FINGERPRINT_SIZE = 16 := rfl
      refine ⟨?_, hsame.trans hsame'⟩
      simp only [List.length_append, hf, hmode]
      omega
    split at h
    · exact hrest h
    · rw [bind_eq_ok] at h
      obtain ⟨p, ne1, hp, h⟩ := h
      simp only [Negentropy.iterate, bind_eq_ok, get_eq_ok, call_eq_ok] at hp
      obtain ⟨_, _, ⟨rfl, rfl⟩, -, rfl⟩ := hp
      exact hrest h

/-- Splitting a range writes at most 1046 bytes: 16 fingerprints or 31 ids. -/
theorem splitRange_length {ne ne' : Negentropy σ} (hs : Reads ne.storage items fp) {lower upper : ℕ}
    {upperBound : Bound} {o : Bytes} (h : splitRange lower upper upperBound ne = .ok o ne') :
    o.length ≤ 1046 ∧ SameObject ne ne' := by
  rw [splitRange] at h
  split at h
  · next hn =>
    have hb : buckets * 2 = 32 := rfl
    have hsize : ID_SIZE = 32 := rfl
    have hmode : (encodeVarInt Mode.idList.toU64).length = 1 := rfl
    have hnum := encodeVarInt_length (UInt64.ofNat (upper - lower))
    obtain ⟨bound, _, hbound, h⟩ := bind_eq_ok.mp h
    obtain ⟨rfl, i, o, rfl⟩ := encodeBound_ok hbound
    obtain ⟨ids, _, hids, h⟩ := bind_eq_ok.mp h
    obtain ⟨rfl, hle, hu, rfl⟩ := iterate_ok (show Reads (ne.at i o).storage items fp from hs) hids
    cases h
    have hbytes := boundBytes_length ne.lastTimestampOut upperBound
    have hlen := slice_length items hu (b := lower)
    refine ⟨?_, i, o, rfl⟩
    simp only [List.length_append, iterateItems_ids, idBytes_length, List.length_map, hlen, hmode, hsize]
    omega
  · have hb : (buckets : ℕ) = 16 := rfl
    obtain ⟨hlen, hsame⟩ := splitBuckets_length h
    exact ⟨by omega, hsame⟩

omit [StorageBase σ] in
theorem doSkip_length {ne ne' : Negentropy σ} {st : ReconcileState} {r : ReconcileState × Bytes}
    (h : doSkip st ne = .ok r ne') :
    r.1.fullOutput = st.fullOutput ∧ r.2.length ≤ 44 ∧ SameObject ne ne' := by
  rw [doSkip] at h
  split at h
  · rw [bind_eq_ok] at h
    obtain ⟨bound, _, hb, h⟩ := h
    obtain ⟨rfl, hsame⟩ := encodeBound_ok hb
    cases h
    have hbytes := boundBytes_length ne.lastTimestampOut st.prevBound
    have hmode : (encodeVarInt Mode.skip.toU64).length = 1 := rfl
    exact ⟨rfl, by rw [List.length_append, hmode]; omega, hsame⟩
  · cases h
    exact ⟨rfl, Nat.zero_le _, SameObject.refl ne⟩

/-- What holds after an iteration of the loop. -/
def WithinLimit (limit : ℕ) (r : ReconcileState × Bool) : Prop :=
  r.1.fullOutput.length ≤ limit - if r.2 then 51 else 200

section
variable {limit : ℕ} (hlimit : 4096 ≤ limit)
include hlimit

/-- The end of an iteration either stays 200 bytes below the limit or appends a fingerprint of 19
bytes in all. -/
theorem finishRange_length {ne ne' : Negentropy σ} (hne : ne.frameSizeLimit = limit) {size upper : ℕ}
    {currBound : Bound} {o : Bytes} {st : ReconcileState} {r : ReconcileState × Bool}
    (h : finishRange size currBound upper o st ne = .ok r ne') :
    SameObject ne ne' ∧ (r.2 = false → r.1.fullOutput.length ≤ limit - 200) ∧
      (r.2 = true → r.1.fullOutput.length ≤ st.fullOutput.length + 19) := by
  rw [finishRange, bind_eq_ok] at h
  obtain ⟨ne0, _, hget, h⟩ := h
  obtain ⟨rfl, rfl⟩ := get_eq_ok.mp hget
  split at h
  · rw [bind_eq_ok] at h
    obtain ⟨f, _, hf, h⟩ := h
    obtain rfl := fingerprint_ok hf
    rw [bind_eq_ok] at h
    obtain ⟨bound, _, hb, h⟩ := h
    obtain ⟨rfl, hsame⟩ := encodeBound_ok hb
    cases h
    have hf := f.length_eq
    have hbound : ∀ last, (boundBytes last (Bound.ofTimestamp MAX_U64)).length = 2 := fun _ => by
      simp [boundBytes, Bound.idPrefix, Bound.ofTimestamp, Bound.ofPrefix, encodeVarInt]
    have hmode : (encodeVarInt Mode.fingerprint.toU64).length = 1 := rfl
    have hsize : FINGERPRINT_SIZE = 16 := rfl
    refine ⟨hsame, fun h => (by cases h), fun _ => ?_⟩
    simp only [List.length_append, hf, hbound, hmode]
    omega
  · next hex =>
    cases h
    refine ⟨SameObject.refl _, fun _ => ?_, fun h => (by cases h)⟩
    simp only [exceededFrameSizeLimit, hne, Bool.and_eq_true, bne_iff_ne, decide_eq_true_eq] at hex
    simp only [List.length_append]
    omega

theorem withinLimit_of_finish {ne ne' : Negentropy σ} (hne : ne.frameSizeLimit = limit) {size upper : ℕ}
    {currBound : Bound} {o : Bytes} {st : ReconcileState} {r : ReconcileState × Bool}
    (hst : st.fullOutput.length ≤ limit - 70)
    (h : finishRange size currBound upper o st ne = .ok r ne') :
    SameObject ne ne' ∧ WithinLimit limit r := by
  obtain ⟨hsame, hgo, hstop⟩ := finishRange_length hlimit hne h
  refine ⟨hsame, ?_⟩
  unfold WithinLimit
  cases hr : r.2 with
  | false => exact hgo hr
  | true =>
    have := hstop hr
    rw [if_pos rfl]
    omega

theorem reconcileFingerprint_length {ne ne' : Negentropy σ} (hs : Reads ne.storage items fp)
    (hne : ne.frameSizeLimit = limit) {size lower upper : ℕ} {currBound : Bound} {st : ReconcileState}
    {r : ReconcileState × Bool} (hst : st.fullOutput.length ≤ limit - 200)
    (h : reconcileFingerprint size currBound lower upper st ne = .ok r ne') :
    SameObject ne ne' ∧ WithinLimit limit r := by
  rw [reconcileFingerprint, bind_eq_ok] at h
  obtain ⟨⟨theirs, query⟩, _, hread, h⟩ := h
  obtain ⟨-, rfl⟩ := call_eq_ok.mp hread
  rw [bind_eq_ok] at h
  obtain ⟨ours, _, hf, h⟩ := h
  obtain rfl := fingerprint_ok hf
  split at h
  · rw [bind_eq_ok] at h
    obtain ⟨⟨st', o⟩, _, hskip, h⟩ := h
    obtain ⟨hout, -, i, o1, rfl⟩ := doSkip_length hskip
    rw [bind_eq_ok] at h
    obtain ⟨split, _, hsplit, h⟩ := h
    obtain ⟨-, i', o2, rfl⟩ := splitRange_length (show Reads (Negentropy.at _ i o1).storage items fp from hs) hsplit
    have hst' : st'.fullOutput.length ≤ limit - 200 := (congrArg List.length hout).trans_le hst
    obtain ⟨⟨i, o, rfl⟩, hlen⟩ := withinLimit_of_finish hlimit
      (show (Negentropy.at _ i' o2).frameSizeLimit = limit from hne)
      (show st'.fullOutput.length ≤ limit - 70 by omega) h
    exact ⟨⟨i, o, rfl⟩, hlen⟩
  · exact withinLimit_of_finish hlimit hne (by simp only; omega) h

omit hlimit [StorageBase σ] in
/-- The last id that was sent still met the limit when it was checked. -/
theorem sentIds_fits {P : Party} {written n sent : ℕ} (h : sent < P.sentIds written sent n) :
    P.exceeded (written + ID_SIZE * (P.sentIds written sent n - 1)) = false := by
  induction n generalizing sent with
  | zero => simp [Party.sentIds] at h
  | succ n ih =>
    unfold Party.sentIds at h ⊢
    split
    · next hex =>
      rw [if_pos hex] at h
      exact absurd h (lt_irrefl _)
    · next hex =>
      by_cases hnext : sent + 1 < P.sentIds written (sent + 1) n
      · exact ih hnext
      · have := P.sentIds_le written n (sent + 1)
        rw [show P.sentIds written (sent + 1) n = sent + 1 by omega, Nat.add_sub_cancel]
        simpa using hex

omit [StorageBase σ] in
/-- The ids that are sent overshoot the limit by less than one id. -/
theorem respondIds_length {ne : Negentropy σ} (hne : ne.frameSizeLimit = limit) {fullOutput : Bytes}
    (hout : fullOutput.length ≤ limit - 200) (own : List Item) (b : ℕ) {r : Response}
    (hr : r.responseIds = []) (hnum : r.numResponseIds = 0) :
    fullOutput.length + (iterateItems (respondIds ne fullOutput) own b r).responseIds.length ≤ limit - 200 + 32 := by
  have hsize : ID_SIZE = 32 := rfl
  set k := (ne.party []).sentIds fullOutput.length 0 own.length with hk
  have hids : (iterateItems (respondIds ne fullOutput) own b r).responseIds = idBytes ((own.take k).map Item.id) := by
    have := iterateItems_respondIds ne [] fullOutput ne.lastTimestampIn ne.lastTimestampOut own b 0 r
      (by rw [hr]; rfl) hnum
    rw [show ne.at ne.lastTimestampIn ne.lastTimestampOut = ne from rfl] at this
    rw [this, hr]
    rfl
  have hlen : (own.take k).length ≤ k := List.length_take_le _ _
  have hfit : k = 0 ∨ fullOutput.length + ID_SIZE * (k - 1) ≤ limit - 200 := by
    refine (Nat.eq_zero_or_pos k).imp_right fun hpos => ?_
    have hfits := sentIds_fits hpos
    simp only [Party.exceeded, Negentropy.party, hne, Bool.and_eq_false_iff, bne_eq_false_iff_eq,
      decide_eq_false_iff_not] at hfits
    simp only [hk, Negentropy.party, hne]
    exact not_lt.mp (hfits.resolve_left (by omega))
  rw [hids, idBytes_length, List.length_map]
  rw [hsize] at hfit ⊢
  omega

theorem reconcileIdList_length {ne ne' : Negentropy σ} (hs : Reads ne.storage items fp)
    (hne : ne.frameSizeLimit = limit) {size lower upper : ℕ} {currBound : Bound} {st : ReconcileState}
    {r : ReconcileState × Bool} (hst : st.fullOutput.length ≤ limit - 200)
    (h : reconcileIdList size currBound lower upper st ne = .ok r ne') :
    SameObject ne ne' ∧ WithinLimit limit r := by
  rw [reconcileIdList, bind_eq_ok] at h
  obtain ⟨⟨numIds, query⟩, _, hnum, h⟩ := h
  obtain ⟨-, rfl⟩ := call_eq_ok.mp hnum
  rw [bind_eq_ok] at h
  obtain ⟨⟨ids, query'⟩, _, hids, h⟩ := h
  obtain ⟨-, rfl⟩ := call_eq_ok.mp hids
  rw [bind_eq_ok] at h
  obtain ⟨ne0, _, hget, h⟩ := h
  obtain ⟨rfl, rfl⟩ := get_eq_ok.mp hget
  split at h
  · rw [bind_eq_ok] at h
    obtain ⟨⟨haveIds, theirElems⟩, _, hit, h⟩ := h
    obtain ⟨rfl, -⟩ := iterate_ok hs hit
    exact withinLimit_of_finish hlimit hne (by simp only; omega) h
  · rw [bind_eq_ok] at h
    obtain ⟨⟨st', o⟩, _, hskip, h⟩ := h
    obtain ⟨hout, ho, i, o1, rfl⟩ := doSkip_length hskip
    have hst' : st'.fullOutput.length ≤ limit - 200 := (congrArg List.length hout).trans_le hst
    rw [bind_eq_ok] at h
    obtain ⟨resp, _, hit, h⟩ := h
    obtain ⟨rfl, -, -, rfl⟩ := iterate_ok (show Reads (Negentropy.at _ i o1).storage items fp from hs) hit
    rw [bind_eq_ok] at h
    obtain ⟨bound, _, hb, h⟩ := h
    obtain ⟨rfl, i', o2, rfl⟩ := encodeBound_ok hb
    have hresp := respondIds_length hlimit hne hst' (slice items lower upper) lower
      (r := { endBound := currBound, upper }) rfl rfl
    set resp := iterateItems (respondIds _ st'.fullOutput) (slice items lower upper) lower
      { endBound := currBound, upper }
    have hbound := boundBytes_length o1 resp.endBound
    have hmode : (encodeVarInt Mode.idList.toU64).length = 1 := rfl
    have hnum := encodeVarInt_length resp.numResponseIds
    refine (withinLimit_of_finish hlimit (show (Negentropy.at _ i' o2).frameSizeLimit = limit from hne)
      ?_ h).imp_left fun hsame => hsame
    simp only [List.length_append, hmode, Negentropy.at] at ho ⊢
    omega

theorem reconcileRange_length {ne ne' : Negentropy σ} (hs : Reads ne.storage items fp)
    (hne : ne.frameSizeLimit = limit) {size : ℕ} {st : ReconcileState} {r : ReconcileState × Bool}
    (hst : st.fullOutput.length ≤ limit - 200) (h : reconcileRange size st ne = .ok r ne') :
    SameObject ne ne' ∧ WithinLimit limit r := by
  rw [reconcileRange, bind_eq_ok] at h
  obtain ⟨⟨currBound, query⟩, _, hbound, h⟩ := h
  obtain ⟨-, rfl⟩ := (decodeBound_eq_ok (i := ne.lastTimestampIn) (o := ne.lastTimestampOut)).mp hbound
  rw [bind_eq_ok] at h
  obtain ⟨⟨mode, query'⟩, _, hmode, h⟩ := h
  obtain ⟨-, rfl⟩ := call_eq_ok.mp hmode
  rw [bind_eq_ok] at h
  obtain ⟨upper, _, hfind, h⟩ := h
  simp only [Negentropy.findLowerBound, bind_eq_ok, get_eq_ok, call_eq_ok] at hfind
  obtain ⟨_, _, ⟨rfl, rfl⟩, -, rfl⟩ := hfind
  suffices hr : SameObject (ne.at currBound.item.timestamp ne.lastTimestampOut) ne' ∧ WithinLimit limit r from
    hr.imp_left fun hsame => hsame
  have hsat : Reads (ne.at currBound.item.timestamp ne.lastTimestampOut).storage items fp := hs
  have hat : (ne.at currBound.item.timestamp ne.lastTimestampOut).frameSizeLimit = limit := hne
  have hst' : ({ st with query := query' } : ReconcileState).fullOutput.length ≤ limit - 200 := hst
  cases hm : Mode.ofU64 mode with
  | none =>
    simp only [hm] at h
    exact absurd h throw_ne_ok
  | some m =>
    cases m with
    | skip =>
      simp only [hm] at h
      exact withinLimit_of_finish hlimit hat
        (show ({ st with query := query', skip := true } : ReconcileState).fullOutput.length ≤ limit - 70 by
          simp only; omega) h
    | fingerprint =>
      simp only [hm] at h
      exact reconcileFingerprint_length hlimit hsat hat hst' h
    | idList =>
      simp only [hm] at h
      exact reconcileIdList_length hlimit hsat hat hst' h

theorem reconcileLoop_length {size : ℕ} :
    ∀ {rounds : ℕ} {st st' : ReconcileState} {ne ne' : Negentropy σ}, Reads ne.storage items fp →
      ne.frameSizeLimit = limit → st.fullOutput.length ≤ limit - 200 →
      reconcileLoop size rounds st ne = .ok st' ne' → st'.fullOutput.length ≤ limit - 51 := by
  intro rounds
  induction rounds with
  | zero =>
    intro st st' ne ne' _ _ hst h
    cases h
    omega
  | succ rounds ih =>
    intro st st' ne ne' hs hne hst h
    rw [reconcileLoop] at h
    split at h
    · cases h
      omega
    · rw [bind_eq_ok] at h
      obtain ⟨⟨st1, stop⟩, _, hrange, h⟩ := h
      obtain ⟨⟨i, o, rfl⟩, hlen⟩ := reconcileRange_length hlimit hs hne hst hrange
      cases stop with
      | true =>
        cases h
        exact hlen
      | false => exact ih (show Reads (ne.at i o).storage items fp from hs) hne hlen h

theorem reconcileAux_length {ne ne' : Negentropy σ} (hs : Reads ne.storage items fp)
    (hne : ne.frameSizeLimit = limit) {query : Bytes} {r : Bytes × List ItemId × List ItemId}
    (h : reconcileAux query ne = .ok r ne') : r.1.length ≤ limit - 51 := by
  rw [reconcileAux, bind_eq_ok] at h
  obtain ⟨_, _, hmod, h⟩ := h
  obtain rfl := modify_eq_ok.mp hmod
  rw [bind_eq_ok] at h
  obtain ⟨⟨version, query'⟩, _, hbyte, h⟩ := h
  obtain ⟨-, rfl⟩ := call_eq_ok.mp hbyte
  dsimp only at h
  split at h
  · exact absurd h throw_ne_ok
  · split at h
    · rw [bind_eq_ok] at h
      obtain ⟨ne0, _, hget, h⟩ := h
      obtain ⟨rfl, rfl⟩ := get_eq_ok.mp hget
      split at h
      · exact absurd h throw_ne_ok
      · cases h
        simp
        omega
    · rw [bind_eq_ok] at h
      obtain ⟨size, _, hsize, h⟩ := h
      simp only [storageSize, bind_eq_ok, get_eq_ok, call_eq_ok] at hsize
      obtain ⟨_, _, ⟨rfl, rfl⟩, -, rfl⟩ := hsize
      rw [bind_eq_ok] at h
      obtain ⟨st, _, hloop, h⟩ := h
      cases h
      exact reconcileLoop_length hlimit (show Reads (ne.at 0 0).storage items fp from hs) hne (by simp; omega) hloop

end

/-- Every message that `initiate` or `reconcile` returns is at most `frameSizeLimit` bytes long,
on any storage that reads like an array, for either role and any query. -/
theorem message_within_limit {ne : Negentropy σ} (hs : Reads ne.storage items fp)
    (hlimit : 4096 ≤ ne.frameSizeLimit) :
    (∀ message ne', initiate ne = .ok message ne' → message.length ≤ ne.frameSizeLimit) ∧
      (∀ query message ne', reconcile query ne = .ok message ne' → message.length ≤ ne.frameSizeLimit) ∧
      (∀ query message haveIds needIds ne', reconcileHaveNeed query ne = .ok (some message, haveIds, needIds) ne' →
        message.length ≤ ne.frameSizeLimit) := by
  refine ⟨fun message ne' h => ?_, fun query message ne' h => ?_, fun query message haveIds needIds ne' h => ?_⟩
  · rw [initiate, bind_eq_ok] at h
    obtain ⟨ne0, _, hget, h⟩ := h
    obtain ⟨rfl, rfl⟩ := get_eq_ok.mp hget
    split at h
    · exact absurd h throw_ne_ok
    · rw [bind_eq_ok] at h
      obtain ⟨_, _, hmod, h⟩ := h
      obtain rfl := modify_eq_ok.mp hmod
      rw [bind_eq_ok] at h
      obtain ⟨size, _, hsize, h⟩ := h
      simp only [storageSize, bind_eq_ok, get_eq_ok, call_eq_ok] at hsize
      obtain ⟨_, _, ⟨rfl, rfl⟩, -, rfl⟩ := hsize
      rw [bind_eq_ok] at h
      obtain ⟨split, _, hsplit, h⟩ := h
      have hlen := (splitRange_length (by exact hs) hsplit).1
      cases h
      rw [List.length_cons]
      omega
  · rw [reconcile, bind_eq_ok] at h
    obtain ⟨ne0, _, hget, h⟩ := h
    obtain ⟨rfl, rfl⟩ := get_eq_ok.mp hget
    split at h
    · exact absurd h throw_ne_ok
    · rw [bind_eq_ok] at h
      obtain ⟨⟨output, haveIds, needIds⟩, _, haux, h⟩ := h
      have hlen := reconcileAux_length hlimit hs rfl haux
      cases h
      simp only at hlen
      omega
  · rw [reconcileHaveNeed, bind_eq_ok] at h
    obtain ⟨ne0, _, hget, h⟩ := h
    obtain ⟨rfl, rfl⟩ := get_eq_ok.mp hget
    split at h
    · exact absurd h throw_ne_ok
    · rw [bind_eq_ok] at h
      obtain ⟨⟨output, haves, needs⟩, _, haux, h⟩ := h
      have hlen := reconcileAux_length hlimit hs rfl haux
      obtain ⟨heq, -⟩ := pure_eq_ok.mp h
      split at heq
      · cases heq
      · cases heq
        simp only at hlen
        omega

end

section Example

local instance frameLimitSha256 : Sha256 := SHA256.real

/-- Three of the four lists of 31 ids fit, and the fourth is dropped. -/
theorem message_within_limit_cut :
    ((cutServer.party cutServer.storage.items).dropped (sameFp (windowFingerprint cutServer.storage.items)) cutQuery
      {}).isSome = true ∧
    ∃ m ne', reconcile (message cutQuery) cutServer = .ok m ne' ∧ m.length ≤ 4096 := by
  have hdropped := congrArg Option.isSome cutQuery_dropped
  rw [Option.isSome_map] at hdropped
  obtain ⟨i, o, hreply⟩ := reconcile_message cutServer_presents rfl cutQuery_encodable cutQuery_sorted
  exact ⟨hdropped, _, _, hreply, (message_within_limit cutServer_presents.toReads le_rfl).2.1 _ _ _ hreply⟩

end Example

end NE
