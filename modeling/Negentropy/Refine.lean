import Negentropy.Respond

/-! The methods of `negentropy.h` compute the replies of `Party`: on an object whose storage
reads like the array `items`, each iteration of the loop reads one range, does what
`Party.answer` says and writes the bytes of what it adds. -/

namespace NE

open Sorted Stateful Negentropy

/-- The fingerprint of a window. -/
def windowFp (fp : ℕ → ℕ → Fingerprint) (w : Window) : Fingerprint := fp w.begin_ w.end_

/-- The ranges with their fingerprints. -/
def render (fp : ℕ → ℕ → Fingerprint) (rs : List (Range Window)) : List (Range Fingerprint) :=
  rs.map (Range.map (windowFp fp))

@[simp] theorem render_nil (fp : ℕ → ℕ → Fingerprint) : render fp [] = [] := rfl
@[simp] theorem render_append (fp : ℕ → ℕ → Fingerprint) (rs rs' : List (Range Window)) :
    render fp (rs ++ rs') = render fp rs ++ render fp rs' := List.map_append
@[simp] theorem render_cons (fp : ℕ → ℕ → Fingerprint) (r : Range Window) (rs : List (Range Window)) :
    render fp (r :: rs) = r.map (windowFp fp) :: render fp rs := rfl
@[simp] theorem lastTimestamp_render (fp : ℕ → ℕ → Fingerprint) (last : UInt64) (rs : List (Range Window)) :
    lastTimestamp last (render fp rs) = lastTimestamp last rs := lastTimestamp_map _ _ _

theorem payloadBytes_length (pl : Payload Fingerprint) : (payloadBytes pl).length = pl.size := by
  cases pl with
  | skip => rfl
  | fingerprint f =>
    have := f.length_eq
    simp only [payloadBytes, Payload.size, List.length_append, this]
    rfl
  | idList ids =>
    simp only [payloadBytes, Payload.size, List.length_append, idBytes_length]
    rfl

theorem rangesBytes_render_length (fp : ℕ → ℕ → Fingerprint) (last : UInt64) (rs : List (Range Window)) :
    (rangesBytes last (render fp rs)).length = rangesSize last rs := by
  induction rs generalizing last with
  | nil => rfl
  | cons r rs ih =>
    have hsize : (r.payload.map (windowFp fp)).size = r.payload.size := by cases r.payload <;> rfl
    simp only [render_cons, rangesBytes, List.length_append, payloadBytes_length, Range.map, hsize, ih, rangesSize]

section
variable {σ : Type} [StorageBase σ] {ne : Negentropy σ} {items : List Item} {fp : ℕ → ℕ → Fingerprint}

/-- The party an object is when its storage reads like `items`. -/
def Negentropy.party (ne : Negentropy σ) (items : List Item) : Party := ⟨items, ne.frameSizeLimit, ne.isInitiator⟩

theorem storageSize_eq (hs : Reads ne.storage items fp) (i o : UInt64) :
    storageSize (ne.at i o) = .ok items.length (ne.at i o) := by
  simp only [storageSize, bind_eq_ok, get_eq_ok, call_eq_ok]
  exact ⟨_, _, ⟨rfl, rfl⟩, hs.size, rfl⟩

theorem fingerprint_eq (hs : Reads ne.storage items fp) {b e : ℕ} (hb : b ≤ e) (he : e ≤ items.length)
    (i o : UInt64) : Negentropy.fingerprint b e (ne.at i o) = .ok (fp b e) (ne.at i o) := by
  simp only [Negentropy.fingerprint, bind_eq_ok, get_eq_ok, call_eq_ok]
  exact ⟨_, _, ⟨rfl, rfl⟩, (hs.fingerprint b e).trans (if_pos ⟨hb, he⟩), rfl⟩

theorem iterate_eq (hs : Reads ne.storage items fp) {b e : ℕ} (hb : b ≤ e) (he : e ≤ items.length)
    {α : Type} (cb : α → Item → ℕ → α × Bool) (st : α) (i o : UInt64) :
    Negentropy.iterate b e cb st (ne.at i o) = .ok (iterateItems cb (slice items b e) b st) (ne.at i o) := by
  simp only [Negentropy.iterate, bind_eq_ok, get_eq_ok, call_eq_ok]
  exact ⟨_, _, ⟨rfl, rfl⟩, (hs.iterate b e cb st).trans (if_pos ⟨hb, he⟩), rfl⟩

/-- The ids of the items, one after the other. -/
theorem iterateItems_ids (own : List Item) (b : ℕ) :
    iterateItems (fun o item _ => (o ++ item.id.bytes, true)) own b [] = idBytes (own.map Item.id) := by
  rw [iterateItems_fold, idBytes, List.flatMap_map, List.flatMap_eq_foldl]

/-- The two items around a position. -/
theorem iterateItems_pair {curr : ℕ} (h0 : 0 < curr) (h1 : curr < items.length) :
    iterateItems (fun (p : Item × Item) item index => (if index = curr - 1 then (item, p.2) else (p.1, item), true))
      (slice items (curr - 1) (curr + 1)) (curr - 1) ({}, {}) =
      (items.getD (curr - 1) {}, items.getD curr {}) := by
  have hsl : slice items (curr - 1) (curr + 1) = [items[curr - 1], items[curr]] := by
    rw [slice, List.drop_eq_getElem_cons (by omega), show curr + 1 - (curr - 1) = 0 + 1 + 1 by omega,
      List.take_succ_cons, show curr - 1 + 1 = curr by omega, List.drop_eq_getElem_cons h1, List.take_succ_cons,
      List.take_zero]
  have hne : curr - 1 + 1 ≠ curr - 1 := by omega
  rw [hsl]
  simp [iterateItems, List.getD_eq_getElem?_getD, h1, show curr - 1 < items.length by omega]

theorem splitBuckets_eq (hs : Reads ne.storage items fp) {upper : ℕ} (hu : upper ≤ items.length)
    (upperBound : Bound) {itemsPerBucket bucketsWithExtra : ℕ} (hpos : 0 < itemsPerBucket) (i : UInt64) :
    ∀ (remaining curr : ℕ) (o : UInt64), remaining ≤ buckets →
      curr + remaining * itemsPerBucket + (bucketsWithExtra - (buckets - remaining)) = upper →
      splitBuckets upper upperBound itemsPerBucket bucketsWithExtra remaining curr (ne.at i o) =
        .ok (rangesBytes o (render fp
            ((ne.party items).splitBuckets upper upperBound itemsPerBucket bucketsWithExtra remaining curr)))
          (ne.at i (lastTimestamp o
            ((ne.party items).splitBuckets upper upperBound itemsPerBucket bucketsWithExtra remaining curr))) := by
  intro remaining
  induction remaining with
  | zero => intro curr o _ _; rfl
  | succ remaining ih =>
    intro curr o hr hsum
    have hnext := Party.bucket_step hr hsum
    simp only at hnext
    set next := curr + (itemsPerBucket + if buckets - (remaining + 1) < bucketsWithExtra then 1 else 0) with hdef
    have hcn : curr < next := by omega
    have hnu : next ≤ upper := by omega
    have hrest : ∀ b : Bound,
        (do
          let bound ← encodeBound b
          let o ← splitBuckets upper upperBound itemsPerBucket bucketsWithExtra remaining next
          return bound ++ encodeVarInt Mode.fingerprint.toU64 ++ (fp curr next).buf ++ o : Method σ Bytes) (ne.at i o) =
        .ok (rangesBytes o (render fp (⟨b, .fingerprint ⟨curr, next⟩⟩ ::
            (ne.party items).splitBuckets upper upperBound itemsPerBucket bucketsWithExtra remaining next)))
          (ne.at i (lastTimestamp b.item.timestamp
            ((ne.party items).splitBuckets upper upperBound itemsPerBucket bucketsWithExtra remaining next))) := by
      intro b
      rw [bind_of_ok (encodeBound_eq ne i o b), bind_of_ok (ih next _ (by omega) hnext)]
      simp only [render_cons, rangesBytes, Range.map, Payload.map, windowFp, payloadBytes, List.append_assoc]
      rfl
    rw [splitBuckets, bind_of_ok (fingerprint_eq hs hcn.le (by omega) i o), ← hdef]
    simp only [Party.splitBuckets, ← hdef, lastTimestamp]
    by_cases heq : next = upper
    · simp only [if_pos heq]
      exact hrest upperBound
    · simp only [if_neg heq]
      rw [bind_of_ok (iterate_eq hs (by omega) (by omega) _ _ i o), iterateItems_pair (by omega) (by omega)]
      exact hrest _

theorem splitRange_eq (hs : Reads ne.storage items fp) {lower upper : ℕ} (hl : lower ≤ upper)
    (hu : upper ≤ items.length) (upperBound : Bound) (i o : UInt64) :
    splitRange lower upper upperBound (ne.at i o) =
      .ok (rangesBytes o (render fp ((ne.party items).splitRange lower upper upperBound)))
        (ne.at i (lastTimestamp o ((ne.party items).splitRange lower upper upperBound))) := by
  by_cases hn : upper - lower < buckets * 2
  · have hlen := slice_length items hu (b := lower)
    rw [splitRange, if_pos hn, bind_of_ok (encodeBound_eq ne i o _), bind_of_ok (iterate_eq hs hl hu _ _ i _),
      iterateItems_ids]
    simp only [Party.splitRange, if_pos hn, render_cons, render_nil, rangesBytes, Range.map, Payload.map, payloadBytes,
      lastTimestamp, List.append_assoc, List.append_nil, Negentropy.party, List.length_map, hlen]
    rfl
  · have hdiv := Nat.div_add_mod (upper - lower) buckets
    have hpos : 0 < (upper - lower) / buckets := Nat.div_pos (by omega) (by decide)
    have hsum : lower + buckets * ((upper - lower) / buckets) + ((upper - lower) % buckets - (buckets - buckets)) =
        upper := by omega
    rw [splitRange, if_neg hn, splitBuckets_eq hs hu upperBound hpos i buckets lower o le_rfl hsum]
    simp only [Party.splitRange, if_neg hn]

/-! ### One range -/

/-- The local variables of the loop when the party has computed `st` and `query` is left. -/
def Party.Answer.state {φ : Type} (fp : ℕ → ℕ → Fingerprint) (st : Party.Answer φ) (query : Bytes) :
    ReconcileState where
  query := query
  fullOutput := PROTOCOL_VERSION :: rangesBytes 0 (render fp st.out)
  prevBound := st.prevBound
  prevIndex := st.prevIndex
  skip := st.skip
  haveIds := st.haveIds
  needIds := st.needIds

variable {φ : Type}

omit [StorageBase σ] in
theorem fullOutput_length (fp : ℕ → ℕ → Fingerprint) (rs : List (Range Window)) :
    (PROTOCOL_VERSION :: rangesBytes 0 (render fp rs)).length = Party.messageSize rs := by
  rw [List.length_cons, rangesBytes_render_length, Party.messageSize, Nat.add_comm]

omit [StorageBase σ] in
theorem doSkip_eq (ne : Negentropy σ) (fp : ℕ → ℕ → Fingerprint) (st : Party.Answer φ) (query : Bytes) (i : UInt64) :
    doSkip (st.state fp query) (ne.at i (lastTimestamp 0 st.out)) =
      .ok (({ st with skip := false } : Party.Answer φ).state fp query,
          rangesBytes (lastTimestamp 0 st.out) (render fp st.flush))
        (ne.at i (lastTimestamp 0 (st.out ++ st.flush))) := by
  cases hskip : st.skip with
  | false =>
    simp only [doSkip, Party.Answer.state, Party.Answer.flush, hskip, Bool.false_eq_true, if_false, List.append_nil,
      render_nil, rangesBytes]
    rfl
  | true =>
    simp only [doSkip, Party.Answer.state, Party.Answer.flush, hskip, if_true, bind_of_ok (encodeBound_eq ne i _ _),
      render_cons, render_nil, rangesBytes, List.append_nil, lastTimestamp_append]
    rfl

theorem finishRange_eq (hs : Reads ne.storage items fp) {upper : ℕ} (hu : upper ≤ items.length) (currBound : Bound)
    (o : List (Range Window)) (st : Party.Answer φ) (query : Bytes) (i : UInt64) :
    finishRange items.length currBound upper (rangesBytes (lastTimestamp 0 st.out) (render fp o)) (st.state fp query)
        (ne.at i (lastTimestamp 0 (st.out ++ o))) =
      .ok (((ne.party items).finishRange currBound upper o st).1.state fp query,
          ((ne.party items).finishRange currBound upper o st).2)
        (ne.at i (lastTimestamp 0 ((ne.party items).finishRange currBound upper o st).1.out)) := by
  have hlen : (st.state fp query).fullOutput.length + (rangesBytes (lastTimestamp 0 st.out) (render fp o)).length =
      Party.messageSize (st.out ++ o) := by
    rw [← fullOutput_length fp, render_append, rangesBytes_append, lastTimestamp_render]
    simp [Party.Answer.state]
    omega
  have hget : (get : Method σ (Negentropy σ)) (ne.at i (lastTimestamp 0 (st.out ++ o))) =
      .ok (ne.at i (lastTimestamp 0 (st.out ++ o))) (ne.at i (lastTimestamp 0 (st.out ++ o))) := rfl
  rw [finishRange, bind_of_ok hget, hlen]
  cases hex : (ne.party items).exceeded (Party.messageSize (st.out ++ o)) with
  | true =>
    have hex' : (ne.at i (lastTimestamp 0 (st.out ++ o))).exceededFrameSizeLimit
        (Party.messageSize (st.out ++ o)) = true := hex
    rw [if_pos hex', bind_of_ok (fingerprint_eq hs hu le_rfl i _), bind_of_ok (encodeBound_eq ne i _ _)]
    simp only [Party.finishRange, hex, if_true, Party.Answer.state, Party.remaining, render_append, render_cons,
      render_nil, rangesBytes_append, rangesBytes, lastTimestamp_append, lastTimestamp_render, Range.map, Payload.map,
      windowFp, payloadBytes, boundBytes_infinity _ (lastTimestamp 0 st.out), List.append_nil, List.append_assoc,
      List.cons_append]
    rfl
  | false =>
    have hex' : ¬ (ne.at i (lastTimestamp 0 (st.out ++ o))).exceededFrameSizeLimit
        (Party.messageSize (st.out ++ o)) = true := by
      intro h
      exact Bool.false_ne_true (hex.symm.trans h)
    rw [if_neg hex']
    simp only [Party.finishRange, hex, if_false, Bool.false_eq_true, Party.Answer.state, render_append,
      rangesBytes_append, lastTimestamp_render, List.cons_append]
    rfl

/-- An iteration that adds nothing to what is written. -/
theorem finishRange_nil_eq (hs : Reads ne.storage items fp) {upper : ℕ} (hu : upper ≤ items.length)
    (currBound : Bound) (st : Party.Answer φ) (query : Bytes) (i : UInt64) :
    finishRange items.length currBound upper [] (st.state fp query) (ne.at i (lastTimestamp 0 st.out)) =
      .ok (((ne.party items).finishRange currBound upper [] st).1.state fp query,
          ((ne.party items).finishRange currBound upper [] st).2)
        (ne.at i (lastTimestamp 0 ((ne.party items).finishRange currBound upper [] st).1.out)) := by
  have := finishRange_eq hs hu currBound [] st query i
  rwa [List.append_nil] at this

/-- Which received fingerprints equal that of a window. -/
def sameFp (fp : ℕ → ℕ → Fingerprint) (f : Fingerprint) (w : Window) : Bool := decide (f = windowFp fp w)

theorem getBytes_of_readFingerprint {encoded rest : Bytes} {f : Fingerprint}
    (h : readFingerprint encoded = .ok (f, rest)) : getBytes encoded FINGERPRINT_SIZE = .ok (f.buf, rest) := by
  unfold readFingerprint at h
  split at h
  · cases h
  · next hlen =>
    cases h
    rw [getBytes, if_neg hlen]

theorem readFingerprint_of_getBytes {encoded bytes rest : Bytes}
    (h : getBytes encoded FINGERPRINT_SIZE = .ok (bytes, rest)) : ∃ f, readFingerprint encoded = .ok (f, rest) := by
  unfold getBytes at h
  split at h
  · cases h
  · next hlen =>
    cases h
    exact ⟨_, by rw [readFingerprint, dif_neg hlen]⟩

theorem reconcileFingerprint_eq (hs : Reads ne.storage items fp) (st : Party.Answer Fingerprint) {bound : Bound}
    {encoded rest : Bytes} {f : Fingerprint} (hread : readFingerprint encoded = .ok (f, rest))
    (hl : st.prevIndex ≤ lowerBound items bound.item) (i : UInt64) :
    reconcileFingerprint items.length bound st.prevIndex (lowerBound items bound.item) (st.state fp encoded)
        (ne.at i (lastTimestamp 0 st.out)) =
      .ok (((ne.party items).answer (sameFp fp) st ⟨bound, .fingerprint f⟩).1.state fp rest,
          ((ne.party items).answer (sameFp fp) st ⟨bound, .fingerprint f⟩).2)
        (ne.at i (lastTimestamp 0 ((ne.party items).answer (sameFp fp) st ⟨bound, .fingerprint f⟩).1.out)) := by
  have hu : lowerBound items bound.item ≤ items.length := lowerBound_le_length _ _
  have hcall : call (getBytes (st.state fp encoded).query FINGERPRINT_SIZE) (ne.at i (lastTimestamp 0 st.out)) =
      .ok (f.buf, rest) (ne.at i (lastTimestamp 0 st.out)) :=
    call_eq_ok.mpr ⟨getBytes_of_readFingerprint hread, rfl⟩
  rw [reconcileFingerprint]
  refine (bind_of_ok hcall).trans ((bind_of_ok (fingerprint_eq hs hl hu i _)).trans ?_)
  by_cases hsame : f = fp st.prevIndex (lowerBound items bound.item)
  · have hsame' : sameFp fp f ⟨st.prevIndex, lowerBound items bound.item⟩ = true := decide_eq_true hsame
    have hfin := finishRange_nil_eq hs hu bound
      ({ st with
        skip := true
        compared := st.compared ++ [(f, ⟨st.prevIndex, lowerBound items bound.item⟩, true)] } : Party.Answer Fingerprint)
      rest i
    rw [Party.answer_same (P := ne.party items) hsame']
    rw [if_neg (by rw [hsame]; exact not_not.mpr rfl)]
    exact hfin
  · have hsame' : sameFp fp f ⟨st.prevIndex, lowerBound items bound.item⟩ = false := decide_eq_false hsame
    have hskip := doSkip_eq ne fp st rest i
    have hsplit := splitRange_eq hs hl hu bound i (lastTimestamp 0 (st.out ++ st.flush))
    have hfin := finishRange_eq hs hu bound
      (st.flush ++ (ne.party items).splitRange st.prevIndex (lowerBound items bound.item) bound)
      ({ st with
        skip := false
        compared := st.compared ++ [(f, ⟨st.prevIndex, lowerBound items bound.item⟩, false)] } : Party.Answer Fingerprint)
      rest i
    rw [if_pos fun h => hsame (Fingerprint.ext h)]
    refine (bind_of_ok hskip).trans ((bind_of_ok hsplit).trans ?_)
    rw [Party.answer_different (P := ne.party items) hsame']
    simp only [render_append, rangesBytes_append, lastTimestamp_render, ← List.append_assoc, lastTimestamp_append] at hfin ⊢
    exact hfin

omit [StorageBase σ] in
/-- The initiator's callback compares the items with the ids, whatever it has found before. -/
theorem iterateItems_compareIds (own : List Item) (b : ℕ) (haveIds theirElems : List ItemId) :
    iterateItems compareIds own b (haveIds, theirElems) =
      (haveIds ++ (own.foldl Party.compareStep ([], theirElems)).1,
        (own.foldl Party.compareStep ([], theirElems)).2) := by
  have hcb : (compareIds : List ItemId × List ItemId → Item → ℕ → _) =
      fun st item _ => (Party.compareStep st item, true) := by
    funext st item index
    unfold compareIds Party.compareStep
    split <;> rfl
  rw [hcb, iterateItems_fold, Party.foldl_compareStep]

omit [StorageBase σ] in
/-- The other party's callback sends ids until the limit is exceeded. -/
theorem iterateItems_respondIds (ne : Negentropy σ) (items : List Item) (fullOutput : Bytes) (i o : UInt64)
    (own : List Item) :
    ∀ (b sent : ℕ) (r : Response), r.responseIds.length = ID_SIZE * sent → r.numResponseIds = UInt64.ofNat sent →
      iterateItems (respondIds (ne.at i o) fullOutput) own b r =
        let k := (ne.party items).sentIds fullOutput.length sent own.length - sent
        { responseIds := r.responseIds ++ idBytes ((own.take k).map Item.id)
          numResponseIds := UInt64.ofNat (sent + k)
          endBound := if k < own.length then Bound.ofItem (own.getD k {}) else r.endBound
          upper := if k < own.length then b + k else r.upper } := by
  induction own with
  | nil =>
    intro b sent r _ hn
    simp [iterateItems, Party.sentIds, idBytes, ← hn]
  | cons x own ih =>
    intro b sent r hlen hn
    rw [List.length_cons, Party.sentIds]
    cases hex : (ne.party items).exceeded (fullOutput.length + ID_SIZE * sent) with
    | true =>
      have hex' : (ne.at i o).exceededFrameSizeLimit (fullOutput.length + r.responseIds.length) = true := by
        rw [hlen]
        exact hex
      simp only [iterateItems, respondIds, hex', if_true, Nat.sub_self]
      simp [idBytes, hn]
    | false =>
      have hex' : (ne.at i o).exceededFrameSizeLimit (fullOutput.length + r.responseIds.length) = false := by
        rw [hlen]
        exact hex
      have hk := Party.sentIds_le (ne.party items) fullOutput.length own.length (sent + 1)
      simp only [iterateItems, respondIds, hex', Bool.false_eq_true, if_false]
      rw [ih (b + 1) (sent + 1) _ (by simp [hlen, x.id.length_eq, Nat.mul_succ]) (by simp [hn])]
      obtain ⟨k, hk'⟩ : ∃ k, (ne.party items).sentIds fullOutput.length (sent + 1) own.length = sent + 1 + k :=
        ⟨_, (Nat.add_sub_cancel' hk.1).symm⟩
      simp only [hk', Nat.add_sub_cancel_left, show sent + 1 + k - sent = k + 1 by omega]
      simp only [List.take_succ_cons, List.map_cons, idBytes, List.flatMap_cons, List.append_assoc,
        show sent + 1 + k = sent + (k + 1) by omega, Nat.add_lt_add_iff_right, List.getD_cons_succ,
        show b + 1 + k = b + (k + 1) by omega]

theorem reconcileIdList_eq (hs : Reads ne.storage items fp) (same : Fingerprint → Window → Bool)
    (st : Party.Answer Fingerprint) {bound : Bound} {encoded encoded' rest : Bytes} {numIds : UInt64} {ids : List ItemId}
    (hnum : decodeVarInt encoded = .ok (numIds, encoded')) (hids : getIds numIds.toNat encoded' = .ok (ids, rest))
    (hl : st.prevIndex ≤ lowerBound items bound.item) (i : UInt64) :
    reconcileIdList items.length bound st.prevIndex (lowerBound items bound.item) (st.state fp encoded)
        (ne.at i (lastTimestamp 0 st.out)) =
      .ok (((ne.party items).answer same st ⟨bound, .idList ids⟩).1.state fp rest,
          ((ne.party items).answer same st ⟨bound, .idList ids⟩).2)
        (ne.at i (lastTimestamp 0 ((ne.party items).answer same st ⟨bound, .idList ids⟩).1.out)) := by
  have hu : lowerBound items bound.item ≤ items.length := lowerBound_le_length _ _
  set upper := lowerBound items bound.item with hupper
  have hcall : call (decodeVarInt (st.state fp encoded).query) (ne.at i (lastTimestamp 0 st.out)) =
      .ok (numIds, encoded') (ne.at i (lastTimestamp 0 st.out)) := call_eq_ok.mpr ⟨hnum, rfl⟩
  have hcall' : call (getIds numIds.toNat encoded') (ne.at i (lastTimestamp 0 st.out)) =
      .ok (ids, rest) (ne.at i (lastTimestamp 0 st.out)) := call_eq_ok.mpr ⟨hids, rfl⟩
  have hget : (get : Method σ (Negentropy σ)) (ne.at i (lastTimestamp 0 st.out)) =
      .ok (ne.at i (lastTimestamp 0 st.out)) (ne.at i (lastTimestamp 0 st.out)) := rfl
  rw [reconcileIdList]
  refine (bind_of_ok hcall).trans ((bind_of_ok hcall').trans ((bind_of_ok hget).trans ?_))
  cases hinit : (ne.party items).isInitiator with
  | true =>
    have hfin := finishRange_nil_eq hs hu bound
      ({ st with
        skip := true
        haveIds := st.haveIds ++ (Party.compare ids (slice items st.prevIndex upper)).1
        needIds := st.needIds ++ (Party.compare ids (slice items st.prevIndex upper)).2 } : Party.Answer Fingerprint)
      rest i
    rw [if_pos (show (ne.at i (lastTimestamp 0 st.out)).isInitiator = true from hinit)]
    refine (bind_of_ok (iterate_eq hs hl hu _ _ i _)).trans ?_
    rw [iterateItems_compareIds, Party.answer_report _ _ _ _ hinit]
    exact hfin
  | false =>
    rw [if_neg (show ¬ (ne.at i (lastTimestamp 0 st.out)).isInitiator = true from fun h =>
      Bool.false_ne_true (hinit.symm.trans h))]
    refine (bind_of_ok (doSkip_eq ne fp st rest i)).trans
      ((bind_of_ok (iterate_eq hs hl hu _ _ i _)).trans ?_)
    have hlen := slice_length items hu (b := st.prevIndex)
    have hk := Party.sentIds_le (ne.party items) (Party.messageSize st.out) (upper - st.prevIndex) 0
    set k := (ne.party items).sentIds (Party.messageSize st.out) 0 (upper - st.prevIndex) with hkdef
    have hrespond : iterateItems (respondIds (ne.at i (lastTimestamp 0 st.out))
          (({ st with skip := false } : Party.Answer Fingerprint).state fp rest).fullOutput)
          (slice items st.prevIndex upper) st.prevIndex { endBound := bound, upper } =
        { responseIds := idBytes ((slice items st.prevIndex (st.prevIndex + k)).map Item.id)
          numResponseIds := UInt64.ofNat k
          endBound := (ne.party items).endBound bound (st.prevIndex + k)
          upper := st.prevIndex + k } := by
      have hwritten : (({ st with skip := false } : Party.Answer Fingerprint).state fp rest).fullOutput.length =
          Party.messageSize st.out := fullOutput_length fp st.out
      rw [iterateItems_respondIds ne items _ i _ _ _ 0 _ rfl rfl, hwritten, hlen]
      simp only [← hkdef, Nat.sub_zero, Nat.zero_add, List.nil_append, take_slice items (show st.prevIndex + k ≤ upper by omega)]
      by_cases hcut : k < upper - st.prevIndex
      · have hcut' : st.prevIndex + k < lowerBound (ne.party items).items bound.item := by
          show st.prevIndex + k < upper
          omega
        simp only [Party.endBound, if_pos hcut, if_pos hcut', getD_slice items (show st.prevIndex + k < upper by omega)]
        rfl
      · have hcut' : ¬ st.prevIndex + k < lowerBound (ne.party items).items bound.item := by
          show ¬ st.prevIndex + k < upper
          omega
        have hend : st.prevIndex + k = upper := by omega
        simp only [Party.endBound, if_neg hcut, if_neg hcut']
        rw [hend]
    have hfin := finishRange_nil_eq hs (show st.prevIndex + k ≤ items.length by omega) bound
      ({ st with
        skip := false
        out := st.out ++ st.flush ++ [⟨(ne.party items).endBound bound (st.prevIndex + k),
          .idList ((slice items st.prevIndex (st.prevIndex + k)).map Item.id)⟩] } :
        Party.Answer Fingerprint) rest i
    rw [hrespond, Party.answer_idList _ _ _ _ hinit (show st.prevIndex + k = _ from rfl)]
    refine (bind_of_ok (encodeBound_eq ne i _ _)).trans ?_
    have hids' : ((slice items st.prevIndex (st.prevIndex + k)).map Item.id).length = k := by
      rw [List.length_map, slice_length items (by omega), Nat.add_sub_cancel_left]
    simp only [Party.Answer.state, render_append, render_cons, render_nil, rangesBytes_append, rangesBytes,
      lastTimestamp_append, lastTimestamp, lastTimestamp_render, Range.map, Payload.map, payloadBytes, hids',
      List.append_assoc, List.append_nil, List.cons_append] at hfin ⊢
    exact hfin

/-- One iteration of the loop, when the next range can be read. -/
theorem reconcileRange_eq (hs : Reads ne.storage items fp) (st : Party.Answer Fingerprint) {r : Range Fingerprint}
    {encoded rest : Bytes} {i : UInt64} (hread : readRange i encoded = .ok (r, rest))
    (hfind : StorageBase.findLowerBound ne.storage st.prevIndex items.length r.bound =
      .ok (lowerBound items r.bound.item))
    (hl : st.prevIndex ≤ lowerBound items r.bound.item) :
    reconcileRange items.length (st.state fp encoded) (ne.at i (lastTimestamp 0 st.out)) =
      .ok (((ne.party items).answer (sameFp fp) st r).1.state fp rest, ((ne.party items).answer (sameFp fp) st r).2)
        (ne.at r.bound.item.timestamp
          (lastTimestamp 0 ((ne.party items).answer (sameFp fp) st r).1.out)) := by
  have hu : lowerBound items r.bound.item ≤ items.length := lowerBound_le_length _ _
  simp only [readRange, readPayload, except_bind_eq_ok] at hread
  obtain ⟨⟨bound, encoded1⟩, hbound, ⟨payload, rest'⟩, ⟨⟨mode, encoded2⟩, hmode, hpayload⟩, heq⟩ := hread
  cases heq
  have h1 : decodeBound (st.state fp encoded).query (ne.at i (lastTimestamp 0 st.out)) =
      .ok (bound, encoded1) (ne.at bound.item.timestamp (lastTimestamp 0 st.out)) :=
    decodeBound_eq_ok.mpr ⟨hbound, rfl⟩
  have h2 : call (decodeVarInt encoded1) (ne.at bound.item.timestamp (lastTimestamp 0 st.out)) =
      .ok (mode, encoded2) (ne.at bound.item.timestamp (lastTimestamp 0 st.out)) := call_eq_ok.mpr ⟨hmode, rfl⟩
  have h3 : Negentropy.findLowerBound (st.state fp encoded).prevIndex items.length bound
      (ne.at bound.item.timestamp (lastTimestamp 0 st.out)) =
      .ok (lowerBound items bound.item) (ne.at bound.item.timestamp (lastTimestamp 0 st.out)) := by
    simp only [Negentropy.findLowerBound, bind_eq_ok, get_eq_ok, call_eq_ok]
    exact ⟨_, _, ⟨rfl, rfl⟩, hfind, rfl⟩
  rw [reconcileRange]
  refine (bind_of_ok h1).trans ((bind_of_ok h2).trans ((bind_of_ok h3).trans ?_))
  cases hm : Mode.ofU64 mode with
  | none => simp [hm, throw, throwThe, MonadExceptOf.throw] at hpayload
  | some m =>
    cases m with
    | skip =>
      simp only [hm] at hpayload
      cases hpayload
      exact finishRange_nil_eq hs hu bound { st with skip := true } _ bound.item.timestamp
    | fingerprint =>
      simp only [hm, except_bind_eq_ok] at hpayload
      obtain ⟨⟨f, rest''⟩, hf, heq⟩ := hpayload
      cases heq
      exact reconcileFingerprint_eq hs st hf hl bound.item.timestamp
    | idList =>
      simp only [hm, except_bind_eq_ok] at hpayload
      obtain ⟨⟨numIds, encoded3⟩, hn, ⟨ids, rest''⟩, hids, heq⟩ := hpayload
      cases heq
      exact reconcileIdList_eq hs _ st hn hids hl bound.item.timestamp

/-- An iteration only succeeds when the next range can be read. -/
theorem readRange_of_reconcileRange {i o : UInt64} {size : ℕ} {st : ReconcileState}
    {x : ReconcileState × Bool} {ne' : Negentropy σ} (h : reconcileRange size st (ne.at i o) = .ok x ne') :
    ∃ r rest, readRange i st.query = .ok (r, rest) := by
  rw [reconcileRange] at h
  obtain ⟨⟨bound, encoded1⟩, _, hbound, h⟩ := bind_eq_ok.mp h
  obtain ⟨hbound', rfl⟩ := decodeBound_eq_ok.mp hbound
  obtain ⟨⟨mode, encoded2⟩, _, hmode, h⟩ := bind_eq_ok.mp h
  obtain ⟨hmode', rfl⟩ := call_eq_ok.mp hmode
  obtain ⟨upper, _, -, h⟩ := bind_eq_ok.mp h
  suffices hp : ∃ payload rest, readPayload encoded1 = .ok (payload, rest) by
    obtain ⟨payload, rest, hp⟩ := hp
    exact ⟨⟨bound, payload⟩, rest, by simp [readRange, hbound', hp, bind, Except.bind, pure, Except.pure]⟩
  cases hm : Mode.ofU64 mode with
  | none =>
    simp only [hm] at h
    exact absurd h throw_ne_ok
  | some m =>
    simp only [hm] at h
    cases m with
    | skip => exact ⟨.skip, encoded2, by simp [readPayload, hmode', hm, bind, Except.bind, pure, Except.pure]⟩
    | fingerprint =>
      rw [reconcileFingerprint] at h
      obtain ⟨⟨bytes, rest⟩, _, hf, -⟩ := bind_eq_ok.mp h
      obtain ⟨hf, -⟩ := call_eq_ok.mp hf
      obtain ⟨f, hread⟩ := readFingerprint_of_getBytes hf
      exact ⟨.fingerprint f, rest, by
        simp [readPayload, hmode', hm, hread, bind, Except.bind, pure, Except.pure]⟩
    | idList =>
      rw [reconcileIdList] at h
      obtain ⟨⟨numIds, encoded3⟩, _, hn, h⟩ := bind_eq_ok.mp h
      obtain ⟨hn', rfl⟩ := call_eq_ok.mp hn
      obtain ⟨⟨ids, rest⟩, _, hids, -⟩ := bind_eq_ok.mp h
      obtain ⟨hids', -⟩ := call_eq_ok.mp hids
      dsimp only at hn' hids'
      exact ⟨.idList ids, rest, by
        simp [readPayload, hmode', hm, hn', hids', bind, Except.bind, pure, Except.pure]⟩

theorem reconcileLoop_succ {size rounds : ℕ} (st : ReconcileState) (h : st.query ≠ []) :
    reconcileLoop (σ := σ) size (rounds + 1) st = (do
      let (st, stop) ← reconcileRange size st
      if stop then return st else reconcileLoop size rounds st) := by
  rw [reconcileLoop, if_neg h]

/-- The loop, on any bytes whose bounds do not decrease: it computes the reply to the ranges it
can read, or fails at one that cannot be read. -/
theorem reconcileLoop_eq (hs : Presents ne.storage items fp) :
    ∀ (rounds : ℕ) (st : Party.Answer Fingerprint) (encoded : Bytes) (i : UInt64),
      encoded.length ≤ rounds → st.prevIndex = lowerBound items st.prevBound.item →
      (st.prevBound.item :: (readRanges rounds i encoded).1.map (·.bound.item)).Pairwise (· ≤ ·) →
      (∃ rest i' o', reconcileLoop items.length rounds (st.state fp encoded) (ne.at i (lastTimestamp 0 st.out)) =
          .ok (((ne.party items).answers (sameFp fp) (readRanges rounds i encoded).1 st).state fp rest) (ne.at i' o')) ∨
        (readRanges rounds i encoded).2 ≠ [] ∧
          ∀ x ne', reconcileLoop items.length rounds (st.state fp encoded) (ne.at i (lastTimestamp 0 st.out)) ≠
            .ok x ne' := by
  intro rounds
  induction rounds with
  | zero =>
    intro st encoded i _ _ _
    exact .inl ⟨encoded, i, lastTimestamp 0 st.out, rfl⟩
  | succ rounds ih =>
    intro st encoded i hlen hprev hmono
    by_cases hnil : encoded = []
    · subst hnil
      exact .inl ⟨[], i, lastTimestamp 0 st.out, rfl⟩
    · rw [reconcileLoop_succ (st.state fp encoded) hnil]
      cases hread : readRange i encoded with
      | error e =>
        have hranges : readRanges (rounds + 1) i encoded = ([], encoded) := by
          rw [readRanges, if_neg hnil, hread]
        refine .inr ⟨by rw [hranges]; exact hnil, bind_of_not_ok fun x ne' hok => ?_⟩
        obtain ⟨r, rest, hr⟩ := readRange_of_reconcileRange hok
        rw [show (st.state fp encoded).query = encoded from rfl, hread] at hr
        cases hr
      | ok p =>
        obtain ⟨r, rest⟩ := p
        have hranges : readRanges (rounds + 1) i encoded =
            (r :: (readRanges rounds r.bound.item.timestamp rest).1,
              (readRanges rounds r.bound.item.timestamp rest).2) := by
          rw [readRanges, if_neg hnil, hread]
        simp only [hranges, List.map_cons, List.pairwise_cons] at hmono ⊢
        have hle : st.prevBound.item ≤ r.bound.item := hmono.1 _ List.mem_cons_self
        have hl : st.prevIndex ≤ lowerBound items r.bound.item := hprev ▸ lowerBound_mono hs.sorted hle
        have hstep := reconcileRange_eq hs.toReads st hread (hs.findLowerBound _ _ hl) hl
        rw [bind_of_ok hstep, Party.answers]
        cases hans : (ne.party items).answer (sameFp fp) st r with
        | mk st' stop =>
          cases stop with
          | true => exact .inl ⟨rest, _, _, rfl⟩
          | false =>
            obtain ⟨hb, hi⟩ := Party.answer_continues (P := ne.party items) hl hans
            have hshort := readRange_length hread
            refine ih st' rest r.bound.item.timestamp (by omega) ?_ ?_
            · rw [hi, hb]
              rfl
            · rw [hb]
              exact List.pairwise_cons.mpr hmono.2

end

end NE
