import Negentropy.Js.Writing

/-! `reconcile` side by side, over vectors of the same items. An iteration that reads small numbers
does the same in both. -/

namespace NE.Js

open Sorted Stateful

/-! ### Callbacks -/

/-- Two callbacks that keep up with one another. -/
theorem iterateItems_keeps {α β : Type} (cb : α → NE.Item → ℕ → α × Bool) (cb' : β → NE.Item → ℕ → β × Bool)
    (R : ℕ → α → β → Prop) (own : List NE.Item) (n : ℕ)
    (hstep : ∀ index a b x, index < n + own.length → R index a b →
      (cb' b x index).2 = (cb a x index).2 ∧ R (index + 1) (cb a x index).1 (cb' b x index).1)
    {a : α} {b : β} (h : R n a b) :
    ∃ m ≤ n + own.length, R m (NE.iterateItems cb own n a) (NE.iterateItems cb' own n b) := by
  induction own generalizing n a b with
  | nil => exact ⟨n, le_rfl, h⟩
  | cons x own ih =>
    obtain ⟨hgo, hnext⟩ := hstep n a b x (by simp) h
    unfold NE.iterateItems
    generalize cb a x n = r at hgo hnext
    generalize cb' b x n = r' at hgo hnext
    obtain ⟨a', go⟩ := r
    obtain ⟨b', go'⟩ := r'
    obtain rfl : go' = go := hgo
    cases go' with
    | true =>
      obtain ⟨m, hm, hr⟩ := ih (n + 1) (fun index a b x hi => hstep index a b x (by simp only [List.length_cons]; omega)) hnext
      exact ⟨m, by simp only [List.length_cons]; omega, hr⟩
    | false => exact ⟨n + 1, by simp only [List.length_cons]; omega, hnext⟩

theorem bytes_injective : Function.Injective ItemId.bytes := fun _ _ => ItemId.ext

theorem foldl_insertElem (ids theirElems : List ItemId) :
    (ids.map ItemId.bytes).foldl Negentropy.insertElem (theirElems.map ItemId.bytes) =
      (ids.foldl NE.Negentropy.insertElem theirElems).map ItemId.bytes := by
  induction ids generalizing theirElems with
  | nil => rfl
  | cons id ids ih =>
    have hinsert : Negentropy.insertElem (theirElems.map ItemId.bytes) id.bytes =
        (NE.Negentropy.insertElem theirElems id).map ItemId.bytes := by
      unfold Negentropy.insertElem NE.Negentropy.insertElem
      simp only [List.mem_map_of_injective bytes_injective]
      split
      · rfl
      · rw [List.map_append, List.map_singleton]
    rw [List.map_cons, List.foldl_cons, List.foldl_cons, hinsert, ih]

/-- No id is an integer index, so that they come in the order of their insertion. -/
theorem objectValues_eq (theirElems : List ItemId) :
    Negentropy.objectValues (theirElems.map ItemId.bytes) = theirElems.map ItemId.bytes := by
  have hlen : ∀ id ∈ theirElems.map ItemId.bytes, id.length ≠ 1 := by
    intro id hid
    obtain ⟨x, -, rfl⟩ := List.mem_map.mp hid
    rw [x.length_eq]
    decide
  have hnone : (theirElems.map ItemId.bytes).filter (·.length = 1) = [] :=
    List.filter_eq_nil_iff.mpr fun id hid => by simpa using hlen id hid
  have hall : (theirElems.map ItemId.bytes).filter (·.length ≠ 1) = theirElems.map ItemId.bytes :=
    List.filter_eq_self.mpr fun id hid => by simpa using hlen id hid
  unfold Negentropy.objectValues
  rw [hnone, hall, List.mergeSort_nil, List.nil_append]

theorem iterateItems_compareIds (own : List NE.Item) (n : ℕ) (haveIds theirElems : List ItemId) :
    NE.iterateItems (fun st item index => Negentropy.compareIds st (ofItem item) index) own n
        (haveIds.map ItemId.bytes, theirElems.map ItemId.bytes) =
      ((NE.iterateItems NE.Negentropy.compareIds own n (haveIds, theirElems)).1.map ItemId.bytes,
        (NE.iterateItems NE.Negentropy.compareIds own n (haveIds, theirElems)).2.map ItemId.bytes) := by
  have hsim := iterateItems_keeps NE.Negentropy.compareIds
    (fun st item index => Negentropy.compareIds st (ofItem item) index)
    (fun _ st st' => st' = (st.1.map ItemId.bytes, st.2.map ItemId.bytes)) own n
    (fun index st st' x _ hst => ?_) (a := (haveIds, theirElems)) rfl
  · obtain ⟨-, -, h⟩ := hsim
    exact h
  · subst hst
    have hmem : (ofItem x).id ∈ st.2.map ItemId.bytes ↔ x.id ∈ st.2 := List.mem_map_of_injective bytes_injective
    unfold Negentropy.compareIds NE.Negentropy.compareIds
    simp only [hmem]
    split
    · exact ⟨rfl, by simp [ofItem]⟩
    · refine ⟨rfl, ?_⟩
      rw [List.map_erase bytes_injective]
      rfl

/-- What the callback captures, as JavaScript holds it. -/
def ofResponse (r : NE.Negentropy.Response) : Negentropy.Response where
  responseIds := r.responseIds
  numResponseIds := r.numResponseIds.toNat
  endBound := ofBound r.endBound
  upper := r.upper

theorem iterateItems_respondIds (ne : NE.Negentropy NE.Storage.Vector) (js : Negentropy NegentropyStorageVector)
    (hlimit : js.frameSizeLimit = ne.frameSizeLimit) (fullOutput : Bytes) (own : List NE.Item) (n : ℕ)
    (hlen : n + own.length < 2 ^ 31) {r : NE.Negentropy.Response} (hr : r.numResponseIds = 0) :
    let r' := NE.iterateItems (NE.Negentropy.respondIds ne fullOutput) own n r
    NE.iterateItems (fun st item index => Negentropy.respondIds js fullOutput st (ofItem item) index) own n (ofResponse r) =
      ofResponse r' ∧ r'.numResponseIds.toNat < 2 ^ 31 := by
  intro r'
  have hsim := iterateItems_keeps (NE.Negentropy.respondIds ne fullOutput)
    (fun st item index => Negentropy.respondIds js fullOutput st (ofItem item) index)
    (fun m st st' => st' = ofResponse st ∧ st.numResponseIds.toNat ≤ m) own n
    (fun m st st' x hm hst => ?_) (a := r) (b := ofResponse r) ⟨rfl, by rw [hr]; exact Nat.zero_le n⟩
  · obtain ⟨m, hm, h, hcount⟩ := hsim
    exact ⟨h, by simp only [r']; omega⟩
  · obtain ⟨rfl, hcount⟩ := hst
    have hone : (1 : UInt64).toNat = 1 := rfl
    have hnext : (st.numResponseIds + 1).toNat = st.numResponseIds.toNat + 1 := by
      rw [UInt64.toNat_add]
      omega
    have hexceeded : js.exceededFrameSizeLimit (fullOutput.length + (ofResponse st).responseIds.length) =
        ne.exceededFrameSizeLimit (fullOutput.length + st.responseIds.length) := by
      unfold Negentropy.exceededFrameSizeLimit NE.Negentropy.exceededFrameSizeLimit
      rw [hlimit]
      rfl
    unfold Negentropy.respondIds NE.Negentropy.respondIds
    rw [hexceeded]
    split
    · refine ⟨rfl, ?_, hcount.trans (Nat.le_succ m)⟩
      rw [← ofBound_ofItem]
      rfl
    · refine ⟨rfl, ?_, ?_⟩
      · unfold ofResponse
        dsimp only
        rw [hnext]
        rfl
      · dsimp only
        rw [hnext]
        omega

/-! ### One range -/

section
variable [Sha256] {input : Bytes} (hlt : input.length < 2 ^ 53) {ne : NE.Negentropy NE.Storage.Vector} {i o : UInt64}
  {unread : Bytes} {s : Run NegentropyStorageVector} (h : Twin input ne i o unread s)
include hlt h

omit [Sha256] in
theorem Twin.getBytes (n : ℕ) :
    Lockstep (fun p bytes c t => n ≤ unread.length ∧ p = (unread.take n, unread.drop n) ∧ bytes = unread.take n ∧
        c = ne.at i o ∧ Twin input ne i o (unread.drop n) t)
      ((NE.call (NE.getBytes unread n) : NE.Method NE.Storage.Vector (Bytes × Bytes)) (ne.at i o))
      ((getBytes n : Method NegentropyStorageVector Bytes) s) := by
  by_cases hshort : unread.length < n
  · have hcpp : NE.getBytes unread n = .error (.err "parse ends prematurely") := if_pos hshort
    rw [hcpp, h.getBytes_error hshort]
    exact .error
  · obtain ⟨t, hget, ht⟩ := h.getBytes_ok hlt (not_lt.mp hshort)
    have hcpp : NE.getBytes unread n = .ok (unread.take n, unread.drop n) := if_neg hshort
    rw [hcpp, hget]
    exact .ok ⟨not_lt.mp hshort, rfl, rfl, rfl, ht⟩

omit hlt in
/-- Both write the same ranges and code the same last timestamp. -/
theorem Twin.splitRange_lockstep (hv : SmallVector ne.storage) {lower upper : ℕ} (hl : lower ≤ upper)
    (hu : upper ≤ ne.storage.items.length) {upperBound : NE.Bound} (hupper : SmallTimestamp upperBound.item.timestamp)
    (ho : o ≤ upperBound.item.timestamp)
    (hwin : ∀ j, lower ≤ j → j < upper → o ≤ Recorded.tsAt ne.storage.items j ∧
      Recorded.tsAt ne.storage.items j ≤ upperBound.item.timestamp) :
    Lockstep (fun bytes bytes' c t => bytes' = bytes ∧ c = ne.at i upperBound.item.timestamp ∧
        Twin input ne i upperBound.item.timestamp unread t)
      ((NE.Negentropy.splitRange lower upper upperBound : NE.Method NE.Storage.Vector Bytes) (ne.at i o))
      ((Negentropy.splitRange lower upper (ofBound upperBound) : Method NegentropyStorageVector Bytes) s) := by
  have hcpp := splitRange_eq hv.reads hl hu upperBound i o
  obtain ⟨log, hlog⟩ := (Recorded.erases_splitRange lower upper upperBound).exists_log hcpp []
  have hlast := (Recorded.records_splitRange ne hv.reads hv.sorted hu i ho hwin [] (by simp) _ _ _ hlog).2
  obtain ⟨t, hjs, ht⟩ := h.splitRange hv hl hu ⟨hupper, fun _ => ho⟩ ho hwin
  rw [hcpp, hjs]
  exact .ok ⟨rfl, hlast, ht⟩

variable (hv : SmallVector ne.storage) (st : NE.Negentropy.ReconcileState) (hquery : st.query = unread) {currBound : NE.Bound}
  {upper : ℕ} (hfound : Recorded.Found ne.storage.items st.prevIndex upper currBound)
  (hge : ∀ j, st.prevIndex ≤ j → j < ne.storage.items.length →
    st.prevBound.item.timestamp ≤ Recorded.tsAt ne.storage.items j)
  (hprev : SmallTimestamp st.prevBound.item.timestamp) (hcurr : SmallTimestamp currBound.item.timestamp)
  (ho : o ≤ st.prevBound.item.timestamp) (hle : st.prevBound.item.timestamp ≤ currBound.item.timestamp)
include hv hquery hfound hge hprev hcurr ho hle

theorem Twin.reconcileFingerprint {k : Bytes → Bool}
    (hsmall : (decide (unread.length < FINGERPRINT_SIZE) || k (unread.drop FINGERPRINT_SIZE)) = true) :
    Lockstep (fun r r' c t => ∃ rest, k rest = true ∧ rest.length ≤ unread.length ∧ Ended input ne st i rest r r' c t)
      ((NE.Negentropy.reconcileFingerprint ne.storage.items.length currBound st.prevIndex upper st :
        NE.Method NE.Storage.Vector (NE.Negentropy.ReconcileState × Bool)) (ne.at i o))
      ((Negentropy.reconcileFingerprint ne.storage.items.length (ofBound currBound) st.prevIndex upper (ofState st) :
        Method NegentropyStorageVector (Negentropy.ReconcileState × Bool)) s) := by
  unfold NE.Negentropy.reconcileFingerprint Negentropy.reconcileFingerprint
  rw [hquery]
  refine (h.getBytes hlt FINGERPRINT_SIZE).bind fun p bytes c t hread => ?_
  obtain ⟨hlen, rfl, rfl, rfl, ht⟩ := hread
  rw [decide_eq_false (not_lt.mpr hlen), Bool.false_or] at hsmall
  have hshorter : (unread.drop FINGERPRINT_SIZE).length ≤ unread.length := List.length_drop.trans_le (Nat.sub_le _ _)
  dsimp only
  rw [bind_of_ok (fingerprint_eq hv.reads hfound.le hfound.le_length i o),
    bind_of_ok (ht.fingerprint hv hfound.le hfound.le_length)]
  set st' : NE.Negentropy.ReconcileState := { st with query := unread.drop FINGERPRINT_SIZE } with hst'
  by_cases hsame : unread.take FINGERPRINT_SIZE = (ownFp ne.storage.items st.prevIndex upper).buf
  · rw [if_neg (not_not.mpr hsame), if_neg (not_not.mpr ((compareUint8Array_eq_zero_iff _ _).mpr hsame))]
    refine (ht.finishRange hv hfound.le_length currBound [] { st' with skip := true } rfl).mono
      fun r r' c t hended => ?_
    exact ⟨_, hsmall, hshorter, hended⟩
  · rw [if_pos hsame, if_pos (mt (compareUint8Array_eq_zero_iff _ _).mp hsame)]
    refine (ht.doSkip st' hprev ho).bind fun r r' c t hskip => ?_
    obtain ⟨hst, hbytes, hskipped, o', ho', rfl, ht⟩ := hskip
    obtain ⟨st'', bytes⟩ := r
    obtain ⟨js, bytes'⟩ := r'
    dsimp only at hst hbytes hskipped ⊢
    subst hst hbytes hskipped
    have hwin : ∀ j, st.prevIndex ≤ j → j < upper → o' ≤ Recorded.tsAt ne.storage.items j ∧
        Recorded.tsAt ne.storage.items j ≤ currBound.item.timestamp := fun j hj hju =>
      ⟨UInt64.le_trans ho' (hge j hj (hju.trans_le hfound.le_length)), hfound.below j hj hju⟩
    refine (ht.splitRange_lockstep hv hfound.le hfound.le_length hcurr (UInt64.le_trans ho' hle) hwin).bind
      fun split split' c t hsplit => ?_
    obtain ⟨rfl, rfl, ht⟩ := hsplit
    exact (ht.finishRange hv hfound.le_length currBound _ _ rfl).mono fun r r' c t hended => ⟨_, hsmall, hshorter, hended⟩

theorem Twin.reconcileIdList {k : Bytes → Bool}
    (hsmall : (smallVarint unread fun numIds raw =>
      decide (raw.length < ID_SIZE * numIds) || k (raw.drop (ID_SIZE * numIds))) = true) :
    Lockstep (fun r r' c t => ∃ rest, k rest = true ∧ rest.length ≤ unread.length ∧ Ended input ne st i rest r r' c t)
      ((NE.Negentropy.reconcileIdList ne.storage.items.length currBound st.prevIndex upper st :
        NE.Method NE.Storage.Vector (NE.Negentropy.ReconcileState × Bool)) (ne.at i o))
      ((Negentropy.reconcileIdList ne.storage.items.length (ofBound currBound) st.prevIndex upper (ofState st) :
        Method NegentropyStorageVector (Negentropy.ReconcileState × Bool)) s) := by
  unfold NE.Negentropy.reconcileIdList Negentropy.reconcileIdList
  rw [hquery]
  refine (h.decodeVarInt hlt hsmall).bind fun num n c t hread => ?_
  obtain ⟨rfl, hn, hsmall', hlen, rfl, ht⟩ := hread
  rw [Int.toNat_natCast]
  refine (ht.getIds hlt num.1.toNat).bind fun ids ids' c t hread => ?_
  obtain ⟨rfl, hlen', hrest, rfl, ht⟩ := hread
  obtain ⟨ids, rest⟩ := ids
  dsimp only at hrest ht ⊢
  have hgood : k rest = true := by
    rw [Bool.or_eq_true, decide_eq_true_eq] at hsmall'
    rw [hrest]
    exact hsmall'.resolve_left (not_lt.mpr hlen')
  have hshorter : rest.length ≤ unread.length := by
    rw [hrest, List.length_drop]
    omega
  have hget : (get : NE.Method NE.Storage.Vector _) (ne.at i o) = .ok (ne.at i o) (ne.at i o) := rfl
  have hget' : (get : Method NegentropyStorageVector (Run NegentropyStorageVector)) t = .ok t t := rfl
  have hrole : t.ne.isInitiator = (ne.at i o).isInitiator := ht.role
  rw [bind_of_ok hget, bind_of_ok hget', hrole]
  split
  · next hinit =>
    rw [bind_of_ok (iterate_eq hv.reads hfound.le hfound.le_length _ _ i o),
      bind_of_ok (ht.iterate hv hfound.le hfound.le_length _ _)]
    have helems := foldl_insertElem ids []
    rw [List.map_nil] at helems
    rw [helems, show (ofState st).haveIds = st.haveIds.map ItemId.bytes from rfl, iterateItems_compareIds]
    set r := NE.iterateItems NE.Negentropy.compareIds (slice ne.storage.items st.prevIndex upper) st.prevIndex
      (st.haveIds, ids.foldl NE.Negentropy.insertElem []) with hr
    dsimp only
    rw [objectValues_eq]
    have hfin := ht.finishRange hv hfound.le_length currBound []
      { st with query := rest, skip := true, haveIds := r.1, needIds := st.needIds ++ r.2 } rfl
    have hst : ofState { st with query := rest, skip := true, haveIds := r.1, needIds := st.needIds ++ r.2 } =
        { ofState st with
          skip := true
          haveIds := r.1.map ItemId.bytes
          needIds := (ofState st).needIds ++ r.2.map ItemId.bytes } := by
      unfold ofState
      rw [List.map_append]
    rw [hst] at hfin
    refine hfin.mono fun r r' c t hended => ⟨_, hgood, hshorter, hended.1, hended.2.1, fun hserver => ?_, hended.2.2.2⟩
    rw [show (ne.at i o).isInitiator = ne.isInitiator from rfl, hserver] at hinit
    cases hinit
  · refine (ht.doSkip { st with query := rest } hprev ho).bind fun r r' c u hskip => ?_
    obtain ⟨hst, hbytes, hskipped, o', ho', rfl, hu⟩ := hskip
    obtain ⟨st', bytes⟩ := r
    obtain ⟨js, bytes'⟩ := r'
    dsimp only at hst hbytes hskipped ⊢
    subst hst hbytes hskipped
    have hlength := hv.length_lt
    have hupper := hfound.le
    have hupper' := hfound.le_length
    have hslice := slice_length ne.storage.items hfound.le_length (b := st.prevIndex)
    rw [bind_of_ok (iterate_eq hv.reads hfound.le hfound.le_length _ _ i o'),
      bind_of_ok (hu.iterate hv hfound.le hfound.le_length _ _)]
    set r := NE.iterateItems (NE.Negentropy.respondIds (ne.at i o) st.fullOutput)
      (slice ne.storage.items st.prevIndex upper) st.prevIndex { endBound := currBound, upper } with hr
    have hrespond := iterateItems_respondIds (ne.at i o) t.ne ht.limit st.fullOutput
      (slice ne.storage.items st.prevIndex upper) st.prevIndex (by omega)
      (r := { endBound := currBound, upper }) rfl
    obtain ⟨hresponse, hcount⟩ := hrespond
    rw [← hr] at hresponse hcount
    rw [show (ofState { st with query := rest, skip := false }).fullOutput = st.fullOutput from rfl,
      show ({ endBound := ofBound currBound, upper } : Negentropy.Response) = ofResponse { endBound := currBound, upper } from rfl,
      hresponse]
    have hend := Recorded.respondIds_end (ne.at i o) st.fullOutput (slice ne.storage.items st.prevIndex upper) st.prevIndex
      { endBound := currBound, upper }
    rw [← hr] at hend
    obtain ⟨hcodable, hstop⟩ : Codable o' r.endBound ∧ r.upper ≤ ne.storage.items.length := by
      rcases hend with ⟨hbound, hstop⟩ | ⟨n, hn, hbound, hstop, -⟩
      · rw [hbound, hstop]
        exact ⟨⟨hcurr, fun _ => UInt64.le_trans ho' hle⟩, hupper'⟩
      · -- the reply is cut at an item
        have hts : r.endBound.item.timestamp = Recorded.tsAt ne.storage.items (st.prevIndex + n) := by
          rw [hbound, getD_slice ne.storage.items (by omega)]
          rfl
        refine ⟨⟨fun _ => ?_, fun _ => ?_⟩, by omega⟩
        · rw [hts]
          exact hv.timestamp_lt (by omega)
        · rw [hts]
          exact UInt64.le_trans ho' (hge _ (by omega) (by omega))
    obtain ⟨u', henc, hu'⟩ := hu.encodeBound hcodable
    rw [bind_of_ok (encodeBound_eq ne i o' _), show (ofResponse r).endBound = ofBound r.endBound from rfl, bind_of_ok henc]
    have hnum : encodeVarInt (ofResponse r).numResponseIds = NE.encodeVarInt r.numResponseIds := by
      have hnat := encodeVarInt_eq r.numResponseIds.toNat (hcount.trans (by decide))
      rwa [UInt64.ofNat_toNat] at hnat
    rw [hnum]
    exact (hu'.finishRange hv hstop currBound [] _ rfl).mono fun r r' c t hended => ⟨_, hgood, hshorter, hended⟩

end

end NE.Js
