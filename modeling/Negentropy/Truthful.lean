import Negentropy.Sha256
import Negentropy.Storage.Vector
import Negentropy.Wire

/-! Which messages tell the truth: a fingerprint that is sent should be over the sender's items
between the bound before it and its own. `splitRange` and an uncut reply do so; the
fingerprint that ends a cut reply starts at the range that was being answered, although
the ranges this was split into have been discarded. -/

namespace NE

open Sorted Stateful Negentropy

section
variable [Sha256]

/-- Each fingerprint is that of the items from where its range starts to its bound. -/
def TruthfulRanges (items : List Item) : Item → List (Range Fingerprint) → Prop
  | _, [] => True
  | l, r :: rs =>
      (∀ f, r.payload = .fingerprint f → f = fingerprintOf (within items l r.bound.item)) ∧
        TruthfulRanges items r.bound.item rs

/-- A message that can be read to its end, with such fingerprints only. -/
def TruthfulMessage (items : List Item) (m : Bytes) : Prop :=
  (readMessage m).2 = [] ∧ TruthfulRanges items bot (readMessage m).1

/-- The fingerprints of a storage that holds the sorted array `items`. -/
def windowFingerprint (items : List Item) (b e : ℕ) : Fingerprint := fingerprintOf (slice items b e)

/-- Where what has been written ends. -/
def Party.Answer.written {φ : Type} (st : Party.Answer φ) : Item := Rbsr.endOf bot (abstract (fun _ => []) st.out)

omit [Sha256] in
theorem endOf_abstract {φ : Type} (elems elems' : φ → List Item) (l : Item) (rs : List (Range φ)) :
    Rbsr.endOf l (abstract elems rs) = Rbsr.endOf l (abstract elems' rs) := by
  induction rs generalizing l with
  | nil => rfl
  | cons r rs ih => exact ih _

theorem truthfulRanges_append {items : List Item} {l : Item} {rs rs' : List (Range Fingerprint)} :
    TruthfulRanges items l (rs ++ rs') ↔
      TruthfulRanges items l rs ∧ TruthfulRanges items (Rbsr.endOf l (abstract (fun _ => []) rs)) rs' := by
  induction rs generalizing l with
  | nil => simp [TruthfulRanges, abstract, Rbsr.endOf]
  | cons r rs ih =>
    rw [List.cons_append, TruthfulRanges, TruthfulRanges, ih, and_assoc]
    rfl

omit [Sha256] in
theorem abstract_render {fp : ℕ → ℕ → Fingerprint} (elems : Window → List Item) (rs : List (Range Window)) (l : Item) :
    Rbsr.endOf l (abstract (fun _ => []) (render fp rs)) = Rbsr.endOf l (abstract elems rs) := by
  induction rs generalizing l with
  | nil => rfl
  | cons r rs ih => exact ih _

/-- Windows that are over the right items have the right fingerprints. -/
theorem truthfulRanges_render {P : Party} {l : Item} {rs : List (Range Window)}
    (h : Rbsr.Truthful P.items l (abstract P.elems rs)) :
    TruthfulRanges P.items l (render (windowFingerprint P.items) rs) := by
  induction rs generalizing l with
  | nil => trivial
  | cons r rs ih =>
    obtain ⟨bound, payload⟩ := r
    cases payload with
    | skip => exact ⟨fun f hf => (by cases hf), ih h⟩
    | idList ids => exact ⟨fun f hf => (by cases hf), ih h⟩
    | fingerprint w =>
      refine ⟨?_, ih h.2⟩
      rintro f ⟨⟩
      exact congrArg fingerprintOf h.1

/-- When the reply to `q` drops a split, the items between the end of what is written and the range
that was split do not change the last fingerprint. -/
def KeepsFingerprint (P : Party) (q : List (Range Fingerprint)) : Prop :=
  ∀ st r, P.dropped (sameFp (windowFingerprint P.items)) q {} = some (st, r) →
    fingerprintOf (within P.items r.bound.item top) = fingerprintOf (within P.items st.written top)

section
variable {P : Party} (hlimit : P.frameSizeLimit = 0 ∨ 4096 ≤ P.frameSizeLimit) (hsorted : P.items.Pairwise (· < ·))
  (htop : ∀ x ∈ P.items, x < top)
include hlimit hsorted htop

/-- A reply tells the truth exactly when it drops no split, or drops one without effect. -/
theorem reply_truthful_iff {q : List (Range Fingerprint)} (hq : Range.Sorted q) :
    TruthfulRanges P.items bot (render (windowFingerprint P.items)
      (P.reply (sameFp (windowFingerprint P.items)) q).out) ↔ KeepsFingerprint P q := by
  have hq' : Rbsr.Ascending bot (abstract (fun _ : Fingerprint => []) q) :=
    ascending_of_sorted (List.pairwise_cons.mpr ⟨fun x _ => Bound.zero_le x, hq⟩)
  obtain ⟨c, -, hrep⟩ := P.reply_replies hlimit hsorted htop (fun _ => []) (sameFp (windowFingerprint P.items)) hq'
  unfold KeepsFingerprint
  cases hdrop : P.dropped (sameFp (windowFingerprint P.items)) q {} with
  | none =>
    rw [hdrop] at hrep
    exact iff_of_true (truthfulRanges_render hrep.truthful) fun st r h => (by cases h)
  | some x =>
    obtain ⟨st, r⟩ := x
    rw [hdrop] at hrep
    obtain ⟨pre, hout, htrue, hend⟩ := hrep.truthful_dropped
    -- the ranges of the reply: those before the last one, and the last one
    obtain ⟨rs, rs', hrs, rfl, hlast⟩ := List.map_eq_append_iff.mp hout
    obtain ⟨z, hz, hzlast⟩ := List.map_eq_singleton_iff.mp hlast
    obtain ⟨bound, payload⟩ := z
    simp only [Rbsr.Range.mk.injEq] at hzlast
    obtain ⟨hbound, hpayload⟩ := hzlast
    have hwritten : Rbsr.endOf bot (abstract (fun _ => []) (render (windowFingerprint P.items) rs)) = st.written :=
      (abstract_render P.elems rs bot).trans (hend.trans (endOf_abstract _ _ _ _))
    have hpre := truthfulRanges_render (P := P) htrue
    cases payload with
    | skip => cases hpayload
    | idList ids => cases hpayload
    | fingerprint w =>
      have hw : P.elems w = within P.items r.bound.item top := by
        simpa [Payload.abstract, Party.drop] using hpayload
      rw [hrs, hz, render_append, truthfulRanges_append, hwritten]
      simp only [hpre, true_and, render_cons, render_nil, TruthfulRanges, and_true, Range.map, Payload.map, hbound,
        Payload.fingerprint.injEq, forall_eq', windowFp, windowFingerprint, Option.some.injEq, Prod.mk.injEq]
      rw [show slice P.items w.begin_ w.end_ = P.elems w from rfl, hw]
      constructor
      · rintro h _ _ ⟨rfl, rfl⟩
        exact h
      · intro h
        exact h st r ⟨rfl, rfl⟩

end

section
variable {σ : Type} [StorageBase σ] {ne : Negentropy σ} {items : List Item}

omit [Sha256] [StorageBase σ] in
theorem lt_top_of_timestamp (ne : Negentropy σ) (hts : ∀ x ∈ items, x.timestamp < MAX_U64) : ∀ x ∈ (ne.party items).items, x < top :=
  fun x hx => Bound.lt_infinity (hts x hx)

/-- The reply of an object that presents `items`. -/
theorem truthfulMessage_reply_iff (ne : Negentropy σ) (hs : Presents ne.storage items (windowFingerprint items))
    (hts : ∀ x ∈ items, x.timestamp < MAX_U64) {q : List (Range Fingerprint)} (hq : Range.Sorted q) :
    TruthfulMessage items (message (render (windowFingerprint items)
      ((ne.party items).reply (sameFp (windowFingerprint items)) q).out)) ↔ KeepsFingerprint (ne.party items) q := by
  have henc := (ne.party items).reply_encodable ne.limit_ok hs.sorted (lt_top_of_timestamp ne hts) hs.length_lt
    (sameFp (windowFingerprint items)) hq
  rw [TruthfulMessage, readMessage_message (henc.render _)]
  exact (and_iff_right rfl).trans (reply_truthful_iff ne.limit_ok hs.sorted (lt_top_of_timestamp ne hts) hq)

/-- The first message of an object, from which on bounds are encoded relative to zero. -/
theorem truthfulMessage_initial (hs : Presents ne.storage items (windowFingerprint items))
    (hts : ∀ x ∈ items, x.timestamp < MAX_U64) :
    TruthfulMessage items (message (render (windowFingerprint items) (ne.party items).initial)) := by
  have htop := lt_top_of_timestamp ne hts
  have henc := (ne.party items).initial_encodable hs.sorted htop hs.length_lt
  rw [TruthfulMessage, readMessage_message (henc.render _)]
  exact ⟨rfl, truthfulRanges_render ((ne.party items).initial_split hs.sorted htop).truthful⟩

/-- Every fingerprint sent is that of the items of its range: in the first message, if the object has
not encoded a bound before or has fewer items than are split, and in the reply to an
accepted query exactly if no split is dropped with effect. -/
theorem fingerprints_truthful (hs : Presents ne.storage items (windowFingerprint items))
    (hts : ∀ x ∈ items, x.timestamp < MAX_U64) :
    (∀ m ne', ne.lastTimestampOut = 0 ∨ items.length < buckets * 2 → initiate ne = .ok m ne' →
      TruthfulMessage items m) ∧
    (∀ query m ne', Range.Sorted (readMessage query).1 → reconcile query ne = .ok m ne' →
      (TruthfulMessage items m ↔ KeepsFingerprint (ne.party items) (readMessage query).1)) ∧
    (∀ query m haveIds needIds ne', Range.Sorted (readMessage query).1 →
      reconcileHaveNeed query ne = .ok (some m, haveIds, needIds) ne' →
      (TruthfulMessage items m ↔ KeepsFingerprint (ne.party items) (readMessage query).1)) := by
  refine ⟨fun m ne' hfresh h => ?_, fun query m ne' hq h => ?_, fun query m haveIds needIds ne' hq h => ?_⟩
  · obtain rfl := initiate_ok hs.toReads h
    have hinitial := truthfulMessage_initial hs hts
    unfold message at hinitial
    rcases hfresh with hzero | hfew
    · rwa [hzero]
    · have hsingle : (ne.party items).initial =
          [⟨Bound.ofTimestamp MAX_U64, .idList ((slice items 0 items.length).map Item.id)⟩] := if_pos hfew
      simp only [hsingle, render_cons, render_nil, rangesBytes, Range.map, boundBytes_infinity _ 0] at hinitial ⊢
      exact hinitial
  · obtain rfl := reconcile_ok hs hq h
    exact truthfulMessage_reply_iff _ hs hts hq
  · have hout := reconcileHaveNeed_ok hs hq h
    dsimp only at hout
    split at hout
    · cases hout
    · obtain rfl := Option.some.inj hout
      exact truthfulMessage_reply_iff _ hs hts hq

end

end

section Example

local instance truthfulSha256 : Sha256 := SHA256.real

/-- A sealed vector of one item, and no limit. -/
def onlyItem : Negentropy Storage.Vector where
  storage := { items := [sampleItem 1 0], isSealed := true }
  frameSizeLimit := 0
  limit_ok := limit_ok_none

/-- What a client and a server hold: 33 items, and the same but for that at 7, with two more. -/
def clientSample : List Item := itemsAt (List.range 33)
def serverSample : List Item := itemsAt ((List.range 35).filter (· ≠ 7))

theorem sample_sorted : clientSample.Pairwise (· < ·) ∧ serverSample.Pairwise (· < ·) :=
  ⟨itemsAt_sorted List.pairwise_lt_range (by decide), itemsAt_sorted (List.pairwise_lt_range.filter _) (by decide)⟩

theorem sample_small : (∀ x ∈ clientSample, SmallTimestamp x) ∧ ∀ x ∈ serverSample, SmallTimestamp x :=
  ⟨itemsAt_small (by decide), itemsAt_small (by decide)⟩

theorem sample_timestamps : (∀ x ∈ clientSample, x.timestamp < MAX_U64) ∧ ∀ x ∈ serverSample, x.timestamp < MAX_U64 :=
  ⟨fun x hx => (sample_small.1 x hx).lt_max, fun x hx => (sample_small.2 x hx).lt_max⟩

theorem sample_length : clientSample.length = 33 ∧ serverSample.length = 34 :=
  ⟨List.length_map _, (List.length_map _).trans (by decide)⟩

def manyClient : Negentropy Storage.Vector where
  storage := { items := clientSample, isSealed := true }
  frameSizeLimit := 0
  limit_ok := limit_ok_none

def manyServer : Negentropy Storage.Vector where
  storage := { items := serverSample, isSealed := true }
  frameSizeLimit := 0
  limit_ok := limit_ok_none

theorem manyClient_presents : Presents manyClient.storage clientSample (windowFingerprint clientSample) :=
  Storage.Vector.presents rfl (sample_length.1.trans_lt (by decide)) sample_sorted.1

theorem manyServer_presents : Presents manyServer.storage serverSample (windowFingerprint serverSample) :=
  Storage.Vector.presents rfl (sample_length.2.trans_lt (by decide)) sample_sorted.2

/-- A server whose items have four timestamps, 31 each. -/
def cutServer : Negentropy Storage.Vector where
  storage := { items := (List.range 4).flatMap fun t => (List.range 31).map (sampleItem t), isSealed := true }
  frameSizeLimit := 4096
  limit_ok := limit_ok_least

/-- A fingerprint that is that of no window. -/
def wrongFingerprint : Fingerprint := ⟨List.replicate 16 0, rfl⟩

/-- Four ranges, one for each timestamp, with fingerprints that differ from the server's. -/
def cutQuery : List (Range Fingerprint) :=
  [⟨Bound.ofTimestamp 1, .fingerprint wrongFingerprint⟩, ⟨Bound.ofTimestamp 2, .fingerprint wrongFingerprint⟩,
    ⟨Bound.ofTimestamp 3, .fingerprint wrongFingerprint⟩, ⟨Bound.infinity, .fingerprint wrongFingerprint⟩]

theorem cutQuery_encodable : Encodable 0 cutQuery := by
  refine ⟨?_, trivial, ?_, trivial, ?_, trivial, ?_, trivial, trivial⟩ <;> decide

theorem cutQuery_sorted : Range.Sorted cutQuery := by
  unfold Range.Sorted
  decide

theorem cutServer_presents :
    Presents cutServer.storage cutServer.storage.items (windowFingerprint cutServer.storage.items) :=
  Storage.Vector.presents rfl ((samples_length _ _).trans_lt (by decide)) (samples_sorted List.pairwise_lt_range (by decide) List.pairwise_lt_range (by decide))

theorem cutServer_timestamps : ∀ x ∈ cutServer.storage.items, x.timestamp < MAX_U64 := fun x hx =>
  (samples_small (by decide) x hx).lt_max

/-- A first message of sixteen fingerprints, and the reply to one of four. -/
theorem fingerprints_truthful_many :
    (∃ m ne', initiate manyClient = .ok m ne' ∧ TruthfulMessage clientSample m) ∧
      (manyClient.party clientSample).initial.length = 16 ∧
      ∃ m ne', reconcile (message cutQuery) cutServer = .ok m ne' ∧ (TruthfulMessage cutServer.storage.items m ↔
        KeepsFingerprint (cutServer.party cutServer.storage.items) (readMessage (message cutQuery)).1) := by
  have hfirst := initiate_eq manyClient_presents.toReads (show manyClient.isInitiator = false from rfl)
  obtain ⟨i, o, hreply⟩ := reconcile_message cutServer_presents rfl cutQuery_encodable cutQuery_sorted
  refine ⟨⟨_, _, hfirst, ?_⟩, by decide +kernel, _, _, hreply, ?_⟩
  · exact (fingerprints_truthful manyClient_presents sample_timestamps.1).1 _ _ (.inl rfl) hfirst
  · refine (fingerprints_truthful cutServer_presents cutServer_timestamps).2.1 _ _ _ ?_ hreply
    rw [readMessage_message cutQuery_encodable]
    exact cutQuery_sorted

theorem cutQuery_dropped :
    ((cutServer.party cutServer.storage.items).dropped (sameFp (windowFingerprint cutServer.storage.items)) cutQuery
      {}).map (fun x => (x.1.written, x.2.bound)) = some ((Bound.ofTimestamp 3).item, Bound.infinity) := by
  decide +kernel

theorem cutServer_rest : fingerprintOf (within cutServer.storage.items Bound.infinity.item top) ≠
    fingerprintOf (within cutServer.storage.items (Bound.ofTimestamp 3).item top) := by
  decide +kernel

/-- The server's reply ends with the fingerprint of no items, for a range with 31 items: the ids that
were to be sent for it exceed the limit and are discarded. -/
theorem cut_reply_untruthful :
    ((∀ x ∈ cutServer.storage.items, x.timestamp < MAX_U64) ∧ Range.Sorted (readMessage (message cutQuery)).1) ∧
      ∃ m ne', reconcile (message cutQuery) cutServer = .ok m ne' ∧ ¬ TruthfulMessage cutServer.storage.items m := by
  have hread := congrArg (fun x => Range.Sorted x.1) (readMessage_message cutQuery_encodable)
  refine ⟨⟨cutServer_timestamps, hread.mpr cutQuery_sorted⟩, ?_⟩
  obtain ⟨i, o, hrec⟩ := reconcile_message cutServer_presents rfl cutQuery_encodable cutQuery_sorted
  refine ⟨_, _, hrec, fun htruth => ?_⟩
  have hkeeps := (truthfulMessage_reply_iff cutServer cutServer_presents cutServer_timestamps cutQuery_sorted).mp htruth
  obtain ⟨⟨st, r⟩, hdrop, heq⟩ := Option.map_eq_some_iff.mp cutQuery_dropped
  obtain ⟨hwritten, hbound⟩ := Prod.mk.inj heq
  have hsame := hkeeps st r hdrop
  rw [hwritten, hbound] at hsame
  exact cutServer_rest hsame

end Example

end NE
