import Negentropy.Outcome
import Negentropy.Storage.Agree

/-! Two parties with the same items are done after one round: every fingerprint of the first
message is located where the other side cuts too, and a list of all ids is answered by the
same list. -/

namespace NE

open Sorted Stateful Negentropy

namespace Party

section
variable {P : Party}

/-! ### Fingerprints of the same windows -/

/-- Each range is the fingerprint of a window that starts where the one before ends, and ends where
its bound is found. -/
def Located (items : List Item) : ℕ → List (Range Window) → Prop
  | _, [] => True
  | l, r :: rs =>
      r.payload = .fingerprint ⟨l, lowerBound items r.bound.item⟩ ∧ Located items (lowerBound items r.bound.item) rs

theorem splitBuckets_located (hsorted : P.items.Pairwise (· < ·)) {upper itemsPerBucket bucketsWithExtra : ℕ}
    {upperBound : Bound} (hupper : lowerBound P.items upperBound.item = upper) (hpos : 0 < itemsPerBucket) :
    ∀ (remaining curr : ℕ), remaining ≤ buckets →
      curr + remaining * itemsPerBucket + (bucketsWithExtra - (buckets - remaining)) = upper →
      Located P.items curr (P.splitBuckets upper upperBound itemsPerBucket bucketsWithExtra remaining curr) := by
  have hu : upper ≤ P.items.length := hupper ▸ lowerBound_le_length _ _
  intro remaining
  induction remaining with
  | zero => exact fun _ _ _ => trivial
  | succ remaining ih =>
    intro curr hr hsum
    have hnext := bucket_step hr hsum
    simp only at hnext
    set next := curr + (itemsPerBucket + if buckets - (remaining + 1) < bucketsWithExtra then 1 else 0) with hdef
    have hrest := ih next (by omega) hnext
    have hpos' : 0 < next := by omega
    rw [splitBuckets]
    simp only [← hdef]
    have hbound : lowerBound P.items (if next = upper then upperBound
        else getMinimalBound (P.item (next - 1)) (P.item next)).item = next := by
      split
      · next heq => rw [hupper, heq]
      · next hne =>
        have hle : next ≤ upper := by omega
        exact (lowerBound_minimalBound hsorted hpos' (by omega)).2.2
    exact ⟨by rw [hbound], by rw [hbound]; exact hrest⟩

/-- Where all fingerprints agree, everything is skipped and nothing is written. -/
theorem answers_located {same : Window → Window → Bool} (hsame : ∀ w, same w w = true)
    (hlimit : P.frameSizeLimit = 0 ∨ 4096 ≤ P.frameSizeLimit) :
    ∀ (rs : List (Range Window)) (st : Answer Window), Located P.items st.prevIndex rs → st.out = [] →
      (P.answers same rs st).out = [] := by
  intro rs
  induction rs with
  | nil => exact fun _ _ hout => hout
  | cons r rs ih =>
    intro st hloc hout
    obtain ⟨bound, payload⟩ := r
    obtain ⟨hpayload, hrest⟩ := hloc
    dsimp only at hpayload
    subst hpayload
    have hfits : ¬ P.exceeded (messageSize (st.out ++ [])) = true := by
      rw [hout, Bool.not_eq_true]
      exact exceeded_one hlimit (show 1 ≤ 3896 by decide)
    rw [answers, answer_same (hsame _), finishRange, if_neg hfits]
    exact ih _ hrest (by simp [hout])

/-! ### A list of all ids -/

/-- What is left of the other side's ids. -/
theorem mem_foldl_compareStep {own : List Item} {haveIds theirs : List ItemId} {id : ItemId} (hnodup : theirs.Nodup)
    (h : id ∈ (own.foldl compareStep (haveIds, theirs)).2) : id ∈ theirs ∧ id ∉ own.map Item.id := by
  induction own generalizing haveIds theirs with
  | nil => exact ⟨h, List.not_mem_nil⟩
  | cons x own ih =>
    rw [List.foldl_cons, compareStep] at h
    split at h
    · next hx =>
      obtain ⟨h1, h2⟩ := ih hnodup h
      refine ⟨h1, ?_⟩
      rw [List.map_cons, List.mem_cons, not_or]
      exact ⟨fun heq => hx (heq ▸ h1), h2⟩
    · obtain ⟨h1, h2⟩ := ih (hnodup.erase _) h
      rw [hnodup.mem_erase_iff] at h1
      refine ⟨h1.2, ?_⟩
      rw [List.map_cons, List.mem_cons, not_or]
      exact ⟨h1.1, h2⟩

theorem foldl_insertElem_nodup (ids : List ItemId) {acc : List ItemId} (hacc : acc.Nodup) :
    (ids.foldl insertElem acc).Nodup ∧ ∀ id ∈ ids.foldl insertElem acc, id ∈ acc ∨ id ∈ ids := by
  induction ids generalizing acc with
  | nil => exact ⟨hacc, fun id h => Or.inl h⟩
  | cons e ids ih =>
    rw [List.foldl_cons, insertElem]
    split
    · obtain ⟨h1, h2⟩ := ih hacc
      exact ⟨h1, fun id h => (h2 id h).imp_right (List.mem_cons_of_mem e)⟩
    · next he =>
      obtain ⟨h1, h2⟩ := ih (hacc.append (List.nodup_singleton e) (by simpa using he))
      refine ⟨h1, fun id h => ?_⟩
      rcases h2 id h with h | h
      · rcases List.mem_append.mp h with h | h
        · exact Or.inl h
        · exact Or.inr (by simp_all)
      · exact Or.inr (List.mem_cons_of_mem e h)

/-- The own ids are all known. -/
theorem compare_self_needs (own : List Item) : (compare (own.map Item.id) own).2 = [] := by
  obtain ⟨hnodup, hsub⟩ := foldl_insertElem_nodup (own.map Item.id) List.nodup_nil
  refine List.eq_nil_iff_forall_not_mem.mpr fun id h => ?_
  obtain ⟨h1, h2⟩ := mem_foldl_compareStep hnodup h
  exact h2 ((hsub id h1).resolve_left List.not_mem_nil)

theorem compare_self_haves {own : List Item} (h : (own.map Item.id).Nodup) : (compare (own.map Item.id) own).1 = [] := by
  rw [compare, foldl_insertElem (by simpa using h), List.nil_append, foldl_compareStep_eq h h]
  simp

/-! ### The two replies -/

theorem initial_few (hlen : P.items.length < 32) :
    P.initial = [⟨Bound.ofTimestamp MAX_U64, .idList (P.items.map Item.id)⟩] := by
  have hfew : P.items.length - 0 < buckets * 2 := hlen
  rw [initial, splitRange, if_pos hfew, slice_full]

theorem initial_many (hsorted : P.items.Pairwise (· < ·)) (htop : ∀ x ∈ P.items, x < top) (hlen : 32 ≤ P.items.length) :
    Located P.items 0 P.initial := by
  have hmany : ¬ P.items.length - 0 < buckets * 2 := not_lt.mpr hlen
  have hdiv := Nat.div_add_mod P.items.length buckets
  have hpos : 0 < P.items.length / buckets := Nat.div_pos (by simp only [buckets]; omega) (by decide)
  rw [initial, splitRange, if_neg hmany]
  refine splitBuckets_located hsorted (lowerBound_eq_length hsorted htop) hpos buckets 0 le_rfl ?_
  simp only [Nat.sub_zero, Nat.sub_self, Nat.zero_add]
  omega

/-- The server answers a list of ids up to infinity with its own first message. -/
theorem reply_few {same : Window → Window → Bool} (hinit : P.isInitiator = false)
    (hlimit : P.frameSizeLimit = 0 ∨ 4096 ≤ P.frameSizeLimit) (hsorted : P.items.Pairwise (· < ·))
    (htop : ∀ x ∈ P.items, x < top) (hlen : P.items.length < 32) (ids : List ItemId) :
    (P.reply same [⟨Bound.ofTimestamp MAX_U64, .idList ids⟩]).out = P.initial := by
  have hupper : lowerBound P.items (Bound.ofTimestamp MAX_U64).item = P.items.length := lowerBound_eq_length hsorted htop
  have hall : P.sentIds 1 0 P.items.length = P.items.length := by
    have hle := P.sentIds_le 1 P.items.length 0
    by_contra hne
    have hlt : P.sentIds 1 0 P.items.length < 0 + P.items.length := by omega
    have hex := exceeded_of_sentIds_lt hlt
    rw [exceeded_one hlimit (by simp only [ID_SIZE]; omega)] at hex
    cases hex
  have hstop : P.answerEnd P.items.length ({} : Answer Window) = P.items.length := by
    change 0 + P.sentIds 1 0 (P.items.length - 0) = _
    rw [Nat.sub_zero, hall, Nat.zero_add]
  have hsize : messageSize (P.initial ++ []) ≤ 3896 := by
    have := P.splitRange_size 0 P.items.length (Bound.ofTimestamp MAX_U64) 0
    rw [List.append_nil, messageSize, initial]
    omega
  have hend : P.endBound (Bound.ofTimestamp MAX_U64) P.items.length = Bound.ofTimestamp MAX_U64 := by
    rw [endBound, hupper, if_neg (lt_irrefl _)]
  have hout : ({} : Answer Window).out ++ ({} : Answer Window).flush ++
      [⟨Bound.ofTimestamp MAX_U64, .idList ((slice P.items ({} : Answer Window).prevIndex P.items.length).map Item.id)⟩] =
        P.initial := by
    rw [initial_few hlen, show slice P.items ({} : Answer Window).prevIndex P.items.length = P.items from slice_full _]
    rfl
  rw [reply, answers, answer_idList same {} _ ids hinit (by rw [hupper, hstop]), hend, hout, finishRange,
    if_neg (by rw [Bool.not_eq_true]; exact exceeded_one hlimit hsize)]
  exact List.append_nil _

/-- The client compares its ids with themselves. -/
theorem reply_self (same : Window → Window → Bool) (hinit : P.isInitiator = true)
    (hlimit : P.frameSizeLimit = 0 ∨ 4096 ≤ P.frameSizeLimit) (hsorted : P.items.Pairwise (· < ·))
    (htop : ∀ x ∈ P.items, x < top) (hlen : P.items.length < 32) :
    (P.reply same P.initial).out = [] ∧ (P.reply same P.initial).needIds = [] ∧
      (P.reply same P.initial).haveIds = (compare (P.items.map Item.id) P.items).1 := by
  have hupper : lowerBound P.items (Bound.ofTimestamp MAX_U64).item = P.items.length := lowerBound_eq_length hsorted htop
  have hfull : slice P.items ({} : Answer Window).prevIndex P.items.length = P.items := slice_full _
  have hfits : ¬ P.exceeded (messageSize (({} : Answer Window).out ++ [])) = true := by
    rw [Bool.not_eq_true]
    exact exceeded_one hlimit (show 1 ≤ 3896 by decide)
  rw [reply, initial_few hlen, answers, answer_report same {} _ _ hinit, hupper, hfull, finishRange, if_neg hfits]
  exact ⟨rfl, compare_self_needs P.items, rfl⟩

end

end Party

/-! ### The round -/

namespace Pairing

variable {X : Pairing}

/-- Two parties with the same items, whose fingerprints of the same window are equal. -/
theorem settled (hX : X.Proper) (hitems : X.server.items = X.client.items) (hsame : ∀ w, X.same w w = true) :
    (X.after 1).message = [] ∧ (X.after 1).needIds = [] ∧
      (32 ≤ X.client.items.length ∨ (X.client.items.map Item.id).Nodup → (X.after 1).haveIds = []) := by
  rcases Nat.lt_or_ge X.client.items.length 32 with hlen | hlen
  · have hinitial : X.server.initial = X.client.initial := by
      rw [Party.initial_few hlen, Party.initial_few (hitems ▸ hlen), hitems]
    have hserver : (X.atServer X.client.initial).out = X.client.initial := by
      rw [← hinitial]
      conv_lhs => rw [atServer, Party.initial_few (hitems ▸ hlen)]
      exact Party.reply_few hX.server_initiator hX.server_limit hX.server_sorted hX.server_top (hitems ▸ hlen) _
    obtain ⟨hout, hneed, hhave⟩ := Party.reply_self (fun w w' => X.same w' w) hX.client_initiator hX.client_limit
      hX.client_sorted hX.client_top hlen
    have hnext : X.atClient (X.atServer (X.after 0).message).out = X.atClient X.client.initial := congrArg X.atClient hserver
    simp only [after, next] at hnext ⊢
    rw [hnext]
    refine ⟨hout, hneed, fun h => ?_⟩
    exact hhave.trans (Party.compare_self_haves (h.resolve_left (by omega)))
  · have hlocated : Party.Located X.server.items 0 X.client.initial := by
      rw [hitems]
      exact Party.initial_many hX.client_sorted hX.client_top hlen
    have hserver : (X.atServer X.client.initial).out = [] :=
      Party.answers_located hsame hX.server_limit _ {} hlocated rfl
    have hnext : X.atClient (X.atServer (X.after 0).message).out = X.atClient [] := congrArg X.atClient hserver
    simp only [after, next] at hnext ⊢
    rw [hnext]
    exact ⟨rfl, rfl, fun _ => rfl⟩

end Pairing

/-! ### The objects -/

namespace Storage

/-- The storages of a set: a vector that is sealed, and a tree that some history has left. -/
inductive StorageOf [Sha256] (s : Finset Item) : (σ : Type) → StorageBase σ → σ → Prop where
  | vector (v : Vector) (h : v.Holds s) : StorageOf s Vector inferInstance v
  | tree (cfg : BTree.Config) (ops : List BTreeMem.Op) (t : BTreeMem cfg)
      (hrun : BTreeMem.run {} ops = .ok (BTreeMem.answers ∅ ops, t)) (h : BTreeMem.itemsAfter ∅ ops = s) :
      StorageOf s (BTreeMem cfg) inferInstance t

theorem StorageOf.presents [Sha256] {s : Finset Item} {σ : Type} {inst : StorageBase σ} {x : σ} (h : StorageOf s σ inst x)
    (hcard : s.card < 2 ^ 64) : Presents x (s.sort (· ≤ ·)) (windowFingerprint (s.sort (· ≤ ·))) := by
  cases h with
  | vector v h =>
    rw [sort_eq h.sorted h.toFinset]
    exact Vector.presents h.isSealed (by rwa [length_eq h.sorted h.toFinset]) h.sorted
  | tree cfg ops t hrun h =>
    obtain ⟨t', levels, xs, hrun', hrep, hxs⟩ := BTreeMem.reachable cfg ops
    obtain rfl : t = t' := (Prod.mk.inj (Except.ok.inj (hrun.symm.trans hrun'))).2
    rw [sort_eq hrep.sorted (hxs.trans h)]
    exact BTreeMem.presents hrep (by rwa [length_eq hrep.sorted (hxs.trans h)])

end Storage

section
variable {σ τ : Type} [StorageBase σ] [StorageBase τ] {client : Negentropy σ} {server : Negentropy τ} {s : Finset Item}

/-- Two new objects over storages of the same set: after one round the client is done. It has reported
nothing, unless the set is small and has one id under two timestamps. -/
theorem equal_sets_settle [Sha256] (htime : ∀ x ∈ s, x.timestamp < MAX_U64) (hcard : s.card < 2 ^ 64)
    (hclient : Storage.StorageOf s σ inferInstance client.storage)
    (hserver : Storage.StorageOf s τ inferInstance server.storage)
    (hclient_new : Negentropy.make client.storage client.frameSizeLimit = .ok client)
    (hserver_new : Negentropy.make server.storage server.frameSizeLimit = .ok server) :
    ∃ session, Session.run client server 1 = .ok session ∧ session.message = none ∧ session.needIds = [] ∧
      (32 ≤ s.card ∨ Set.InjOn Item.id s → session.haveIds = []) := by
  have htimes : ∀ x ∈ s.sort (· ≤ ·), x.timestamp < MAX_U64 := fun x hx => htime x ((Finset.mem_sort _).mp hx)
  have hbetween : Session.Between client server (s.sort (· ≤ ·)) (s.sort (· ≤ ·)) (windowFingerprint (s.sort (· ≤ ·)))
      (windowFingerprint (s.sort (· ≤ ·))) :=
    ⟨hclient_new, hserver_new, hclient.presents hcard, hserver.presents hcard, htimes, htimes⟩
  obtain ⟨session, hrun, hs⟩ := Session.run_computes hbetween 1
  obtain ⟨hdone, hneed, hhave⟩ := Pairing.settled hbetween.proper rfl fun w => decide_eq_true rfl
  refine ⟨session, hrun, (Session.message_eq_none hs).mpr hdone, hs.needIds.trans hneed, fun h => hs.haveIds.trans (hhave ?_)⟩
  refine h.imp (fun h => h.trans_eq (Finset.length_sort _).symm) fun h => ?_
  refine (Finset.sort_nodup s (· ≤ ·)).map_on fun x hx y hy hxy => ?_
  exact h ((Finset.mem_sort _).mp hx) ((Finset.mem_sort _).mp hy) hxy

end

section

local instance settledSha256 : Sha256 := SHA256.real

/-- 33 items on both sides, with a limit on one. -/
theorem equal_sets_settle_many :
    ∃ session, Session.run { storage := manyClient.storage, frameSizeLimit := 0, limit_ok := limit_ok_none }
      { storage := manyClient.storage, frameSizeLimit := 4096, limit_ok := limit_ok_least } 1 = .ok session ∧
      session.message = none ∧ session.needIds = [] ∧ session.haveIds = [] := by
  have hholds : manyClient.storage.Holds clientSample.toFinset := ⟨rfl, sample_sorted.1, rfl⟩
  have hcard : clientSample.toFinset.card = 33 :=
    (List.toFinset_card_of_nodup (sample_sorted.1.imp ne_of_lt)).trans sample_length.1
  obtain ⟨session, hrun, hdone, hneed, hhave⟩ := @equal_sets_settle Storage.Vector Storage.Vector _ _
    { storage := manyClient.storage, frameSizeLimit := 0, limit_ok := limit_ok_none }
    { storage := manyClient.storage, frameSizeLimit := 4096, limit_ok := limit_ok_least } clientSample.toFinset _
    (fun x hx => sample_timestamps.1 x (List.mem_toFinset.mp hx)) (by rw [hcard]; decide)
    (.vector manyClient.storage hholds) (.vector manyClient.storage hholds) rfl rfl
  exact ⟨session, hrun, hdone, hneed, hhave (.inl (by rw [hcard]; decide))⟩

/-- A party whose vector has one id under two timestamps. -/
def oneIdTwice : Negentropy Storage.Vector where
  storage := { items := [⟨1, ItemId.zero⟩, ⟨2, ItemId.zero⟩], isSealed := true }
  frameSizeLimit := 0
  limit_ok := limit_ok_none

/-- The second of the two is reported, although the other side has it. -/
theorem equal_sets_report :
    oneIdTwice.storage.Holds {⟨1, ItemId.zero⟩, ⟨2, ItemId.zero⟩} ∧
      (∀ x ∈ oneIdTwice.storage.items, x.timestamp < MAX_U64) ∧
      ∃ session, Session.run oneIdTwice oneIdTwice 1 = .ok session ∧ session.haveIds = [ItemId.zero] := by
  have hholds : oneIdTwice.storage.Holds {⟨1, ItemId.zero⟩, ⟨2, ItemId.zero⟩} := ⟨rfl, by decide, by decide⟩
  have htimes : ∀ x ∈ oneIdTwice.storage.items, x.timestamp < MAX_U64 := by decide
  have hpresents := Storage.Vector.presents hholds.isSealed (by decide) hholds.sorted
  obtain ⟨session, hrun, hs⟩ := Session.run_computes ⟨rfl, rfl, hpresents, hpresents, htimes, htimes⟩ 1
  refine ⟨hholds, htimes, session, hrun, hs.haveIds.trans ?_⟩
  decide +kernel

end

end NE
