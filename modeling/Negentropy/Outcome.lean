import Negentropy.Session
import Negentropy.Truthful

/-! What a session finds: it ends, it reports differences only, and it reports all of them unless
the split of a fingerprint over nothing is dropped. -/

namespace NE

open Sorted Stateful Negentropy

/-- Each id occurs under one timestamp only. -/
def OneTimestamp (C S : List Item) : Prop := ∀ x ∈ C ++ S, ∀ y ∈ C ++ S, x.id = y.id → x.timestamp = y.timestamp

/-- The ids of the first that are not ids of the second. -/
def Minus (C S : List Item) (id : ItemId) : Prop := id ∈ C.map Item.id ∧ id ∉ S.map Item.id

instance (C S : List Item) : DecidablePred (Minus C S) := fun _ => inferInstanceAs (Decidable (_ ∧ _))

theorem identified {C S : List Item} (hC : C.Pairwise (· < ·)) (hS : S.Pairwise (· < ·)) (hone : OneTimestamp C S) :
    Rbsr.Identified C S Item.id where
  nodup_left := hC.imp fun h => h.ne
  nodup_right := hS.imp fun h => h.ne
  inj x hx y hy h := Item.ext (hone x hx y hy h) h

theorem minus_iff {C S : List Item} (hid : Rbsr.Identified C S Item.id) {id : ItemId} :
    Minus C S id ↔ ∃ p, (p ∈ C ∧ p ∉ S) ∧ p.id = id := by
  constructor
  · rintro ⟨hC, hS⟩
    obtain ⟨p, hp, rfl⟩ := List.mem_map.mp hC
    exact ⟨p, ⟨hp, fun h => hS (List.mem_map_of_mem h)⟩, rfl⟩
  · rintro ⟨p, ⟨hC, hS⟩, rfl⟩
    refine ⟨List.mem_map_of_mem hC, fun h => ?_⟩
    obtain ⟨y, hy, hyp⟩ := List.mem_map.mp h
    exact hS (hid.inj y (by simp [hy]) p (by simp [hC]) hyp ▸ hy)

namespace Pairing

variable {X : Pairing}

/-- Fingerprints over nothing are equal. -/
def EmptyAgree (X : Pairing) : Prop :=
  ∀ w w', X.client.elems w = [] → X.server.elems w' = [] → X.same w w' = true

/-- The comparisons of a reply, when those of empty windows come out equal. -/
theorem emptyAgree_reply {P Q : Party} {f : Window → Window → Bool} {q : List (Range Window)}
    (hf : ∀ w w', Q.elems w = [] → P.elems w' = [] → f w w' = true) :
    Rbsr.EmptyAgree ((P.reply f q).compared.map (P.comparison Q.elems)) := by
  intro x hx htheirs hours
  obtain ⟨y, hy, rfl⟩ := List.mem_map.mp hx
  exact (P.reply_compared f q y hy).trans (hf _ _ htheirs hours)

theorem after_emptyAgree (hX : X.EmptyAgree) : ∀ n, Rbsr.EmptyAgree (X.after n).compared := by
  intro n
  induction n with
  | zero => exact fun x hx => absurd hx List.not_mem_nil
  | succ n ih =>
    refine Rbsr.EmptyAgree.append.mpr ⟨Rbsr.EmptyAgree.append.mpr ⟨ih, ?_⟩, ?_⟩
    · exact emptyAgree_reply hX
    · exact emptyAgree_reply fun w w' hw hw' => hX w' w hw' hw

/-- Where fingerprints over nothing are equal, the exchange comes to an end. -/
theorem exists_done (hX : X.Proper) (hempty : X.EmptyAgree) : ∃ n, (X.after n).message = [] := by
  have hstep : ∀ n, abstract X.client.elems (X.after (n + 1)).message = [] ∨
      Rbsr.measure X.client.items X.server.items top 1 bot (abstract X.client.elems (X.after (n + 1)).message) <
        Rbsr.measure X.client.items X.server.items top 1 bot (abstract X.client.elems (X.after n).message) := by
    intro n
    have hreached := reached hX n
    have hq : Rbsr.Honest X.client.items X.server.items Item.id top True False bot
        (abstract X.client.elems (X.after n).message) :=
      Rbsr.Exchange.honest hreached bot_lt_top (.inr (after_emptyAgree hempty n)) (.inl trivial)
    obtain ⟨⟨hs, ns, hserver⟩, hclient⟩ := hreached.replies hX
    refine Rbsr.round_progress hq ?_ hserver hclient
    refine hserver.honest (.inr ?_) (.inl trivial) hq le_rfl
    exact emptyAgree_reply hempty
  obtain ⟨n, hn⟩ := Rbsr.exists_nil_of_progress (fun n => abstract X.client.elems (X.after n).message) hstep
  exact ⟨n, List.map_eq_nil_iff.mp hn⟩

variable (hX : X.Proper) (hid : Rbsr.Identified X.client.items X.server.items Item.id)
include hX hid

/-- Everything reported is a difference. -/
theorem reported (n : ℕ) :
    (∀ id ∈ (X.after n).haveIds, Minus X.client.items X.server.items id) ∧
      ∀ id ∈ (X.after n).needIds, Minus X.server.items X.client.items id := by
  obtain ⟨hh, hn⟩ := Rbsr.Exchange.reported hid Party.compares bot_lt_top (reached hX n)
  exact ⟨fun id h => (minus_iff hid).mpr (hh id h), fun id h => (minus_iff hid.symm).mpr (hn id h)⟩

/-- A finished exchange has reported every difference. -/
theorem covered {n : ℕ} (hdrop : ∀ x ∈ (X.after n).dropped, x.elems ≠ [])
    (hfp : ∀ x ∈ (X.after n).compared, x.SameIds Item.id) (hdone : (X.after n).message = []) :
    (∀ id, Minus X.client.items X.server.items id → id ∈ (X.after n).haveIds) ∧
      ∀ id, Minus X.server.items X.client.items id → id ∈ (X.after n).needIds := by
  obtain ⟨hh, hn⟩ := reported hX hid n
  have hall : ∀ p, Rbsr.Differs X.client.items X.server.items p → p < top →
      p.id ∈ (X.after n).haveIds ∨ p.id ∈ (X.after n).needIds := by
    intro p hp htop
    have := Rbsr.Exchange.covered hid Party.compares bot_lt_top (reached hX n) hdrop hfp hp (Bound.zero_le p) htop
    rw [hdone] at this
    exact this.imp_right fun h => h.resolve_right id
  constructor
  · intro id hid'
    obtain ⟨p, hp, rfl⟩ := (minus_iff hid).mp hid'
    exact (hall p (.inl hp) (hX.client_top p hp.1)).resolve_right fun h => (hn _ h).2 hid'.1
  · intro id hid'
    obtain ⟨p, hp, rfl⟩ := (minus_iff hid.symm).mp hid'
    exact (hall p (.inr hp) (hX.server_top p hp.1)).resolve_left fun h => (hh _ h).2 hid'.1

/-- Without limits no id is reported twice. -/
theorem once (hlimC : X.client.frameSizeLimit = 0) (hlimS : X.server.frameSizeLimit = 0) (n : ℕ) :
    (∀ id, Minus X.client.items X.server.items id → (X.after n).haveIds.count id ≤ 1) ∧
      ∀ id, Minus X.server.items X.client.items id → (X.after n).needIds.count id ≤ 1 := by
  have hle : ∀ p, Rbsr.Differs X.client.items X.server.items p →
      (X.after n).haveIds.count p.id + (X.after n).needIds.count p.id ≤ 1 := fun p hp =>
    (Nat.le_add_right _ _).trans (Rbsr.Exchange.once hid Party.compares bot_lt_top (not_not.mpr hlimC) (not_not.mpr hlimS)
      (reached hX n) hp)
  constructor
  · intro id h
    obtain ⟨p, hp, rfl⟩ := (minus_iff hid).mp h
    exact (Nat.le_add_right _ _).trans (hle p (.inl hp))
  · intro id h
    obtain ⟨p, hp, rfl⟩ := (minus_iff hid.symm).mp h
    exact (Nat.le_add_left _ _).trans (hle p (.inr hp))

end Pairing

namespace Session

variable {σ τ : Type} [StorageBase σ] [StorageBase τ] {client : Negentropy σ} {server : Negentropy τ} {C S : List Item}

omit [StorageBase σ] [StorageBase τ] in
theorem message_eq_none {fpC : ℕ → ℕ → Fingerprint} {s : Session σ τ} {p : Pairing.State}
    (h : Computes client server fpC s p) : s.message = none ↔ p.message = [] := by
  rw [h.message]
  split
  · next hnil => exact iff_of_true rfl hnil
  · next hnil => exact iff_of_false (fun h => (by cases h)) hnil

omit [StorageBase σ] [StorageBase τ] in
/-- The fingerprints of both sides are one function of the items. -/
theorem pairing_emptyAgree (f : List Item → Fingerprint) :
    (pairing client server C S (fun b e => f (slice C b e)) (fun b e => f (slice S b e))).EmptyAgree := by
  intro w w' hw hw'
  have hC : slice C w.begin_ w.end_ = [] := hw
  have hS : slice S w'.begin_ w'.end_ = [] := hw'
  simp only [pairing, windowFp, hC, hS, decide_true]

/-- Neither side ever throws, and the client is done after finitely many rounds, whatever fingerprint
function both sides use. -/
theorem run_ends (f : List Item → Fingerprint)
    (h : Between client server C S (fun b e => f (slice C b e)) (fun b e => f (slice S b e))) :
    (∀ n, ∃ s, run client server n = .ok s) ∧ ∃ n s, run client server n = .ok s ∧ s.message = none := by
  refine ⟨fun n => (run_computes h n).imp fun s hs => hs.1, ?_⟩
  obtain ⟨n, hn⟩ := Pairing.exists_done h.proper (pairing_emptyAgree f)
  obtain ⟨s, hrun, hs⟩ := run_computes h n
  exact ⟨n, s, hrun, (message_eq_none hs).mpr hn⟩

/-- In every round, what is reported is a difference, whatever the fingerprints are. -/
theorem reported_differs {fpC fpS : ℕ → ℕ → Fingerprint} (h : Between client server C S fpC fpS) (hone : OneTimestamp C S)
    {n : ℕ} {s : Session σ τ} (hrun : run client server n = .ok s) :
    (∀ id ∈ s.haveIds, Minus C S id) ∧ ∀ id ∈ s.needIds, Minus S C id := by
  obtain ⟨s', hrun', hs⟩ := run_computes h n
  obtain rfl := Except.ok.inj (hrun.symm.trans hrun')
  rw [hs.haveIds, hs.needIds]
  exact Pairing.reported h.proper (identified h.client_presents.sorted h.server_presents.sorted hone) n

section
variable [Sha256]

/-- The fingerprints compared in a run are equal only if they were computed over the same ids. -/
def Injective (X : Pairing) : Prop := ∀ n, ∀ x ∈ (X.after n).compared, x.SameIds Item.id

/-- Without limits, a session ends and has reported every difference once. -/
theorem exact_without_limits (h : Between client server C S (windowFingerprint C) (windowFingerprint S))
    (hlimC : client.frameSizeLimit = 0) (hlimS : server.frameSizeLimit = 0) (hone : OneTimestamp C S)
    (hfp : Injective (pairing client server C S (windowFingerprint C) (windowFingerprint S))) :
    (∀ n, ∃ s, run client server n = .ok s) ∧
      ∃ n s, run client server n = .ok s ∧ s.message = none ∧
        (∀ id, s.haveIds.count id = if Minus C S id then 1 else 0) ∧
        ∀ id, s.needIds.count id = if Minus S C id then 1 else 0 := by
  have hid := identified h.client_presents.sorted h.server_presents.sorted hone
  refine ⟨fun n => (run_computes h n).imp fun s hs => hs.1, ?_⟩
  obtain ⟨n, hn⟩ := Pairing.exists_done h.proper (pairing_emptyAgree fingerprintOf)
  obtain ⟨s, hrun, hs⟩ := run_computes h n
  refine ⟨n, s, hrun, (message_eq_none hs).mpr hn, ?_⟩
  have hdrop := Rbsr.Exchange.no_drop (Pairing.reached h.proper n) (not_not.mpr hlimC) (not_not.mpr hlimS)
  obtain ⟨hrep, hrep'⟩ := Pairing.reported h.proper hid n
  obtain ⟨hcov, hcov'⟩ := Pairing.covered h.proper hid (n := n) (by simp [hdrop]) (hfp n) hn
  obtain ⟨honce, honce'⟩ := Pairing.once h.proper hid hlimC hlimS n
  rw [hs.haveIds, hs.needIds]
  constructor
  · intro id
    split
    · next hm => exact le_antisymm (honce id hm) (List.count_pos_iff.mpr (hcov id hm))
    · next hm => exact List.count_eq_zero.mpr fun hin => hm (hrep id hin)
  · intro id
    split
    · next hm => exact le_antisymm (honce' id hm) (List.count_pos_iff.mpr (hcov' id hm))
    · next hm => exact List.count_eq_zero.mpr fun hin => hm (hrep' id hin)

/-- With any limits: when the client is done and no reply has dropped the split of a fingerprint over
no items, every difference has been reported. -/
theorem nothing_missed (h : Between client server C S (windowFingerprint C) (windowFingerprint S)) (hone : OneTimestamp C S)
    (hfp : Injective (pairing client server C S (windowFingerprint C) (windowFingerprint S))) {n : ℕ} {s : Session σ τ}
    (hrun : run client server n = .ok s)
    (hdrop : ∀ x ∈ ((pairing client server C S (windowFingerprint C) (windowFingerprint S)).after n).dropped, x.elems ≠ [])
    (hdone : s.message = none) :
    (∀ id, Minus C S id → id ∈ s.haveIds) ∧ ∀ id, Minus S C id → id ∈ s.needIds := by
  obtain ⟨s', hrun', hs⟩ := run_computes h n
  obtain rfl := Except.ok.inj (hrun.symm.trans hrun')
  rw [hs.haveIds, hs.needIds]
  exact Pairing.covered h.proper (identified h.client_presents.sorted h.server_presents.sorted hone) hdrop (hfp n)
    ((message_eq_none hs).mp hdone)

end

end Session

section Example

local instance outcomeSha256 : Sha256 := SHA256.real

theorem oneTimestamp_of_small {C S : List Item} (hC : ∀ x ∈ C, SmallTimestamp x) (hS : ∀ x ∈ S, SmallTimestamp x) :
    OneTimestamp C S := by
  have hsmall := List.forall_mem_append.mpr ⟨hC, hS⟩
  intro x hx y hy hid
  rw [hsmall x hx, hsmall y hy, hid]

/-- What is compared in a run that has come to its end. -/
theorem Session.injective_of_done {X : Pairing} {n : ℕ} (hdone : (X.after n).message = [])
    (h : ∀ x ∈ (X.after n).compared, x.agree = true → x.theirs = x.ours) : Session.Injective X := by
  intro m x hx hagree
  have hmem : x ∈ (X.after n).compared := by
    rcases le_total m n with hm | hm
    · exact X.compared_subset hm hx
    · rwa [(X.compared_of_nil hdone hm).2] at hx
  rw [h x hmem hagree]
  exact fun _ => Iff.rfl

theorem many_between : Session.Between manyClient manyServer clientSample serverSample (windowFingerprint clientSample)
    (windowFingerprint serverSample) where
  client_new := rfl
  server_new := rfl
  client_presents := manyClient_presents
  server_presents := manyServer_presents
  client_timestamps := sample_timestamps.1
  server_timestamps := sample_timestamps.2

theorem many_oneTimestamp : OneTimestamp clientSample serverSample := oneTimestamp_of_small sample_small.1 sample_small.2

/-- The pairing of the two. -/
def manyPairing : Pairing :=
  Session.pairing manyClient manyServer clientSample serverSample (windowFingerprint clientSample) (windowFingerprint serverSample)

/-- Sixteen fingerprints are compared, and only those of the same items are equal. -/
theorem manyPairing_one : (manyPairing.after 1).message = [] ∧ (manyPairing.after 1).compared.length = 16 ∧
    ∀ x ∈ (manyPairing.after 1).compared, x.agree = true → x.theirs = x.ours := by
  decide +kernel

theorem many_injective : Session.Injective manyPairing :=
  Session.injective_of_done manyPairing_one.1 manyPairing_one.2.2

theorem run_ends_many : (∀ n, ∃ s, Session.run manyClient manyServer n = .ok s) ∧
    ∃ n s, Session.run manyClient manyServer n = .ok s ∧ s.message = none :=
  Session.run_ends fingerprintOf many_between

theorem reported_differs_many : ∃ s, Session.run manyClient manyServer 1 = .ok s ∧
    (∀ id ∈ s.haveIds, Minus clientSample serverSample id) ∧ ∀ id ∈ s.needIds, Minus serverSample clientSample id := by
  obtain ⟨s, hrun, -⟩ := Session.run_computes many_between 1
  exact ⟨s, hrun, Session.reported_differs many_between many_oneTimestamp hrun⟩

theorem exact_without_limits_many : (∀ n, ∃ s, Session.run manyClient manyServer n = .ok s) ∧
    ∃ n s, Session.run manyClient manyServer n = .ok s ∧ s.message = none ∧
      (∀ id, s.haveIds.count id = if Minus clientSample serverSample id then 1 else 0) ∧
      ∀ id, s.needIds.count id = if Minus serverSample clientSample id then 1 else 0 :=
  Session.exact_without_limits many_between rfl rfl many_oneTimestamp many_injective

/-! ### A split that is dropped without harm -/

/-- 8 items at each of four timestamps. -/
def fewClient : Negentropy Storage.Vector where
  storage := { items := (List.range 4).flatMap fun t => (List.range 8).map (sampleItem t), isSealed := true }
  frameSizeLimit := 0
  limit_ok := limit_ok_none

/-- The same and 29 more at each of them, and a limit. -/
def moreServer : Negentropy Storage.Vector where
  storage := { items := (List.range 4).flatMap fun t => (List.range 37).map (sampleItem t), isSealed := true }
  frameSizeLimit := 4096
  limit_ok := limit_ok_least

theorem more_sorted : fewClient.storage.items.Pairwise (· < ·) ∧ moreServer.storage.items.Pairwise (· < ·) :=
  ⟨samples_sorted List.pairwise_lt_range (by decide) List.pairwise_lt_range (by decide),
    samples_sorted List.pairwise_lt_range (by decide) List.pairwise_lt_range (by decide)⟩

theorem more_small : (∀ x ∈ fewClient.storage.items, SmallTimestamp x) ∧ ∀ x ∈ moreServer.storage.items, SmallTimestamp x :=
  ⟨samples_small (by decide), samples_small (by decide)⟩

theorem more_between : Session.Between fewClient moreServer fewClient.storage.items moreServer.storage.items
    (windowFingerprint fewClient.storage.items) (windowFingerprint moreServer.storage.items) where
  client_new := rfl
  server_new := rfl
  client_presents := Storage.Vector.presents rfl ((samples_length _ _).trans_lt (by decide)) more_sorted.1
  server_presents := Storage.Vector.presents rfl ((samples_length _ _).trans_lt (by decide)) more_sorted.2
  client_timestamps x hx := (more_small.1 x hx).lt_max
  server_timestamps x hx := (more_small.2 x hx).lt_max

def morePairing : Pairing :=
  Session.pairing fewClient moreServer fewClient.storage.items moreServer.storage.items
    (windowFingerprint fewClient.storage.items) (windowFingerprint moreServer.storage.items)

/-- Of the four lists of ids of the first reply the last one is dropped. -/
theorem morePairing_two : (morePairing.after 2).message = [] ∧ (morePairing.after 2).dropped.length = 1 ∧
    (∀ x ∈ (morePairing.after 2).dropped, x.elems ≠ []) ∧
    ∀ x ∈ (morePairing.after 2).compared, x.agree = true → x.theirs = x.ours := by
  decide +kernel

theorem nothing_missed_more : (morePairing.after 2).dropped.length = 1 ∧
    ∃ s, Session.run fewClient moreServer 2 = .ok s ∧
      (∀ id, Minus fewClient.storage.items moreServer.storage.items id → id ∈ s.haveIds) ∧
      ∀ id, Minus moreServer.storage.items fewClient.storage.items id → id ∈ s.needIds := by
  obtain ⟨hdone, hone, hdrop, hcompared⟩ := morePairing_two
  obtain ⟨s, hrun, hs⟩ := Session.run_computes more_between 2
  exact ⟨hone, s, hrun, Session.nothing_missed more_between (oneTimestamp_of_small more_small.1 more_small.2)
    (Session.injective_of_done hdone hcompared) hrun hdrop ((Session.message_eq_none hs).mpr hdone)⟩

/-! ### A split that is dropped with harm

The client's second message is cut and ends with the fingerprint of no items. The server has items there; the ids it
would send for them exceed its limit and are discarded, and its own last fingerprint is of no items either, so that the
two agree. -/

/-- 28 items at each of 16 timestamps. -/
def missedClient : Negentropy Storage.Vector where
  storage := { items := (List.range 16).flatMap fun t => (List.range 28).map (sampleItem t), isSealed := true }
  frameSizeLimit := 4096
  limit_ok := limit_ok_least

/-- 32 other items at each of the last three of them. -/
def missedServer : Negentropy Storage.Vector where
  storage :=
    { items := (List.range 3).flatMap fun t => (List.range 32).map fun n => sampleItem (13 + t) (28 + n)
      isSealed := true }
  frameSizeLimit := 4096
  limit_ok := limit_ok_least

/-- The run with fingerprints that are equal only for equal items. -/
def idealRun (n : ℕ) : Pairing.State :=
  ((Pairing.of ⟨missedClient.storage.items, 4096, true⟩ ⟨missedServer.storage.items, 4096, false⟩
    fun xs ys => decide (xs = ys)).after n)

/-- The fingerprint's bytes, those of no items written down. -/
def fingerprintBytes : List Item → Bytes
  | [] => [127, 156, 158, 49, 172, 130, 86, 202, 47, 37, 133, 131, 223, 38, 45, 188]
  | items => (fingerprintOf items).buf

theorem fingerprintBytes_eq (items : List Item) : fingerprintBytes items = (fingerprintOf items).buf := by
  cases items with
  | nil => decide +kernel
  | cons x items => rfl

/-! The run is computed with the positions of its bounds written down, so that no search has to be run. -/

section
variable {φ : Type}

/-- One iteration of a reply that is told where the bound lies among the items. -/
def Party.answerAt (P : Party) (same : φ → Window → Bool) (upper : ℕ) (st : Party.Answer φ) (r : Range φ) :
    Party.Answer φ × Bool :=
  let lower := st.prevIndex
  match r.payload with
  | .skip => P.finishRange r.bound upper [] { st with skip := true }
  | .fingerprint f =>
      let compared := st.compared ++ [(f, ⟨lower, upper⟩, same f ⟨lower, upper⟩)]
      if same f ⟨lower, upper⟩ then P.finishRange r.bound upper [] { st with skip := true, compared }
      else
        P.finishRange r.bound upper (st.flush ++ P.splitRange lower upper r.bound) { st with skip := false, compared }
  | .idList ids =>
      if P.isInitiator then
        let (haveIds, needIds) := Party.compare ids (slice P.items lower upper)
        P.finishRange r.bound upper []
          { st with skip := true, haveIds := st.haveIds ++ haveIds, needIds := st.needIds ++ needIds }
      else
        let stop := P.answerEnd upper st
        let endBound := if stop < upper then Bound.ofItem (P.item stop) else r.bound
        P.finishRange r.bound stop []
          { st with
            skip := false
            out := st.out ++ st.flush ++ [⟨endBound, .idList ((slice P.items lower stop).map Item.id)⟩] }

def Party.answersAt (P : Party) (same : φ → Window → Bool) (position : Bound → ℕ) :
    List (Range φ) → Party.Answer φ → Party.Answer φ
  | [], st => st
  | r :: rs, st =>
      match P.answerAt same (position r.bound) st r with
      | (st, true) => st
      | (st, false) => Party.answersAt P same position rs st

theorem Party.answers_eq_at {P : Party} {same : φ → Window → Bool} {position : Bound → ℕ} {q : List (Range φ)}
    (h : ∀ r ∈ q, lowerBound P.items r.bound.item = position r.bound) (st : Party.Answer φ) :
    P.answers same q st = P.answersAt same position q st := by
  induction q generalizing st with
  | nil => rfl
  | cons r q ih =>
    have hr : P.answer same st r = P.answerAt same (position r.bound) st r := by
      rw [← h r List.mem_cons_self]
      rfl
    rw [Party.answers, Party.answersAt, hr]
    cases P.answerAt same (position r.bound) st r with
    | mk st' stop =>
      cases stop with
      | true => rfl
      | false => exact ih (fun r' hr' => h r' (List.mem_cons_of_mem r hr')) st'

theorem Pairing.atServer_eq_at {X : Pairing} {position : Bound → ℕ} {m : List (Range Window)}
    (h : ∀ r ∈ m, lowerBound X.server.items r.bound.item = position r.bound) :
    X.atServer m = X.server.answersAt X.same position m {} := Party.answers_eq_at h {}

theorem Pairing.atClient_eq_at {X : Pairing} {position : Bound → ℕ} {m : List (Range Window)}
    (h : ∀ r ∈ m, lowerBound X.client.items r.bound.item = position r.bound) :
    X.atClient m = X.client.answersAt (fun w w' => X.same w' w) position m {} := Party.answers_eq_at h {}

end

/-- The position is where a search for the bound ends. -/
def Placed (items : List Item) (k : Item) (i : ℕ) : Prop :=
  i ≤ items.length ∧ (0 < i → items.getD (i - 1) {} < k) ∧ (i < items.length → k ≤ items.getD i {})

instance (items : List Item) (k : Item) (i : ℕ) : Decidable (Placed items k i) := inferInstanceAs (Decidable (_ ∧ _))

theorem Placed.eq {items : List Item} {k : Item} {i : ℕ} (hs : items.Pairwise (· < ·)) (h : Placed items k i) :
    lowerBound items k = i := by
  obtain ⟨hle, hlow, hhigh⟩ := h
  refine lowerBound_eq hs hle (fun h0 => ?_) (fun hlt => ?_)
  · have := hlow h0
    rwa [List.getD_eq_getElem?_getD, List.getElem?_eq_getElem (by omega), Option.getD_some] at this
  · have := hhigh hlt
    rwa [List.getD_eq_getElem?_getD, List.getElem?_eq_getElem hlt, Option.getD_some] at this

/-- The two parties of the ideal run. -/
def idealPairing : Pairing :=
  Pairing.of ⟨missedClient.storage.items, 4096, true⟩ ⟨missedServer.storage.items, 4096, false⟩ fun xs ys => decide (xs = ys)

def clientPosition (b : Bound) : ℕ :=
  if b.item.timestamp = MAX_U64 then 448 else 28 * (b.item.timestamp.toNat + if b.idLen = 0 then 0 else 1)

def serverPosition (b : Bound) : ℕ :=
  if b.item.timestamp = MAX_U64 then 96
  else 32 * (b.item.timestamp.toNat - 13) + if b.idLen = 0 then 0 else (b.item.id.bytes.getLastD 0).toNat - 28

/-- The replies of the first round and of the second. -/
def firstReply := idealPairing.server.answersAt idealPairing.same serverPosition idealPairing.client.initial {}
def firstAnswer := idealPairing.client.answersAt (fun w w' => idealPairing.same w' w) clientPosition firstReply.out {}
def secondReply := idealPairing.server.answersAt idealPairing.same serverPosition firstAnswer.out {}
def secondAnswer := idealPairing.client.answersAt (fun w w' => idealPairing.same w' w) clientPosition secondReply.out {}

theorem missedServer_items : missedServer.storage.items =
    ((List.range 3).map (13 + ·)).flatMap fun t => ((List.range 32).map (28 + ·)).map (sampleItem t) := by
  simp only [missedServer, List.flatMap_map, List.map_map, Function.comp_def]

theorem missed_sorted : missedClient.storage.items.Pairwise (· < ·) ∧ missedServer.storage.items.Pairwise (· < ·) := by
  rw [missedServer_items]
  exact ⟨samples_sorted List.pairwise_lt_range (by decide) List.pairwise_lt_range (by decide),
    samples_sorted (by decide) (by decide) (by decide) (by decide)⟩

theorem missed_small : (∀ x ∈ missedClient.storage.items, SmallTimestamp x) ∧ ∀ x ∈ missedServer.storage.items, SmallTimestamp x := by
  rw [missedServer_items]
  exact ⟨samples_small (by decide), samples_small (by decide)⟩

theorem missed_length : missedClient.storage.items.length = 448 ∧ missedServer.storage.items.length = 96 := by
  rw [missedServer_items]
  exact ⟨samples_length _ _, samples_length _ _⟩

/-- The windows that the server compares in the first round, theirs first: those of one timestamp. -/
def firstWindows : List (Window × Window × Bool) :=
  (List.range 16).map fun t => (⟨28 * t, 28 * t + 28⟩, ⟨32 * (t - 13), 32 * (t - 12)⟩, false)

/-- Those of the client: two items of the server each, up to where the message is cut. -/
def bucketWindows : List (Window × Window × Bool) :=
  (List.range 36).map fun j => (⟨2 * j, 2 * j + 2⟩, ⟨364 + 28 * ((j + 15) / 16), 364 + 28 * (j / 16 + 1)⟩, false)

/-- The run: its positions, what is compared, and how it ends. -/
theorem missed_run :
    ((∀ r ∈ idealPairing.client.initial, Placed idealPairing.server.items r.bound.item (serverPosition r.bound)) ∧
      (∀ r ∈ firstReply.out, Placed idealPairing.client.items r.bound.item (clientPosition r.bound)) ∧
      (∀ r ∈ firstAnswer.out, Placed idealPairing.server.items r.bound.item (serverPosition r.bound)) ∧
      ∀ r ∈ secondReply.out, Placed idealPairing.client.items r.bound.item (clientPosition r.bound)) ∧
    (firstReply.compared = firstWindows ∧ firstAnswer.compared = bucketWindows ∧
      secondReply.compared = [(⟨448, 448⟩, ⟨70, 96⟩, false)] ∧ secondAnswer.compared = [(⟨96, 96⟩, ⟨448, 448⟩, true)]) ∧
    secondAnswer.out = [] ∧ (sampleItem 15 59).id ∉ firstAnswer.needIds ++ secondAnswer.needIds := by
  decide +kernel

/-- What the two sides compare, in the order in which they do. -/
def missedCompared : List (Rbsr.Comparison Item) :=
  firstWindows.map (idealPairing.server.comparison idealPairing.client.elems) ++
    bucketWindows.map (idealPairing.client.comparison idealPairing.server.elems) ++
    [⟨idealPairing.client.elems ⟨448, 448⟩, idealPairing.server.elems ⟨70, 96⟩, false⟩] ++
    [⟨idealPairing.server.elems ⟨96, 96⟩, idealPairing.client.elems ⟨448, 448⟩, true⟩]

/-- Where it was assumed that fingerprints differ they do. -/
theorem missed_fingerprints : ∀ x ∈ missedCompared, decide (fingerprintBytes x.theirs = fingerprintBytes x.ours) = x.agree := by
  simp only [missedCompared, List.forall_mem_append]
  refine ⟨⟨⟨?_, ?_⟩, ?_⟩, ?_⟩
  · decide +kernel
  · decide +kernel
  · decide +kernel
  · decide +kernel

theorem idealRun_eq : (idealRun 2).message = secondAnswer.out ∧
    (idealRun 2).needIds = firstAnswer.needIds ++ secondAnswer.needIds ∧ (idealRun 2).compared = missedCompared := by
  obtain ⟨⟨h1, h2, h3, h4⟩, ⟨c1, c2, c3, c4⟩, -, -⟩ := missed_run
  obtain ⟨hclient, hserver⟩ := missed_sorted
  have e1 : idealPairing.atServer idealPairing.client.initial = firstReply :=
    Pairing.atServer_eq_at fun r hr => (h1 r hr).eq hserver
  have e2 : idealPairing.atClient firstReply.out = firstAnswer :=
    Pairing.atClient_eq_at fun r hr => (h2 r hr).eq hclient
  have e3 : idealPairing.atServer firstAnswer.out = secondReply :=
    Pairing.atServer_eq_at fun r hr => (h3 r hr).eq hserver
  have e4 : idealPairing.atClient secondReply.out = secondAnswer :=
    Pairing.atClient_eq_at fun r hr => (h4 r hr).eq hclient
  change (idealPairing.after 2).message = _ ∧ (idealPairing.after 2).needIds = _ ∧ (idealPairing.after 2).compared = _
  simp only [Pairing.after, Pairing.next, e1, e2, e3, e4, c1, c2, c3, c4, missedCompared, List.nil_append, List.append_assoc]
  exact ⟨trivial, trivial, rfl⟩

/-- The client is done after two rounds without the server's last id, and where it was assumed that
fingerprints differ they do. -/
theorem idealRun_two :
    ((idealRun 2).message = [] ∧ (sampleItem 15 59).id ∉ (idealRun 2).needIds) ∧
      ∀ x ∈ (idealRun 2).compared, decide (fingerprintBytes x.theirs = fingerprintBytes x.ours) = x.agree := by
  obtain ⟨-, -, hdone, hneed⟩ := missed_run
  obtain ⟨hmessage, hneedIds, hcompared⟩ := idealRun_eq
  rw [hmessage, hneedIds, hcompared]
  exact ⟨⟨hdone, hneed⟩, missed_fingerprints⟩

theorem missed_oneTimestamp : OneTimestamp missedClient.storage.items missedServer.storage.items :=
  oneTimestamp_of_small missed_small.1 missed_small.2

theorem missed_between : Session.Between missedClient missedServer missedClient.storage.items missedServer.storage.items
    (windowFingerprint missedClient.storage.items) (windowFingerprint missedServer.storage.items) where
  client_new := rfl
  server_new := rfl
  client_presents := Storage.Vector.presents rfl (missed_length.1.trans_lt (by decide)) missed_sorted.1
  server_presents := Storage.Vector.presents rfl (missed_length.2.trans_lt (by decide)) missed_sorted.2
  client_timestamps x hx := (missed_small.1 x hx).lt_max
  server_timestamps x hx := (missed_small.2 x hx).lt_max

/-- The pairing of the session. -/
def missedPairing : Pairing :=
  Session.pairing missedClient missedServer missedClient.storage.items missedServer.storage.items
    (windowFingerprint missedClient.storage.items) (windowFingerprint missedServer.storage.items)

theorem missedPairing_eq : missedPairing =
    Pairing.of ⟨missedClient.storage.items, 4096, true⟩ ⟨missedServer.storage.items, 4096, false⟩
      fun xs ys => decide (fingerprintOf xs = fingerprintOf ys) := rfl

/-- The run of the objects is the ideal one. -/
theorem missed_after : (missedPairing.after 2).message = [] ∧
    (sampleItem 15 59).id ∉ (missedPairing.after 2).needIds ∧
    (missedPairing.after 2).compared = (idealRun 2).compared := by
  obtain ⟨⟨hmessage, hneed⟩, hcompared⟩ := idealRun_two
  have hsame : ∀ xs ys : List Item, decide (fingerprintOf xs = fingerprintOf ys) =
      decide (fingerprintBytes xs = fingerprintBytes ys) := by
    intro xs ys
    simp only [fingerprintBytes_eq, Fingerprint.ext_iff]
  rw [missedPairing_eq]
  obtain ⟨h1, h2, h3⟩ := Pairing.after_congr (fun xs ys => decide (fingerprintOf xs = fingerprintOf ys))
    (fun xs ys => decide (xs = ys)) (fun xs ys => decide_eq_decide.mpr eq_comm) (fun xs ys => decide_eq_decide.mpr eq_comm)
    fun x hx => (hsame x.theirs x.ours).trans (hcompared x hx)
  refine ⟨h1.trans hmessage, ?_, h3⟩
  rw [h2]
  exact hneed

/-- In this run fingerprints are equal only for equal items. -/
theorem missed_injective : Session.Injective missedPairing := by
  obtain ⟨hdone, -, hcompared⟩ := missed_after
  refine Session.injective_of_done hdone fun x hx hagree => ?_
  rw [hcompared] at hx
  exact Pairing.of_agree (fun _ _ h => of_decide_eq_true h) 2 x hx hagree

/-- The client is done and has not been given an id of the server's. -/
theorem missed_id :
    (Session.Between missedClient missedServer missedClient.storage.items missedServer.storage.items
        (windowFingerprint missedClient.storage.items) (windowFingerprint missedServer.storage.items) ∧
      OneTimestamp missedClient.storage.items missedServer.storage.items ∧ Session.Injective missedPairing) ∧
    ∃ n s, Session.run missedClient missedServer n = .ok s ∧ s.message = none ∧
      ∃ id, Minus missedServer.storage.items missedClient.storage.items id ∧ id ∉ s.needIds := by
  refine ⟨⟨missed_between, missed_oneTimestamp, missed_injective⟩, ?_⟩
  obtain ⟨hdone, hneed, -⟩ := missed_after
  obtain ⟨s, hrun, hs⟩ := Session.run_computes missed_between 2
  refine ⟨2, s, hrun, (Session.message_eq_none hs).mpr hdone, (sampleItem 15 59).id, ⟨?_, ?_⟩, ?_⟩
  · decide +kernel
  · decide +kernel
  · rw [hs.needIds]
    exact hneed

end Example

end NE
