import Negentropy.Lib.Rbsr.Size
import Negentropy.Outcome

/-! Sessions without limits: the number of rounds is logarithmic in the smaller of the two sets, and a message is at
most as long as the differences allow, however large the sets are. -/

namespace NE

open Sorted Stateful Negentropy

namespace Party

/-! ### Whole replies -/

section
variable {φ : Type} {P : Party}

theorem exceeded_unlimited (hlimit : P.frameSizeLimit = 0) (n : ℕ) : P.exceeded n = false := by simp [exceeded, hlimit]

theorem sentIds_unlimited (hlimit : P.frameSizeLimit = 0) (written sent n : ℕ) : P.sentIds written sent n = sent + n := by
  induction n generalizing sent with
  | zero => rfl
  | succ n ih =>
    rw [sentIds, exceeded_unlimited hlimit, if_neg Bool.false_ne_true, ih]
    omega

/-- Every iteration goes on to the next range. -/
theorem finishRange_unlimited (hlimit : P.frameSizeLimit = 0) (bound : Bound) (upper : ℕ) (o : List (Range Window))
    (st : Answer φ) :
    P.finishRange bound upper o st = ({ st with out := st.out ++ o, prevIndex := upper, prevBound := bound }, false) := by
  rw [finishRange, exceeded_unlimited hlimit, if_neg Bool.false_ne_true]

section
variable (hlimit : P.frameSizeLimit = 0) (hsorted : P.items.Pairwise (· < ·)) {elems : φ → List Item}
  {same : φ → Window → Bool} (hsame : ∀ f w, elems f = P.elems w → same f w = true)
include hlimit hsorted hsame

/-- One iteration: what it writes answers the range. -/
theorem answer_whole {st : Answer φ} (hst : P.Ready st) {r : Range φ} (hle : st.prevBound.item ≤ r.bound.item) :
    ∃ st' o, P.answer same st r = (st', false) ∧ P.Ready st' ∧ st'.prevBound = r.bound ∧ st'.out = st.out ++ o ∧
      ∀ q out, Rbsr.Whole P.items Item.id buckets 31 (P.isInitiator = true) (Rbsr.endOf bot (abstract P.elems st'.out))
          r.bound.item q out →
        Rbsr.Whole P.items Item.id buckets 31 (P.isInitiator = true) (Rbsr.endOf bot (abstract P.elems st.out))
          st.prevBound.item (⟨r.bound.item, r.payload.abstract elems⟩ :: q) (abstract P.elems o ++ out) := by
  obtain ⟨bound, payload⟩ := r
  have hwithin : P.elems ⟨st.prevIndex, lowerBound P.items bound.item⟩ = within P.items st.prevBound.item bound.item := by
    rw [← slice_lowerBound hsorted hle, ← hst.prevIndex]
    rfl
  have hfits : ∀ out : List (Range Window), P.exceeded (messageSize out) = false := fun _ => exceeded_unlimited hlimit _
  cases payload with
  | skip =>
    refine ⟨_, [], finishRange_unlimited hlimit _ _ _ _, ⟨rfl, fun h => (by cases h), hfits _⟩, rfl, rfl, ?_⟩
    intro q out h
    rw [List.append_nil] at h
    exact .skip h
  | fingerprint f =>
    cases hagree : same f ⟨st.prevIndex, lowerBound P.items bound.item⟩ with
    | true =>
      refine ⟨_, [], (answer_same hagree).trans (finishRange_unlimited hlimit _ _ _ _),
        ⟨rfl, fun h => (by cases h), hfits _⟩, rfl, rfl, ?_⟩
      intro q out h
      rw [List.append_nil] at h
      exact .agree h
    | false =>
      have hne : elems f ≠ within P.items st.prevBound.item bound.item := by
        rw [← hwithin]
        intro heq
        rw [hsame f _ heq] at hagree
        cases hagree
      have hdivide := splitRange_divide hsorted hle
      rw [← hst.prevIndex] at hdivide
      have hend : Rbsr.endOf bot (abstract P.elems (st.out ++ (st.flush ++
          P.splitRange st.prevIndex (lowerBound P.items bound.item) bound))) = bound.item := by
        rw [abstract_append, Rbsr.endOf_append, abstract_append, Rbsr.endOf_append, hst.flush.endOf_eq, hdivide.endOf_eq]
      refine ⟨_, _, (answer_different hagree).trans (finishRange_unlimited hlimit _ _ _ _),
        ⟨rfl, fun _ => hend, hfits _⟩, rfl, rfl, fun q out h => ?_⟩
      rw [hend] at h
      rw [abstract_append, List.append_assoc]
      exact .split hle hne hst.flush hdivide h
  | idList ids =>
    cases hinit : P.isInitiator with
    | true =>
      refine ⟨_, [], (answer_report same st bound ids hinit).trans (finishRange_unlimited hlimit _ _ _ _),
        ⟨rfl, fun h => (by cases h), hfits _⟩, rfl, rfl, ?_⟩
      intro q out h
      rw [List.append_nil] at h
      exact .report rfl h
    | false =>
      have hl : st.prevIndex ≤ lowerBound P.items bound.item := hst.prevIndex ▸ lowerBound_mono hsorted hle
      have hstop : P.answerEnd (lowerBound P.items bound.item) st = lowerBound P.items bound.item := by
        rw [answerEnd, sentIds_unlimited hlimit]
        omega
      have hbound : P.endBound bound (lowerBound P.items bound.item) = bound := if_neg (lt_irrefl _)
      set ids' : Range Window := ⟨P.endBound bound (lowerBound P.items bound.item),
        .idList ((slice P.items st.prevIndex (lowerBound P.items bound.item)).map Item.id)⟩ with hids
      have hlist : abstract P.elems [ids'] =
          [⟨bound.item, .idList ((within P.items st.prevBound.item bound.item).map Item.id)⟩] := by
        rw [← hwithin, hids, hbound]
        rfl
      have hend : Rbsr.endOf bot (abstract P.elems (st.out ++ st.flush ++ [ids'] ++ [])) = bound.item := by
        rw [List.append_nil, abstract_append, hlist, Rbsr.endOf_append]
        rfl
      refine ⟨_, st.flush ++ [ids'], (answer_idList same st bound ids hinit hstop).trans (finishRange_unlimited hlimit _ _ _ _),
        ⟨rfl, fun _ => hend, hfits _⟩, rfl, ?_, fun q out h => ?_⟩
      · rw [List.append_nil, List.append_assoc]
      · rw [hend] at h
        rw [abstract_append, hlist, List.append_assoc]
        exact .answer Bool.false_ne_true hle hst.flush h

theorem answers_whole (q : List (Range φ)) (st : Answer φ) (hst : P.Ready st)
    (hq : Rbsr.Ascending st.prevBound.item (abstract elems q)) :
    ∃ out, (P.answers same q st).out = st.out ++ out ∧
      Rbsr.Whole P.items Item.id buckets 31 (P.isInitiator = true) (Rbsr.endOf bot (abstract P.elems st.out))
        st.prevBound.item (abstract elems q) (abstract P.elems out) := by
  induction q generalizing st with
  | nil => exact ⟨[], (List.append_nil _).symm, .done⟩
  | cons r q ih =>
    obtain ⟨st', o, hans, hst', hbound, hout, hwhole⟩ := answer_whole hlimit hsorted hsame hst hq.1
    obtain ⟨out, hrest, h⟩ := ih st' hst' (hbound.symm ▸ hq.2)
    refine ⟨o ++ out, ?_, ?_⟩
    · rw [answers, hans]
      rw [hrest, hout, List.append_assoc]
    · rw [hbound] at h
      rw [abstract_cons, abstract_append]
      exact hwhole _ _ h

/-- A whole reply. -/
theorem reply_whole {q : List (Range φ)} (hq : Rbsr.Ascending bot (abstract elems q)) :
    Rbsr.Whole P.items Item.id buckets 31 (P.isInitiator = true) bot bot (abstract elems q)
      (abstract P.elems (P.reply same q).out) := by
  obtain ⟨out, hout, hwhole⟩ := answers_whole hlimit hsorted hsame q {} (ready_initial (.inl hlimit) hsorted) hq
  rw [reply, hout]
  exact hwhole

end

end

end Party

/-! ### What a message costs -/

/-- No bound takes more than 43 bytes; a mode takes one, a fingerprint 16, the number of ids at most ten and an id 32. -/
def wireCost : Rbsr.Cost where
  skip := 44
  fingerprint := 60
  list := 54
  element := 32

theorem Payload.size_le {φ : Type} (elems : φ → List Item) (l u : Item) (payload : Payload φ) :
    43 + payload.size ≤ wireCost.of l u (payload.abstract elems) := by
  cases payload with
  | skip => exact le_rfl
  | fingerprint f => exact le_rfl
  | idList ids =>
    have hnum := encodeVarInt_length (UInt64.ofNat ids.length)
    have hsize : ID_SIZE = 32 := rfl
    simp only [Payload.size, Payload.abstract, Rbsr.Cost.of, wireCost, hsize]
    omega

theorem rangesSize_le_total {φ : Type} (elems : φ → List Item) (last : UInt64) (l : Item) (rs : List (Range φ)) :
    rangesSize last rs ≤ Rbsr.total wireCost.of l (abstract elems rs) := by
  induction rs generalizing last l with
  | nil => exact le_rfl
  | cons r rs ih =>
    have hbound := boundBytes_length last r.bound
    have hpayload := r.payload.size_le elems l r.bound.item
    rw [rangesSize, Party.abstract_cons, Rbsr.total]
    exact Nat.add_le_add ((Nat.add_le_add_right hbound _).trans hpayload) (ih _ _)

/-- The length of a message in the differences of the two sets. -/
def messageBound (C S : List Item) : ℕ := 1 + 1122 * max 1 (Rbsr.diffs C S).length

namespace Pairing

variable {X : Pairing} (hX : X.Proper) (hlimC : X.client.frameSizeLimit = 0) (hlimS : X.server.frameSizeLimit = 0)
  (hsame : ∀ w w', X.client.elems w = X.server.elems w' → X.same w w' = true)
include hX hlimC hlimS hsame

/-- Without limits the two parties divide what they split in 16, and list at most 31 items at a time. -/
theorem dialogue : Rbsr.Dialogue X.client.items X.server.items Item.id buckets 31 bot top
    (fun n => abstract X.client.elems (X.after n).message)
    (fun n => abstract X.server.elems (X.atServer (X.after n).message).out) where
  first := X.client.initial_divide hX.client_sorted hX.client_top
  server n := by
    have hwhole := X.server.reply_whole hlimS hX.server_sorted hsame (reached hX n).honest.ascending
    rwa [hX.server_initiator, eq_false Bool.false_ne_true] at hwhole
  client n := by
    have hsame' : ∀ w w', X.server.elems w = X.client.elems w' → X.same w' w = true := fun w w' h => hsame w' w h.symm
    have hwhole := X.client.reply_whole hlimC hX.client_sorted hsame' ((reached hX n).ascending_reply hX)
    rwa [hX.client_initiator, eq_true (rfl : true = true)] at hwhole

theorem message_eq_nil {r : ℕ} (hr : min X.client.items.length X.server.items.length ≤ 31 * 16 ^ r) :
    (X.after (r + 1)).message = [] :=
  List.map_eq_nil_iff.mp ((dialogue hX hlimC hlimS hsame).eq_nil hr)

theorem messageSize_le (n : ℕ) :
    Party.messageSize (X.after n).message ≤ messageBound X.client.items X.server.items ∧
      Party.messageSize (X.atServer (X.after n).message).out ≤ messageBound X.client.items X.server.items := by
  obtain ⟨hmessage, hreply⟩ := (dialogue hX hlimC hlimS hsame).total_le hX.client_sorted hX.server_sorted bot_lt_top.le
    (x := wireCost) (c := 1122) (by decide) (by decide) n
  exact ⟨Nat.add_le_add_left ((rangesSize_le_total _ _ _ _).trans hmessage) 1,
    Nat.add_le_add_left ((rangesSize_le_total _ _ _ _).trans hreply) 1⟩

end Pairing

namespace Session

variable {σ τ : Type} [StorageBase σ] [StorageBase τ]

/-- The bytes the two objects send each other in a round. -/
def roundBytes (s : Session σ τ) : ℕ :=
  match s.message with
  | none => 0
  | some query =>
      match reconcile query s.server with
      | .ok response _ => query.length + response.length
      | .error _ _ => query.length

/-- The bytes they have sent in so many rounds. -/
def bytes (client : Negentropy σ) (server : Negentropy τ) : ℕ → ℕ
  | 0 => 0
  | n + 1 =>
      bytes client server n +
        match run client server n with
        | .ok s => s.roundBytes
        | .error _ => 0

variable {client : Negentropy σ} {server : Negentropy τ} {C S : List Item}

omit [StorageBase σ] [StorageBase τ] in
theorem pairing_same (f : List Item → Fingerprint) (w w' : Window) (heq : slice C w.begin_ w.end_ = slice S w'.begin_ w'.end_) :
    (pairing client server C S (fun b e => f (slice C b e)) (fun b e => f (slice S b e))).same w w' = true := by
  simp only [pairing, windowFp, heq, decide_true]

section
variable (f : List Item → Fingerprint) (h : Between client server C S (fun b e => f (slice C b e)) (fun b e => f (slice S b e)))
  (hlimC : client.frameSizeLimit = 0) (hlimS : server.frameSizeLimit = 0)
include h hlimC hlimS

/-- Without limits the client is done after `r + 1` rounds, if one of the two sets has at most `31 * 16 ^ r` items. -/
theorem rounds_logarithmic {r : ℕ} (hr : min C.length S.length ≤ 31 * 16 ^ r) :
    ∃ s, run client server (r + 1) = .ok s ∧ s.message = none := by
  obtain ⟨s, hrun, hs⟩ := run_computes h (r + 1)
  exact ⟨s, hrun, (message_eq_none hs).mpr (Pairing.message_eq_nil h.proper hlimC hlimS (pairing_same f) hr)⟩

/-- The messages of a round, and how long they are. -/
theorem round_length_le {n : ℕ} {s : Session σ τ} (hrun : run client server n = .ok s) {query : Bytes}
    (hmessage : s.message = some query) :
    query.length ≤ messageBound C S ∧ ∃ response server', reconcile query s.server = .ok response server' ∧
      response.length ≤ messageBound C S := by
  obtain ⟨s', hrun', hs⟩ := run_computes h n
  obtain rfl := Except.ok.inj (hrun.symm.trans hrun')
  obtain ⟨hquery, hresponse⟩ := Pairing.messageSize_le h.proper hlimC hlimS (pairing_same f) n
  obtain ⟨j, k, hreconcile⟩ := reconcile_computes h hs (Pairing.reached h.proper n) (Pairing.after_encodable h.proper n)
  have hlen := hs.message
  rw [hmessage] at hlen
  split at hlen
  · cases hlen
  · obtain rfl := Option.some.inj hlen
    refine ⟨(fullOutput_length _ _).trans_le hquery, _, _, hreconcile, (fullOutput_length _ _).trans_le hresponse⟩

theorem roundBytes_le {n : ℕ} {s : Session σ τ} (hrun : run client server n = .ok s) :
    s.roundBytes ≤ 2 * messageBound C S := by
  rw [roundBytes]
  cases hmessage : s.message with
  | none => exact Nat.zero_le _
  | some query =>
    obtain ⟨hquery, response, server', hreconcile, hresponse⟩ := round_length_le f h hlimC hlimS hrun hmessage
    dsimp only
    rw [hreconcile]
    dsimp only
    omega

/-- A finished client sends nothing. -/
theorem roundBytes_eq_zero {r n : ℕ} (hr : min C.length S.length ≤ 31 * 16 ^ r) (hn : r + 1 ≤ n) {s : Session σ τ}
    (hrun : run client server n = .ok s) : s.roundBytes = 0 := by
  obtain ⟨s', hrun', hs⟩ := run_computes h n
  obtain rfl := Except.ok.inj (hrun.symm.trans hrun')
  have hdone := Pairing.message_eq_nil h.proper hlimC hlimS (pairing_same f) hr
  rw [roundBytes, (message_eq_none hs).mpr ((Pairing.compared_of_nil _ hdone hn).1)]

theorem bytes_le {r : ℕ} (hr : min C.length S.length ≤ 31 * 16 ^ r) (n : ℕ) :
    bytes client server n ≤ min n (r + 1) * (2 * messageBound C S) := by
  induction n with
  | zero => exact Nat.zero_le _
  | succ n ih =>
    obtain ⟨s, hrun, -⟩ := run_computes h n
    rw [bytes, hrun]
    dsimp only
    by_cases hn : r + 1 ≤ n
    · rw [roundBytes_eq_zero f h hlimC hlimS hr hn hrun]
      rw [min_eq_right hn] at ih
      rwa [min_eq_right (by omega)]
    · rw [min_eq_left (by omega)] at ih ⊢
      rw [Nat.succ_mul]
      exact Nat.add_le_add ih (roundBytes_le f h hlimC hlimS hrun)

/-- Without limits every message is at most linear in the differences, and so is what both send in all rounds together, up to
the number of rounds. -/
theorem traffic_linear {r : ℕ} (hr : min C.length S.length ≤ 31 * 16 ^ r) :
    (∀ n s query, run client server n = .ok s → s.message = some query →
      query.length ≤ 1 + 1122 * max 1 (Rbsr.diffs C S).length ∧
        ∃ response server', reconcile query s.server = .ok response server' ∧
          response.length ≤ 1 + 1122 * max 1 (Rbsr.diffs C S).length) ∧
      ∀ n, bytes client server n ≤ 2 * (r + 1) * (1 + 1122 * max 1 (Rbsr.diffs C S).length) := by
  refine ⟨fun n s query hrun hmessage => round_length_le f h hlimC hlimS hrun hmessage, fun n => ?_⟩
  calc bytes client server n
      ≤ min n (r + 1) * (2 * messageBound C S) := bytes_le f h hlimC hlimS hr n
    _ ≤ (r + 1) * (2 * messageBound C S) := Nat.mul_le_mul_right _ (min_le_right _ _)
    _ = 2 * (r + 1) * messageBound C S := by rw [Nat.mul_comm 2 (r + 1), Nat.mul_assoc]

end

end Session

/-! ### With limits -/

namespace Pairing

/-- What the two parties send is never longer, whatever their limits are. -/
theorem messageSize_le_bound {X : Pairing} (hX : X.Proper) (hempty : X.EmptyAgree) (n : ℕ) :
    Party.messageSize (X.after n).message ≤ 1 + wireCost.bound X.client.items.length X.server.items.length ∧
      Party.messageSize (X.atServer (X.after n).message).out ≤
        1 + wireCost.bound X.server.items.length X.client.items.length := by
  have hreached := reached hX n
  have hagree := after_emptyAgree hempty n
  have hq : Rbsr.Honest X.client.items X.server.items Item.id top True False bot (abstract X.client.elems (X.after n).message) :=
    Rbsr.Exchange.honest hreached bot_lt_top (.inr hagree) (.inl trivial)
  obtain ⟨⟨_, _, hserver⟩, -⟩ := hreached.replies hX
  have hmid := hserver.honest (.inr (emptyAgree_reply hempty)) (.inl trivial) hq le_rfl
  have hmessage := Rbsr.Exchange.total_le (x := wireCost) bot_lt_top hreached hagree
  have hreply := hmid.total_le_bound (x := wireCost) (hserver.total_le_charged bot)
  exact ⟨Nat.add_le_add_left ((rangesSize_le_total _ _ _ _).trans hmessage) 1,
    Nat.add_le_add_left ((rangesSize_le_total _ _ _ _).trans hreply) 1⟩

end Pairing

namespace Session

variable {σ τ : Type} [StorageBase σ] [StorageBase τ] {client : Negentropy σ} {server : Negentropy τ} {C S : List Item}

/-- Whatever the limits are and however many rounds are over, no message is longer than the two sets allow. -/
theorem messages_bounded (f : List Item → Fingerprint)
    (h : Between client server C S (fun b e => f (slice C b e)) (fun b e => f (slice S b e))) (n : ℕ) (s : Session σ τ)
    (query : Bytes) (hrun : run client server n = .ok s) (hmessage : s.message = some query) :
    query.length ≤ 1 + (104 * (C.length + S.length + 2) + 32 * C.length) ∧
      ∃ response server', reconcile query s.server = .ok response server' ∧
        response.length ≤ 1 + (104 * (S.length + C.length + 2) + 32 * S.length) := by
  obtain ⟨s', hrun', hs⟩ := run_computes h n
  obtain rfl := Except.ok.inj (hrun.symm.trans hrun')
  obtain ⟨hquery, hresponse⟩ := Pairing.messageSize_le_bound h.proper (pairing_emptyAgree f) n
  obtain ⟨j, k, hreconcile⟩ := reconcile_computes h hs (Pairing.reached h.proper n) (Pairing.after_encodable h.proper n)
  have hlen := hs.message
  rw [hmessage] at hlen
  split at hlen
  · cases hlen
  · obtain rfl := Option.some.inj hlen
    exact ⟨(fullOutput_length _ _).trans_le hquery, _, _, hreconcile, (fullOutput_length _ _).trans_le hresponse⟩

end Session

section Example

local instance efficiencySha256 : Sha256 := SHA256.real

theorem many_few : min clientSample.length serverSample.length ≤ 31 * 16 ^ 1 :=
  (min_le_left _ _).trans (sample_length.1.trans_le (by decide))

theorem rounds_logarithmic_many : ∃ s, Session.run manyClient manyServer 2 = .ok s ∧ s.message = none :=
  Session.rounds_logarithmic fingerprintOf many_between rfl rfl many_few

/-- Three items are in one of the two only. -/
theorem traffic_linear_many :
    (∀ n s query, Session.run manyClient manyServer n = .ok s → s.message = some query →
      query.length ≤ 3367 ∧ ∃ response server', Negentropy.reconcile query s.server = .ok response server' ∧
        response.length ≤ 3367) ∧
      ∀ n, Session.bytes manyClient manyServer n ≤ 13468 := by
  have hdiffs : (Rbsr.diffs clientSample serverSample).length = 3 := by decide +kernel
  have hlinear := Session.traffic_linear fingerprintOf many_between rfl rfl many_few
  rw [hdiffs] at hlinear
  exact hlinear

theorem messages_bounded_many :
    ∃ s query, Session.run manyClient manyServer 0 = .ok s ∧ s.message = some query ∧ query.length ≤ 8233 ∧
      ∃ response server', Negentropy.reconcile query s.server = .ok response server' ∧ response.length ≤ 8265 := by
  obtain ⟨s, hrun, -⟩ := Session.run_computes many_between 0
  obtain ⟨query, hmessage⟩ : ∃ query, s.message = some query := by
    rw [Session.run, Session.start] at hrun
    split at hrun
    · next message client hinitiate =>
      obtain rfl := Except.ok.inj hrun
      exact ⟨message, rfl⟩
    · cases hrun
  have hbounded := Session.messages_bounded fingerprintOf many_between 0 s query hrun hmessage
  rw [sample_length.1, sample_length.2] at hbounded
  exact ⟨s, query, hrun, hmessage, hbounded⟩

end Example

end NE
