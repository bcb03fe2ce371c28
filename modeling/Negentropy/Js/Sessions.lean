import Negentropy.Efficiency
import Negentropy.Js.Implementations
import Negentropy.Js.Messages

/-! Sessions between the two implementations: the client may be an object of `negentropy.h` and the server one of
`Negentropy.js`, or the other way round. They go as a session in C++ goes, round by round. -/

namespace NE.Js

open Sorted Stateful

/-! ### The parties -/

/-- An object of C++ over some storage, or one of JavaScript over a vector. -/
inductive Peer (σ : Type) where
  | cpp (ne : NE.Negentropy σ)
  | js (ne : Negentropy NegentropyStorageVector)

/-- The bytes as JavaScript receives them: no array is longer. -/
def Uint8Array.from? (bytes : Bytes) : Option Uint8Array :=
  if h : bytes.length < 2 ^ 53 then some ⟨bytes, h⟩ else none

namespace Peer

variable {σ : Type} [StorageBase σ] [Sha256]

/-- `initiate()`. Nothing is returned where the call has thrown. -/
def initiate : Peer σ → Option (Bytes × Peer σ)
  | .cpp ne =>
      match NE.Negentropy.initiate ne with
      | .ok message ne => some (message, .cpp ne)
      | .error _ _ => none
  | .js ne =>
      match ne.initiate with
      | .ok message s => some (message, .js s.ne)
      | .error _ _ => none

/-- The server's `reconcile(query)`. In JavaScript it is one method, and the loop gets a round for every byte. -/
def reconcile (query : Bytes) : Peer σ → Option (Bytes × Peer σ)
  | .cpp ne =>
      match NE.Negentropy.reconcile query ne with
      | .ok output ne => some (output, .cpp ne)
      | .error _ _ => none
  | .js ne => do
      let array ← Uint8Array.from? query
      match ne.reconcile (query.length + 1) array with
      | .ok (some output, _, _) s => some (output, .js s.ne)
      | _ => none

/-- The client's `reconcile(query, haveIds, needIds)`. -/
def reconcileHaveNeed (query : Bytes) : Peer σ → Option ((Option Bytes × List Bytes × List Bytes) × Peer σ)
  | .cpp ne =>
      match NE.Negentropy.reconcileHaveNeed query ne with
      | .ok (output, haveIds, needIds) ne =>
          some ((output, haveIds.map ItemId.bytes, needIds.map ItemId.bytes), .cpp ne)
      | .error _ _ => none
  | .js ne => do
      let array ← Uint8Array.from? query
      match ne.reconcile (query.length + 1) array with
      | .ok r s => some (r, .js s.ne)
      | .error _ _ => none

/-- A new object over the items. -/
def New (items : List NE.Item) (frameSizeLimit : ℕ) : Peer σ → Prop
  | .cpp ne => NE.Negentropy.make ne.storage frameSizeLimit = .ok ne ∧ Presents ne.storage items (windowFingerprint items)
  | .js ne => Negentropy.make ne.storage frameSizeLimit = .ok ne ∧ ne.storage.Holds items.toFinset

/-- The object does what the party does. -/
inductive Plays (P : Party) : Peer σ → Prop
  | cpp {ne} : Presents ne.storage P.items (windowFingerprint P.items) → ne.party P.items = P → Plays P (.cpp ne)
  | js {ne js} : SmallVector ne.storage → ne.party ne.storage.items = P → Alike ne js → Plays P (.js js)

end Peer

/-! ### Sessions -/

/-- A session of any two objects. -/
structure MixedSession (σ τ : Type) where
  client : Peer σ
  server : Peer τ
  message : Option Bytes
  haveIds : List Bytes := []
  needIds : List Bytes := []

namespace MixedSession

variable {σ τ : Type} [StorageBase σ] [StorageBase τ] [Sha256]

def start (client : Peer σ) (server : Peer τ) : Option (MixedSession σ τ) := do
  let (message, client) ← client.initiate
  return { client, server, message := some message }

def round (s : MixedSession σ τ) : Option (MixedSession σ τ) :=
  match s.message with
  | none => some s
  | some query => do
      let (response, server) ← s.server.reconcile query
      let ((message, haveIds, needIds), client) ← s.client.reconcileHaveNeed response
      return { client, server, message, haveIds := s.haveIds ++ haveIds, needIds := s.needIds ++ needIds }

/-- The session after a number of rounds. -/
def run (client : Peer σ) (server : Peer τ) : ℕ → Option (MixedSession σ τ)
  | 0 => start client server
  | n + 1 => run client server n >>= round

end MixedSession

/-! ### Calls -/

/-- The vector of JavaScript holds what that of C++ holds. -/
theorem ofVector_holds {v : NE.Storage.Vector} {s : Finset NE.Item} (hv : v.Holds s) : (ofVector v).Holds s where
  isSealed := hv.isSealed
  sorted := List.pairwise_map.mpr (hv.sorted.imp fun h => (before_ofItem_iff _ _).mpr h)
  mem_iff x := by
    rw [ofVector, List.mem_map, ← hv.toFinset]
    simp only [List.mem_toFinset]

theorem from?_of_lt {bytes : Bytes} (h : bytes.length < 2 ^ 53) : Uint8Array.from? bytes = some ⟨bytes, h⟩ := dif_pos h

/-- What a party is sent by another one with the fingerprints `fp`, when both implementations can read it. -/
structure Readable (fp : ℕ → ℕ → NE.Fingerprint) (q : List (NE.Range Window)) : Prop where
  encodable : Encodable 0 q
  sorted : NE.Range.Sorted (render fp q)
  small : ∀ r ∈ q, Small r
  length_lt : Party.messageSize q < 2 ^ 53

section
variable {fp : ℕ → ℕ → NE.Fingerprint} {q : List (NE.Range Window)} (hq : Readable fp q)
include hq

theorem Readable.smallQuery : smallQuery (NE.message (render fp q)) = true := by
  refine smallQuery_message (hq.encodable.render fp) fun r hr => ?_
  obtain ⟨x, hx, rfl⟩ := List.mem_map.mp hr
  exact (hq.small x hx).map _

theorem Readable.message_length : (NE.message (render fp q)).length < 2 ^ 53 := (fullOutput_length fp q).trans_lt hq.length_lt

end

section
variable [Sha256]

/-- What the party answers to ranges with the fingerprints `fp`. -/
def answerTo (P : Party) (fp : ℕ → ℕ → NE.Fingerprint) (q : List (NE.Range Window)) : Party.Answer Window :=
  P.reply (fun w w' => sameFp (windowFingerprint P.items) (windowFp fp w) w') q

theorem reply_render (P : Party) (fp : ℕ → ℕ → NE.Fingerprint) (q : List (NE.Range Window)) :
    P.reply (sameFp (windowFingerprint P.items)) (render fp q) = (answerTo P fp q).map (windowFp fp) := Party.reply_map _ _ _

theorem SmallVector.presents {v : NE.Storage.Vector} (hv : SmallVector v) : Presents v v.items (windowFingerprint v.items) :=
  NE.Storage.Vector.presents hv.isSealed (hv.length_lt.trans (by decide)) hv.sorted

/-- What JavaScript returns to a message that both can read. -/
theorem Alike.reconcile_ok {ne : NE.Negentropy NE.Storage.Vector} {js : Negentropy NegentropyStorageVector} (h : Alike ne js)
    (hv : SmallVector ne.storage) {P : Party} (hP : ne.party ne.storage.items = P) {fp : ℕ → ℕ → NE.Fingerprint}
    {q : List (NE.Range Window)} (hq : Readable fp q) :
    ∃ s, js.reconcile ((NE.message (render fp q)).length + 1) ⟨NE.message (render fp q), hq.message_length⟩ =
        .ok (if (answerTo P fp q).out = [] ∧ P.isInitiator = true then none
            else some (NE.message (render (windowFingerprint P.items) (answerTo P fp q).out)),
          (answerTo P fp q).haveIds.map ItemId.bytes, (answerTo P fp q).needIds.map ItemId.bytes) s ∧ Alike ne s.ne := by
  obtain ⟨i, o, haux⟩ := reconcileAux_message hv.presents (hq.encodable.render fp) hq.sorted
  obtain ⟨hstep, -⟩ := h.reconcileMessage_alike hv ⟨NE.message (render fp q), hq.message_length⟩ hq.smallQuery (Nat.lt_succ_self _)
  have hreply : (ne.party ne.storage.items).reply (sameFp (windowFingerprint ne.storage.items)) (render fp q) =
      (answerTo P fp q).map (windowFp fp) := by
    rw [← hP]
    exact reply_render (ne.party ne.storage.items) fp q
  have hitems : P.items = ne.storage.items := hP ▸ rfl
  have hrole : P.isInitiator = ne.isInitiator := hP ▸ rfl
  generalize hr : js.reconcile ((NE.message (render fp q)).length + 1) ⟨NE.message (render fp q), hq.message_length⟩ = r at hstep
  dsimp only at hstep
  rw [haux, hreply] at hstep
  cases hstep with
  | @ok _ r' _ s hstep =>
    obtain ⟨houtput, hids, -, halike⟩ := hstep
    refine ⟨s, congrArg (EStateM.Result.ok · s) (Prod.ext ?_ hids), halike⟩
    rw [houtput, hitems, hrole]
    have hempty : (NE.message (render (windowFingerprint ne.storage.items) (answerTo P fp q).out)).length = 1 ↔
        (answerTo P fp q).out = [] := message_length_one.trans List.map_eq_nil_iff
    exact if_congr (and_congr_left' hempty) rfl rfl

end

namespace Peer

variable {σ : Type} [StorageBase σ] [Sha256]

section
variable {P : Party} {peer : Peer σ} (h : peer.Plays P) {fp : ℕ → ℕ → NE.Fingerprint} {q : List (NE.Range Window)}
  (hq : Readable fp q)
include h hq

/-- A server answers what its party answers, in either language. -/
theorem Plays.reconcile (hinit : P.isInitiator = false) :
    ∃ peer', peer.reconcile (NE.message (render fp q)) =
        some (NE.message (render (windowFingerprint P.items) (answerTo P fp q).out), peer') ∧ Plays P peer' := by
  cases h with
  | @cpp ne hs hP =>
    have hinit' : ne.isInitiator = false := by
      rw [← hinit, ← hP]
      rfl
    obtain ⟨i, o, hreconcile⟩ := reconcile_message hs hinit' (hq.encodable.render fp) hq.sorted
    rw [hP, reply_render] at hreconcile
    refine ⟨.cpp (ne.at i o), ?_, .cpp hs hP⟩
    rw [Peer.reconcile, hreconcile]
    rfl
  | @js ne js hv hP halike =>
    obtain ⟨s, hreconcile, halike'⟩ := halike.reconcile_ok hv hP hq
    refine ⟨.js s.ne, ?_, .js hv hP halike'⟩
    rw [Peer.reconcile, from?_of_lt hq.message_length]
    dsimp only [bind, Option.bind]
    rw [hreconcile, hinit, if_neg (fun hnone => Bool.false_ne_true hnone.2)]

/-- So does a client, and reports what its party reports. -/
theorem Plays.reconcileHaveNeed (hinit : P.isInitiator = true) :
    ∃ peer', peer.reconcileHaveNeed (NE.message (render fp q)) =
        some ((if (answerTo P fp q).out = [] then none
            else some (NE.message (render (windowFingerprint P.items) (answerTo P fp q).out)),
          (answerTo P fp q).haveIds.map ItemId.bytes, (answerTo P fp q).needIds.map ItemId.bytes), peer') ∧ Plays P peer' := by
  cases h with
  | @cpp ne hs hP =>
    have hinit' : ne.isInitiator = true := by
      rw [← hinit, ← hP]
      rfl
    obtain ⟨i, o, hreconcile⟩ := reconcileHaveNeed_message hs hinit' (hq.encodable.render fp) hq.sorted
    rw [hP, reply_render] at hreconcile
    refine ⟨.cpp (ne.at i o), ?_, .cpp hs hP⟩
    rw [Peer.reconcileHaveNeed, hreconcile]
    rfl
  | @js ne js hv hP halike =>
    obtain ⟨s, hreconcile, halike'⟩ := halike.reconcile_ok hv hP hq
    refine ⟨.js s.ne, ?_, .js hv hP halike'⟩
    rw [Peer.reconcileHaveNeed, from?_of_lt hq.message_length]
    dsimp only [bind, Option.bind]
    rw [hreconcile, hinit]
    simp only [and_true]

end

/-! ### New objects -/

section
variable {items : List NE.Item} {limit : ℕ}

/-- The vector of C++ with the same items. -/
theorem New.twin (hitems : SmallItems items) (hsorted : items.Pairwise (· < ·)) {js : Negentropy NegentropyStorageVector}
    (h : New items limit (.js js : Peer σ)) :
    ∃ ne : NE.Negentropy NE.Storage.Vector, Alike ne js ∧ SmallVector ne.storage ∧ ne.party ne.storage.items = ⟨items, limit, false⟩ ∧
      ne.lastTimestampOut = 0 ∧ js.lastTimestampIn = 0 ∧ js.lastTimestampOut = 0 := by
  obtain ⟨hmake, hholds⟩ := h
  have hv : NE.Storage.Vector.Holds ⟨items, true⟩ items.toFinset := ⟨rfl, hsorted, rfl⟩
  have hstorage := eq_ofVector hv hholds
  unfold Negentropy.make at hmake
  split at hmake
  · next hlimit =>
    have hjs := Except.ok.inj hmake
    refine ⟨{ storage := ⟨items, true⟩, frameSizeLimit := limit, limit_ok := hlimit }, ⟨hstorage, ?_, ?_⟩,
      ⟨rfl, hsorted, hitems.length_lt, hitems.timestamps⟩, rfl, rfl, ?_, ?_⟩
    all_goals rw [← hjs]
  · cases hmake

/-- A new object is a server. -/
theorem New.plays (hitems : SmallItems items) (hsorted : items.Pairwise (· < ·)) {peer : Peer σ} (h : peer.New items limit) :
    peer.Plays ⟨items, limit, false⟩ := by
  cases peer with
  | cpp ne =>
    obtain ⟨hmake, hs⟩ := h
    refine .cpp hs ?_
    unfold NE.Negentropy.make at hmake
    split at hmake
    · rw [← Except.ok.inj hmake]
      rfl
    · cases hmake
  | js js =>
    obtain ⟨ne, halike, hv, hP, -⟩ := New.twin hitems hsorted h
    exact .js hv hP halike

/-- Or a client once it has initiated. -/
theorem New.initiate (hitems : SmallItems items) (hsorted : items.Pairwise (· < ·)) {peer : Peer σ} (h : peer.New items limit) :
    ∃ peer', peer.initiate =
        some (NE.message (render (windowFingerprint items) (Party.mk items limit true).initial), peer') ∧
      Plays ⟨items, limit, true⟩ peer' := by
  cases peer with
  | cpp ne =>
    obtain ⟨hmake, hs⟩ := h
    unfold NE.Negentropy.make at hmake
    split at hmake
    · have hne := Except.ok.inj hmake
      have hinit : ne.isInitiator = false := by rw [← hne]
      have hout : ne.lastTimestampOut = 0 := by rw [← hne]
      have hlimit : ne.frameSizeLimit = limit := by rw [← hne]
      have hfirst := initiate_eq hs.toReads hinit
      rw [hout] at hfirst
      refine ⟨.cpp ({ ne with isInitiator := true }.at ne.lastTimestampIn (lastTimestamp 0 (ne.party items).initial)), ?_, .cpp hs ?_⟩
      · rw [Peer.initiate, hfirst]
        rfl
      · rw [← hlimit]
        rfl
    · cases hmake
  | js js =>
    obtain ⟨ne, halike, hv, hP, hout, hin', hout'⟩ := New.twin hitems hsorted h
    have hinit : ne.isInitiator = false := congrArg Party.isInitiator hP
    have hlimit : ne.frameSizeLimit = limit := congrArg Party.frameSizeLimit hP
    have hitems' : ne.storage.items = items := congrArg Party.items hP
    obtain ⟨bytes, ne', s, hcpp, hjs, halike'⟩ := halike.initiate_alike hv hinit hout hin' hout'
    rw [initiate_eq hv.presents.toReads hinit, hout] at hcpp
    obtain ⟨rfl, hne'⟩ := EStateM.Result.ok.inj hcpp
    have hv' : SmallVector ne'.storage := by
      rw [← hne']
      exact hv
    have hP' : ne'.party ne'.storage.items = ⟨items, limit, true⟩ := by
      rw [← hne', ← hlimit, ← hitems']
      rfl
    refine ⟨.js s.ne, ?_, .js hv' hP' halike'⟩
    rw [Peer.initiate, hjs]
    dsimp only
    rw [hitems']
    rfl

end

end Peer

/-! ### Runs -/

theorem SmallItems.lt_top {items : List NE.Item} (h : SmallItems items) : ∀ x ∈ items, x < top := by
  intro x hx
  have hsmall := h.timestamps x hx
  refine Bound.lt_infinity (UInt64.lt_iff_toNat_lt.mpr (hsmall.trans ?_))
  decide

/-- A client with `C` and a server with `S`. -/
def pairingOf [Sha256] (C S : List NE.Item) (limitC limitS : ℕ) : Pairing where
  client := ⟨C, limitC, true⟩
  server := ⟨S, limitS, false⟩
  same w w' := decide (windowFp (windowFingerprint C) w = windowFp (windowFingerprint S) w')

namespace MixedSession

variable {σ τ : Type} [StorageBase σ] [StorageBase τ] [Sha256]

/-- The session is in the state that the parties have computed. -/
structure Computes (X : Pairing) (s : MixedSession σ τ) (p : Pairing.State) : Prop where
  client : s.client.Plays X.client
  server : s.server.Plays X.server
  message : s.message =
    if p.message = [] then none else some (NE.message (render (windowFingerprint X.client.items) p.message))
  haveIds : s.haveIds = p.haveIds.map ItemId.bytes
  needIds : s.needIds = p.needIds.map ItemId.bytes

theorem round_of_some {s : MixedSession σ τ} {query response : Bytes} {message : Option Bytes} {haveIds needIds : List Bytes}
    {client' : Peer σ} {server' : Peer τ} (hmessage : s.message = some query)
    (hreconcile : s.server.reconcile query = some (response, server'))
    (hhaveNeed : s.client.reconcileHaveNeed response = some ((message, haveIds, needIds), client')) :
    s.round = some { client := client', server := server', message, haveIds := s.haveIds ++ haveIds,
                     needIds := s.needIds ++ needIds } := by
  rw [round, hmessage]
  dsimp only [bind, Option.bind]
  rw [hreconcile]
  dsimp only
  rw [hhaveNeed]
  rfl

section
variable {C S : List NE.Item} {limitC limitS : ℕ}

theorem emptyAgree_pairingOf : (pairingOf C S limitC limitS).EmptyAgree := by
  intro w w' hw hw'
  have hC : slice C w.begin_ w.end_ = [] := hw
  have hS : slice S w'.begin_ w'.end_ = [] := hw'
  simp only [pairingOf, windowFp, windowFingerprint, hC, hS, decide_true]

/-- Equal items have equal fingerprints. -/
theorem same_pairingOf (w w' : Window) (heq : slice C w.begin_ w.end_ = slice S w'.begin_ w'.end_) :
    (pairingOf C S limitC limitS).same w w' = true := by
  simp only [pairingOf, windowFp, windowFingerprint, heq, decide_true]

variable (hC : SmallItems C) (hS : SmallItems S) (hX : (pairingOf C S limitC limitS).Proper)
include hC hS hX

/-- No message is too long for an array of JavaScript. -/
theorem readable (n : ℕ) :
    Readable (windowFingerprint C) ((pairingOf C S limitC limitS).after n).message ∧
      Readable (windowFingerprint S)
        ((pairingOf C S limitC limitS).atServer ((pairingOf C S limitC limitS).after n).message).out := by
  have hreached := Pairing.reached hX n
  obtain ⟨hlen, hlen'⟩ := Pairing.messageSize_le_bound hX emptyAgree_pairingOf n
  obtain ⟨hsmall, hsmall'⟩ := small_after (X := pairingOf C S limitC limitS) hC hS n
  have hbound : ∀ {a b : ℕ}, a < 2 ^ 31 → b < 2 ^ 31 → 1 + wireCost.bound a b < 2 ^ 53 := by
    intro a b ha hb
    change 1 + (104 * (a + b + 2) + 32 * a) < 2 ^ 53
    omega
  exact ⟨⟨Pairing.after_encodable hX n, sorted_render _ hreached.honest.ascending, hsmall,
      hlen.trans_lt (hbound hC.length_lt hS.length_lt)⟩,
    (hreached.encodable hX).1, sorted_render _ (hreached.ascending_reply hX), hsmall',
      hlen'.trans_lt (hbound hS.length_lt hC.length_lt)⟩

theorem start_computes {client : Peer σ} {server : Peer τ} (hclient : client.New C limitC) (hserver : server.New S limitS) :
    ∃ s, start client server = some s ∧ Computes (pairingOf C S limitC limitS) s ((pairingOf C S limitC limitS).after 0) := by
  obtain ⟨client', hinitiate, hplays⟩ := Peer.New.initiate hC hX.client_sorted hclient
  have hne : ((pairingOf C S limitC limitS).after 0).message ≠ [] := by
    intro hnil
    have hsplit := (pairingOf C S limitC limitS).client.initial_split hX.client_sorted hX.client_top
    have hnil' : (pairingOf C S limitC limitS).client.initial = [] := hnil
    rw [hnil'] at hsplit
    cases hsplit with
    | buckets hb => cases hb
  have hstart : start client server = some { client := client', server, message := some (NE.message (render (windowFingerprint C)
      (Party.mk C limitC true).initial)) } := by
    rw [start, hinitiate]
    rfl
  refine ⟨_, hstart, hplays, Peer.New.plays hS hX.server_sorted hserver, ?_, rfl, rfl⟩
  rw [if_neg hne]
  rfl

/-- One round of the objects is one of the parties. -/
theorem round_computes {s : MixedSession σ τ} {n : ℕ}
    (hs : Computes (pairingOf C S limitC limitS) s ((pairingOf C S limitC limitS).after n)) :
    ∃ s', s.round = some s' ∧ Computes (pairingOf C S limitC limitS) s' ((pairingOf C S limitC limitS).after (n + 1)) := by
  obtain ⟨hquery, hresponse⟩ := readable hC hS hX n
  set X := pairingOf C S limitC limitS with hXdef
  obtain ⟨hclient, hserver, hmessage, hhave, hneed⟩ := hs
  by_cases hnil : (X.after n).message = []
  · obtain ⟨h1, h2, h3, -⟩ := X.next_of_nil hnil
    rw [if_pos hnil] at hmessage
    refine ⟨s, by rw [round, hmessage], hclient, hserver, ?_, hhave.trans (congrArg _ h2.symm), hneed.trans (congrArg _ h3.symm)⟩
    rw [hmessage]
    exact (if_pos h1).symm
  · rw [if_neg hnil] at hmessage
    obtain ⟨server', hreconcile, hserver'⟩ := hserver.reconcile hquery rfl
    have hatServer : answerTo X.server (windowFingerprint C) (X.after n).message = X.atServer (X.after n).message := rfl
    rw [hatServer] at hreconcile
    obtain ⟨client', hhaveNeed, hclient'⟩ := hclient.reconcileHaveNeed hresponse rfl
    have hatClient : answerTo X.client (windowFingerprint S) (X.atServer (X.after n).message).out =
        X.atClient (X.atServer (X.after n).message).out := by
      have hsame : (fun w w' => sameFp (windowFingerprint C) (windowFp (windowFingerprint S) w) w') =
          fun w w' => X.same w' w := by
        funext w w'
        exact decide_eq_decide.mpr eq_comm
      exact congrArg (fun same => X.client.reply same (X.atServer (X.after n).message).out) hsame
    rw [hatClient] at hhaveNeed
    refine ⟨_, round_of_some hmessage hreconcile hhaveNeed, hclient', hserver', rfl, ?_, ?_⟩
    · dsimp only
      rw [hhave, ← List.map_append]
      rfl
    · dsimp only
      rw [hneed, ← List.map_append]
      rfl

/-- The objects never throw, and compute what the parties compute. -/
theorem run_computes {client : Peer σ} {server : Peer τ} (hclient : client.New C limitC) (hserver : server.New S limitS) :
    ∀ n, ∃ s, run client server n = some s ∧
      Computes (pairingOf C S limitC limitS) s ((pairingOf C S limitC limitS).after n) := by
  intro n
  induction n with
  | zero => exact start_computes hC hS hX hclient hserver
  | succ n ih =>
    obtain ⟨s, hrun, hs⟩ := ih
    obtain ⟨s', hround, hs'⟩ := round_computes hC hS hX hs
    exact ⟨s', by rw [run, hrun]; exact hround, hs'⟩

end

/-- Few items with small timestamps on both sides, and limits that both constructors accept. -/
theorem proper_pairingOf {C S : List NE.Item} {limitC limitS : ℕ} (hC : SmallItems C) (hS : SmallItems S)
    (hsortedC : C.Pairwise (· < ·)) (hsortedS : S.Pairwise (· < ·)) (hlimC : limitC = 0 ∨ 4096 ≤ limitC)
    (hlimS : limitS = 0 ∨ 4096 ≤ limitS) : (pairingOf C S limitC limitS).Proper where
  client_initiator := rfl
  server_initiator := rfl
  client_limit := hlimC
  server_limit := hlimS
  client_sorted := hsortedC
  server_sorted := hsortedS
  client_top := hC.lt_top
  server_top := hS.lt_top
  client_length := hC.length_lt.trans (by decide)
  server_length := hS.length_lt.trans (by decide)

omit [Sha256] in
theorem nodup_of_count_le {P : ItemId → Prop} {ids : List ItemId} (honce : ∀ id, P id → ids.count id ≤ 1)
    (hids : ∀ id ∈ ids, P id) : ids.Nodup := by
  rw [List.nodup_iff_count_le_one]
  intro id
  by_cases hid : id ∈ ids
  · exact honce id (hids id hid)
  · rw [List.count_eq_zero.mpr hid]
    exact Nat.zero_le 1

section
variable {C S : List NE.Item} (hC : SmallItems C) (hS : SmallItems S)
include hC hS

/-- A session between the two implementations, or between two objects of one of them, never throws, and after each round
the same has been sent and reported as by two objects in C++. -/
theorem mixed_like_cpp {σ' τ' : Type} [StorageBase σ'] [StorageBase τ'] {client' : NE.Negentropy σ'} {server' : NE.Negentropy τ'}
    (h : NE.Session.Between client' server' C S (windowFingerprint C) (windowFingerprint S)) {client : Peer σ} {server : Peer τ}
    (hclient : client.New C client'.frameSizeLimit) (hserver : server.New S server'.frameSizeLimit) (n : ℕ) :
    ∃ s s', run client server n = some s ∧ NE.Session.run client' server' n = .ok s' ∧ s.message = s'.message ∧
      s.haveIds = s'.haveIds.map ItemId.bytes ∧ s.needIds.Perm (s'.needIds.map ItemId.bytes) := by
  obtain ⟨s, hrun, hs⟩ := run_computes hC hS h.proper hclient hserver n
  obtain ⟨s', hrun', hs'⟩ := NE.Session.run_computes h n
  have hmessage : s.message = s'.message := by
    rw [hs.message, hs'.message]
    rfl
  have hhave : s.haveIds = s'.haveIds.map ItemId.bytes := by
    rw [hs.haveIds, hs'.haveIds]
    rfl
  have hneed : s.needIds = s'.needIds.map ItemId.bytes := by
    rw [hs.needIds, hs'.needIds]
    rfl
  exact ⟨s, s', hrun, hrun', hmessage, hhave, hneed ▸ .refl _⟩

/-- Without limits it is over after logarithmically many rounds. If no fingerprints collide and each id has one timestamp, what
has been reported then are the differences, each once. -/
theorem mixed_exact (hsortedC : C.Pairwise (· < ·)) (hsortedS : S.Pairwise (· < ·)) {client : Peer σ} {server : Peer τ}
    (hclient : client.New C 0) (hserver : server.New S 0) {r : ℕ} (hr : min C.length S.length ≤ 31 * 16 ^ r) :
    (∀ n, ∃ s, run client server n = some s) ∧
      ∃ s, run client server (r + 1) = some s ∧ s.message = none ∧
        (OneTimestamp C S → NE.Session.Injective (pairingOf C S 0 0) →
          ∃ haveIds needIds : List ItemId, (s.haveIds = haveIds.map ItemId.bytes ∧ s.needIds = needIds.map ItemId.bytes) ∧
            (haveIds.Nodup ∧ needIds.Nodup) ∧ (∀ id, id ∈ haveIds ↔ Minus C S id) ∧ ∀ id, id ∈ needIds ↔ Minus S C id) := by
  have hX := proper_pairingOf hC hS hsortedC hsortedS (.inl rfl) (.inl rfl)
  have hruns := run_computes hC hS hX hclient hserver
  refine ⟨fun n => (hruns n).imp fun s hs => hs.1, ?_⟩
  obtain ⟨s, hrun, hs⟩ := hruns (r + 1)
  have hdone : ((pairingOf C S 0 0).after (r + 1)).message = [] :=
    Pairing.message_eq_nil hX rfl rfl same_pairingOf hr
  refine ⟨s, hrun, hs.message.trans (if_pos hdone), fun hone hfp => ⟨_, _, ⟨hs.haveIds, hs.needIds⟩, ?_⟩⟩
  have hid := identified hsortedC hsortedS hone
  have hdrop := Rbsr.Exchange.no_drop (Pairing.reached hX (r + 1)) (not_not.mpr rfl) (not_not.mpr rfl)
  obtain ⟨hrep, hrep'⟩ := Pairing.reported hX hid (r + 1)
  obtain ⟨hcov, hcov'⟩ := Pairing.covered hX hid (n := r + 1) (by simp [hdrop]) (hfp (r + 1)) hdone
  obtain ⟨honce, honce'⟩ := Pairing.once hX hid rfl rfl (r + 1)
  refine ⟨⟨nodup_of_count_le honce hrep, nodup_of_count_le honce' hrep'⟩, fun id => ⟨hrep id, hcov id⟩, fun id => ⟨hrep' id, hcov' id⟩⟩

end

end MixedSession

section Example

local instance sessionsSha256 : Sha256 := SHA256.real

/-- The object of JavaScript over the items of the client. -/
def manyClientJs : Negentropy NegentropyStorageVector where
  storage := ofVector manyClient.storage
  frameSizeLimit := 0
  limit_ok := limit_ok_none

theorem manyClientJs_new : (Peer.js manyClientJs : Peer NE.Storage.Vector).New clientSample 0 :=
  ⟨rfl, ofVector_holds ⟨rfl, sample_sorted.1, rfl⟩⟩

theorem manyServer_new : (Peer.cpp manyServer).New serverSample 0 := ⟨rfl, manyServer_presents⟩

theorem many_small : SmallItems clientSample ∧ SmallItems serverSample :=
  ⟨⟨sample_length.1.trans_lt (by decide), fun x hx => (sample_small.1 x hx).toNat_lt.trans (by decide)⟩,
    ⟨sample_length.2.trans_lt (by decide), fun x hx => (sample_small.2 x hx).toNat_lt.trans (by decide)⟩⟩

theorem mixed_like_cpp_many : ∃ s s', MixedSession.run (.js manyClientJs : Peer NE.Storage.Vector) (.cpp manyServer) 1 = some s ∧
    NE.Session.run manyClient manyServer 1 = .ok s' ∧ s.message = s'.message ∧
      s.haveIds = s'.haveIds.map ItemId.bytes ∧ s.needIds.Perm (s'.needIds.map ItemId.bytes) :=
  MixedSession.mixed_like_cpp many_small.1 many_small.2 many_between manyClientJs_new manyServer_new 1

theorem mixed_exact_many :
    (∀ n, ∃ s, MixedSession.run (.js manyClientJs : Peer NE.Storage.Vector) (.cpp manyServer) n = some s) ∧
      ∃ s, MixedSession.run (.js manyClientJs : Peer NE.Storage.Vector) (.cpp manyServer) 2 = some s ∧ s.message = none ∧
        ∃ haveIds needIds : List ItemId, (s.haveIds = haveIds.map ItemId.bytes ∧ s.needIds = needIds.map ItemId.bytes) ∧
          (haveIds.Nodup ∧ needIds.Nodup) ∧ (∀ id, id ∈ haveIds ↔ Minus clientSample serverSample id) ∧
          ∀ id, id ∈ needIds ↔ Minus serverSample clientSample id := by
  obtain ⟨hall, s, hrun, hdone, hids⟩ := MixedSession.mixed_exact many_small.1 many_small.2 sample_sorted.1 sample_sorted.2
    manyClientJs_new manyServer_new many_few
  exact ⟨hall, s, hrun, hdone, hids many_oneTimestamp many_injective⟩

end Example

end NE.Js
