import Negentropy.Compare
import Negentropy.Lib.Rbsr.Exchange
import Negentropy.Wire

/-! The exchange of a client and a server: the client initiates, and each round is the server's
`reconcile` and the client's. The messages of the two objects are those of `Pairing`, where
a fingerprint is named by the window it was computed over, and these are an exchange in
the sense of range-based reconciliation. -/

namespace NE

open Sorted Stateful Negentropy

/-! ### The objects -/

/-- The two objects, the message the client sends next (`none` once it has returned
`std::nullopt`), and the ids it has been given in all rounds so far. -/
structure Session (σ τ : Type) where
  client : Negentropy σ
  server : Negentropy τ
  message : Option Bytes
  haveIds : List ItemId := []
  needIds : List ItemId := []

namespace Session

variable {σ τ : Type} [StorageBase σ] [StorageBase τ]

def start (client : Negentropy σ) (server : Negentropy τ) : Except Err (Session σ τ) :=
  match initiate client with
  | .ok message client => .ok { client, server, message := some message }
  | .error e _ => .error e

def round (s : Session σ τ) : Except Err (Session σ τ) :=
  match s.message with
  | none => .ok s
  | some query =>
      match reconcile query s.server with
      | .error e _ => .error e
      | .ok response server =>
          match reconcileHaveNeed response s.client with
          | .error e _ => .error e
          | .ok (message, haveIds, needIds) client =>
              .ok { client, server, message, haveIds := s.haveIds ++ haveIds, needIds := s.needIds ++ needIds }

/-- The session after a number of rounds. -/
def run (client : Negentropy σ) (server : Negentropy τ) : ℕ → Except Err (Session σ τ)
  | 0 => start client server
  | n + 1 => run client server n >>= round

end Session

/-! ### The parties -/

/-- A client and a server, and which fingerprints of the client's windows equal which of the server's. -/
structure Pairing where
  client : Party
  server : Party
  same : Window → Window → Bool

/-- What the client has sent last and reported, every comparison of fingerprints (what they were over,
and whether they were equal) and every dropped split. -/
structure Pairing.State where
  message : List (Range Window)
  haveIds : List ItemId := []
  needIds : List ItemId := []
  compared : List (Rbsr.Comparison Item) := []
  dropped : List (Rbsr.Drop Item) := []

namespace Pairing

variable (X : Pairing)

/-- The server's reply. -/
def atServer (m : List (Range Window)) : Party.Answer Window :=
  X.server.reply X.same m

/-- The client's reply. -/
def atClient (m : List (Range Window)) : Party.Answer Window :=
  X.client.reply (fun w w' => X.same w' w) m

def droppedAtServer (m : List (Range Window)) : Option (Rbsr.Drop Item) :=
  (X.server.dropped X.same m {}).map (X.server.drop X.client.elems)

def droppedAtClient (m : List (Range Window)) : Option (Rbsr.Drop Item) :=
  (X.client.dropped (fun w w' => X.same w' w) m {}).map (X.client.drop X.server.elems)

def next (s : State) : State :=
  let server := X.atServer s.message
  let client := X.atClient server.out
  { message := client.out
    haveIds := s.haveIds ++ client.haveIds
    needIds := s.needIds ++ client.needIds
    compared := s.compared ++ server.compared.map (X.server.comparison X.client.elems) ++
      client.compared.map (X.client.comparison X.server.elems)
    dropped := s.dropped ++ (X.droppedAtServer s.message).toList ++ (X.droppedAtClient server.out).toList }

def after : ℕ → State
  | 0 => { message := X.client.initial }
  | n + 1 => X.next (after n)

/-- Two parties with sorted items below infinity. -/
structure Proper : Prop where
  client_initiator : X.client.isInitiator = true
  server_initiator : X.server.isInitiator = false
  client_limit : X.client.frameSizeLimit = 0 ∨ 4096 ≤ X.client.frameSizeLimit
  server_limit : X.server.frameSizeLimit = 0 ∨ 4096 ≤ X.server.frameSizeLimit
  client_sorted : X.client.items.Pairwise (· < ·)
  server_sorted : X.server.items.Pairwise (· < ·)
  client_top : ∀ x ∈ X.client.items, x < top
  server_top : ∀ x ∈ X.server.items, x < top
  client_length : X.client.items.length < 2 ^ 64
  server_length : X.server.items.length < 2 ^ 64

/-- A state of range-based reconciliation. -/
def Reached (s : State) : Prop :=
  Rbsr.Exchange X.client.items X.server.items Item.id bot top Party.compare (X.client.frameSizeLimit ≠ 0)
    (X.server.frameSizeLimit ≠ 0) (abstract X.client.elems s.message) s.haveIds s.needIds s.compared s.dropped

variable {X}

theorem bot_lt_top : bot < top := Bound.lt_infinity (by decide)

theorem Reached.honest {s : State} (h : X.Reached s) :
    Rbsr.Honest X.client.items X.server.items Item.id top True True bot (abstract X.client.elems s.message) :=
  Rbsr.Exchange.honest h bot_lt_top (.inl trivial) (.inl trivial)

/-- The two replies of a round. -/
theorem Reached.replies (hX : X.Proper) {s : State} (h : X.Reached s) :
    (∃ hs ns, Rbsr.Reply X.server.items Item.id top Party.compare False (X.server.frameSizeLimit ≠ 0) False bot bot
      (abstract X.client.elems s.message) (abstract X.server.elems (X.atServer s.message).out) hs ns
      ((X.atServer s.message).compared.map (X.server.comparison X.client.elems)) (X.droppedAtServer s.message)) ∧
    Rbsr.Reply X.client.items Item.id top Party.compare True (X.client.frameSizeLimit ≠ 0) False bot bot
      (abstract X.server.elems (X.atServer s.message).out)
      (abstract X.client.elems (X.next s).message) (X.atClient (X.atServer s.message).out).haveIds
      (X.atClient (X.atServer s.message).out).needIds
      ((X.atClient (X.atServer s.message).out).compared.map (X.client.comparison X.server.elems))
      (X.droppedAtClient (X.atServer s.message).out) := by
  obtain ⟨_, rfl, hserver⟩ := X.server.reply_replies hX.server_limit hX.server_sorted hX.server_top X.client.elems
    X.same h.honest.ascending
  have hmid := hserver.honest (.inl trivial) (.inl trivial) h.honest le_rfl
  obtain ⟨_, rfl, hclient⟩ := X.client.reply_replies hX.client_limit hX.client_sorted hX.client_top X.server.elems
    (fun w w' => X.same w' w) hmid.ascending
  rw [hX.server_initiator, eq_false Bool.false_ne_true] at hserver
  rw [hX.client_initiator, eq_true (rfl : true = true)] at hclient
  exact ⟨⟨_, _, hserver⟩, hclient⟩

/-- Every state of the two parties is one of range-based reconciliation. -/
theorem reached (hX : X.Proper) : ∀ n, X.Reached (X.after n) := by
  intro n
  induction n with
  | zero => exact .start (X.client.initial_split hX.client_sorted hX.client_top)
  | succ n ih =>
    obtain ⟨⟨hs, ns, hserver⟩, hclient⟩ := ih.replies hX
    exact .round ih hserver hclient

/-! ### What the objects send -/

/-- The server's reply can be encoded, and the client's reply to it. -/
theorem Reached.encodable (hX : X.Proper) {s : State} (h : X.Reached s) :
    Encodable 0 (X.atServer s.message).out ∧ Encodable 0 (X.next s).message := by
  have hq := (List.pairwise_cons.mp (sorted_of_ascending h.honest.ascending)).2
  obtain ⟨⟨_, _, hserver⟩, -⟩ := h.replies hX
  have hmid := (hserver.honest (.inl trivial) (.inl trivial) h.honest le_rfl).ascending
  exact ⟨X.server.reply_encodable hX.server_limit hX.server_sorted hX.server_top hX.server_length _ hq,
    X.client.reply_encodable hX.client_limit hX.client_sorted hX.client_top hX.client_length _
      (List.pairwise_cons.mp (sorted_of_ascending hmid)).2⟩

theorem after_encodable (hX : X.Proper) : ∀ n, Encodable 0 (X.after n).message := by
  intro n
  cases n with
  | zero => exact X.client.initial_encodable hX.client_sorted hX.client_top hX.client_length
  | succ n => exact ((reached hX n).encodable hX).2

theorem Reached.ascending_reply (hX : X.Proper) {s : State} (h : X.Reached s) :
    Rbsr.Ascending bot (abstract X.server.elems (X.atServer s.message).out) := by
  obtain ⟨⟨_, _, hserver⟩, -⟩ := h.replies hX
  exact (hserver.honest (.inl trivial) (.inl trivial) h.honest le_rfl).ascending

variable (X) in
/-- A finished exchange stays as it is. -/
theorem next_of_nil {s : State} (h : s.message = []) :
    (X.next s).message = [] ∧ (X.next s).haveIds = s.haveIds ∧ (X.next s).needIds = s.needIds ∧
      (X.next s).compared = s.compared := by
  have hserver : X.atServer s.message = {} := by
    rw [h]
    rfl
  have hclient : X.atClient [] = {} := rfl
  simp [next, hserver, hclient]

theorem compared_subset (X : Pairing) {n k : ℕ} (h : n ≤ k) : (X.after n).compared ⊆ (X.after k).compared := by
  induction h with
  | refl => exact fun x hx => hx
  | step _ ih => exact fun x hx => List.mem_append_left _ (List.mem_append_left _ (ih hx))

/-- No fingerprints are compared after the end. -/
theorem compared_of_nil (X : Pairing) {n k : ℕ} (hdone : (X.after k).message = []) (h : k ≤ n) :
    (X.after n).message = [] ∧ (X.after n).compared = (X.after k).compared := by
  induction h with
  | refl => exact ⟨hdone, rfl⟩
  | step _ ih =>
    obtain ⟨h1, -, -, h2⟩ := X.next_of_nil ih.1
    exact ⟨h1, h2.trans ih.2⟩

/-! ### Runs that depend on the items only -/

/-- Fingerprints are compared by a function of the items they are over. -/
def of (client server : Party) (f : List Item → List Item → Bool) : Pairing where
  client := client
  server := server
  same w w' := f (client.elems w) (server.elems w')

theorem reply_congr_over {P Q : Party} {f g : List Item → List Item → Bool} {q : List (Range Window)}
    (h : ∀ x ∈ (P.reply (fun w w' => g (Q.elems w) (P.elems w')) q).compared.map (P.comparison Q.elems),
      f x.theirs x.ours = x.agree) :
    P.reply (fun w w' => f (Q.elems w) (P.elems w')) q = P.reply (fun w w' => g (Q.elems w) (P.elems w')) q :=
  Party.reply_congr fun _ hx => h _ (List.mem_map_of_mem hx)

/-- What the function says holds of what a run has recorded. -/
theorem of_agree {client server : Party} {f : List Item → List Item → Bool} (hf : ∀ xs ys, f xs ys = true → xs = ys)
    (n : ℕ) : ∀ x ∈ ((of client server f).after n).compared, x.agree = true → x.theirs = x.ours := by
  induction n with
  | zero => exact fun x hx => absurd hx List.not_mem_nil
  | succ n ih =>
    intro x hx hagree
    rcases List.mem_append.mp hx with hx | hx
    · rcases List.mem_append.mp hx with hx | hx
      · exact ih x hx hagree
      · obtain ⟨y, hy, rfl⟩ := List.mem_map.mp hx
        exact hf _ _ ((server.reply_compared _ _ y hy).symm.trans hagree)
    · obtain ⟨y, hy, rfl⟩ := List.mem_map.mp hx
      exact (hf _ _ ((client.reply_compared _ _ y hy).symm.trans hagree)).symm

/-- Two ways to compare fingerprints that have the same outcome wherever one run compares them lead to
the same messages and reports. -/
theorem after_congr {client server : Party} (f g : List Item → List Item → Bool) (hf : ∀ xs ys, f xs ys = f ys xs)
    (hg : ∀ xs ys, g xs ys = g ys xs) {n : ℕ} (h : ∀ x ∈ ((of client server g).after n).compared, f x.theirs x.ours = x.agree) :
    ((of client server f).after n).message = ((of client server g).after n).message ∧
      ((of client server f).after n).needIds = ((of client server g).after n).needIds ∧
      ((of client server f).after n).compared = ((of client server g).after n).compared := by
  induction n with
  | zero => exact ⟨rfl, rfl, rfl⟩
  | succ n ih =>
    simp only [after, next, List.mem_append, or_imp, forall_and] at h
    obtain ⟨⟨h, hserver⟩, hclient⟩ := h
    obtain ⟨hmessage, hneed, hcompared⟩ := ih h
    have hatServer : (of client server f).atServer ((of client server g).after n).message =
        (of client server g).atServer ((of client server g).after n).message := reply_congr_over hserver
    have hfun : ∀ k : List Item → List Item → Bool, (∀ xs ys, k xs ys = k ys xs) →
        (fun w w' => (of client server k).same w' w) = fun w w' => k (server.elems w) (client.elems w') := by
      intro k hk
      funext w w'
      exact hk _ _
    have hatClient : ∀ q, (∀ x ∈ ((of client server g).atClient q).compared.map (client.comparison server.elems),
        f x.theirs x.ours = x.agree) → (of client server f).atClient q = (of client server g).atClient q := by
      intro q hq
      simp only [atClient, hfun f hf, hfun g hg] at hq ⊢
      exact reply_congr_over hq
    refine ⟨?_, ?_, ?_⟩
    · simp only [after, next, hmessage, hatServer, hatClient _ hclient]
    · simp only [after, next, hmessage, hneed, hatServer, hatClient _ hclient]
    · simp only [after, next, hmessage, hcompared, hatServer, hatClient _ hclient]
      rfl

end Pairing

namespace Session

variable {σ τ : Type} [StorageBase σ] [StorageBase τ] {client : Negentropy σ} {server : Negentropy τ}
  {C S : List Item} {fpC fpS : ℕ → ℕ → Fingerprint}

/-- Two new objects on storages that hold `C` and `S`. -/
structure Between (client : Negentropy σ) (server : Negentropy τ) (C S : List Item) (fpC fpS : ℕ → ℕ → Fingerprint) :
    Prop where
  client_new : Negentropy.make client.storage client.frameSizeLimit = .ok client
  server_new : Negentropy.make server.storage server.frameSizeLimit = .ok server
  client_presents : Presents client.storage C fpC
  server_presents : Presents server.storage S fpS
  client_timestamps : ∀ x ∈ C, x.timestamp < MAX_U64
  server_timestamps : ∀ x ∈ S, x.timestamp < MAX_U64

/-- Their parties. -/
def pairing (client : Negentropy σ) (server : Negentropy τ) (C S : List Item) (fpC fpS : ℕ → ℕ → Fingerprint) :
    Pairing where
  client := ⟨C, client.frameSizeLimit, true⟩
  server := ⟨S, server.frameSizeLimit, false⟩
  same w w' := decide (windowFp fpC w = windowFp fpS w')

omit [StorageBase σ] in
theorem new_of_make (h : Negentropy.make client.storage client.frameSizeLimit = .ok client) :
    client.isInitiator = false ∧ client.lastTimestampOut = 0 := by
  unfold Negentropy.make at h
  split at h
  · rw [← Except.ok.inj h]
    exact ⟨rfl, rfl⟩
  · cases h

theorem Between.proper (h : Between client server C S fpC fpS) : (pairing client server C S fpC fpS).Proper where
  client_initiator := rfl
  server_initiator := rfl
  client_limit := client.limit_ok
  server_limit := server.limit_ok
  client_sorted := h.client_presents.sorted
  server_sorted := h.server_presents.sorted
  client_top x hx := Bound.lt_infinity (h.client_timestamps x hx)
  server_top x hx := Bound.lt_infinity (h.server_timestamps x hx)
  client_length := h.client_presents.length_lt
  server_length := h.server_presents.length_lt

/-- The session is in the state the parties have computed. -/
structure Computes (client : Negentropy σ) (server : Negentropy τ) (fpC : ℕ → ℕ → Fingerprint) (s : Session σ τ)
    (p : Pairing.State) : Prop where
  client_eq : ∃ i o, s.client = { client with isInitiator := true }.at i o
  server_eq : ∃ i o, s.server = server.at i o
  message : s.message = if p.message = [] then none else some (NE.message (render fpC p.message))
  haveIds : s.haveIds = p.haveIds
  needIds : s.needIds = p.needIds

theorem round_of_ok {s : Session σ τ} {query response : Bytes} {message : Option Bytes} {haveIds needIds : List ItemId}
    {client' : Negentropy σ} {server' : Negentropy τ} (hmessage : s.message = some query)
    (hreconcile : reconcile query s.server = .ok response server')
    (hhaveNeed : reconcileHaveNeed response s.client = .ok (message, haveIds, needIds) client') :
    s.round = .ok { client := client', server := server', message, haveIds := s.haveIds ++ haveIds,
                    needIds := s.needIds ++ needIds } := by
  rw [round, hmessage]
  dsimp only
  rw [hreconcile]
  dsimp only
  rw [hhaveNeed]

section
variable (h : Between client server C S fpC fpS)
include h

theorem start_computes : ∃ s, start client server = .ok s ∧
    Computes client server fpC s ((pairing client server C S fpC fpS).after 0) := by
  obtain ⟨hinit, hout⟩ := new_of_make h.client_new
  have hfirst := initiate_eq h.client_presents.toReads hinit
  rw [hout] at hfirst
  have hne : ((pairing client server C S fpC fpS).after 0).message ≠ [] := by
    intro hnil
    have hsplit := (pairing client server C S fpC fpS).client.initial_split h.proper.client_sorted h.proper.client_top
    have hnil' : (pairing client server C S fpC fpS).client.initial = [] := hnil
    rw [hnil'] at hsplit
    cases hsplit with
    | buckets hb => cases hb
  refine ⟨_, by rw [start, hfirst], ⟨_, _, rfl⟩, ⟨server.lastTimestampIn, server.lastTimestampOut, rfl⟩, ?_, rfl, rfl⟩
  rw [if_neg hne]
  rfl

/-- The server's object answers what its party answers. -/
theorem reconcile_computes {s : Session σ τ} {p : Pairing.State} (hs : Computes client server fpC s p)
    (hp : (pairing client server C S fpC fpS).Reached p) (henc : Encodable 0 p.message) :
    ∃ j k, reconcile (NE.message (render fpC p.message)) s.server =
      .ok (NE.message (render fpS ((pairing client server C S fpC fpS).atServer p.message).out)) (s.server.at j k) := by
  obtain ⟨-, ⟨i', o', hserver⟩, -, -, -⟩ := hs
  have hpS : Presents s.server.storage S fpS := by
    rw [hserver]
    exact h.server_presents
  have hinitS : s.server.isInitiator = false := by
    rw [hserver]
    exact (new_of_make h.server_new).1
  have hpartyS : s.server.party S = (pairing client server C S fpC fpS).server := by
    rw [hserver, Negentropy.party]
    exact congrArg (Party.mk S server.frameSizeLimit) (new_of_make h.server_new).1
  obtain ⟨j, k, hreconcile⟩ := reconcile_message hpS hinitS (henc.render fpC)
    (sorted_render fpC hp.honest.ascending)
  rw [hpartyS, render, Party.reply_map] at hreconcile
  exact ⟨j, k, hreconcile⟩

/-- One round of the objects is one of the parties. -/
theorem round_computes {s : Session σ τ} {p : Pairing.State} (hs : Computes client server fpC s p)
    (hp : (pairing client server C S fpC fpS).Reached p) (henc : Encodable 0 p.message) :
    ∃ s', s.round = .ok s' ∧ Computes client server fpC s' ((pairing client server C S fpC fpS).next p) := by
  obtain ⟨j, k, hreconcile⟩ := reconcile_computes h hs hp henc
  obtain ⟨⟨i, o, hclient⟩, ⟨i', o', hserver⟩, hmessage, hhave, hneed⟩ := hs
  by_cases hnil : p.message = []
  · rw [if_pos hnil] at hmessage
    obtain ⟨h1, h2, h3, -⟩ := (pairing client server C S fpC fpS).next_of_nil hnil
    refine ⟨s, by rw [round, hmessage], ⟨i, o, hclient⟩, ⟨i', o', hserver⟩, ?_, hhave.trans h2.symm, hneed.trans h3.symm⟩
    rw [hmessage, h1, if_pos rfl]
  · rw [if_neg hnil] at hmessage
    obtain ⟨hmid, -⟩ := hp.encodable h.proper
    have hpC : Presents s.client.storage C fpC := by
      rw [hclient]
      exact h.client_presents
    have hinitC : s.client.isInitiator = true := by
      rw [hclient]
      rfl
    have hpartyC : s.client.party C = (pairing client server C S fpC fpS).client := by
      rw [hclient]
      rfl
    set X := pairing client server C S fpC fpS with hX
    obtain ⟨j', k', hhaveNeed⟩ := reconcileHaveNeed_message hpC hinitC (hmid.render fpS)
      (sorted_render fpS (hp.ascending_reply h.proper))
    have hsame : (fun f => sameFp fpC (windowFp fpS f)) = fun w w' => X.same w' w := by
      funext w w'
      exact decide_eq_decide.mpr eq_comm
    rw [hpartyC, render, Party.reply_map, hsame] at hhaveNeed
    have hhaveNeed' : reconcileHaveNeed (NE.message (render fpS (X.atServer p.message).out)) s.client =
        .ok (if (X.next p).message = [] then none else some (NE.message (render fpC (X.next p).message)),
          (X.atClient (X.atServer p.message).out).haveIds, (X.atClient (X.atServer p.message).out).needIds)
          (s.client.at j' k') := hhaveNeed
    refine ⟨_, round_of_ok hmessage hreconcile hhaveNeed', ⟨j', k', by rw [hclient]; rfl⟩,
      ⟨j, k, by rw [hserver]; rfl⟩, rfl, ?_, ?_⟩
    · exact congrArg (· ++ _) hhave
    · exact congrArg (· ++ _) hneed

/-- The objects never fail, and compute what the parties compute. -/
theorem run_computes : ∀ n, ∃ s, run client server n = .ok s ∧
    Computes client server fpC s ((pairing client server C S fpC fpS).after n) := by
  intro n
  induction n with
  | zero => exact start_computes h
  | succ n ih =>
    obtain ⟨s, hrun, hs⟩ := ih
    obtain ⟨s', hround, hs'⟩ := round_computes h hs (Pairing.reached h.proper n) (Pairing.after_encodable h.proper n)
    exact ⟨s', by rw [run, hrun]; exact hround, hs'⟩

end

end Session

end NE
