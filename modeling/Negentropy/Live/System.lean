import Negentropy.Efficiency
import Negentropy.Lib.Rbsr.Ongoing
import Negentropy.Storage.Agree

/-! A session while the sets change: items may be inserted into the two trees and erased at any time, so between any two
messages too. -/

namespace NE

open Sorted Stateful Negentropy Storage

/-! ### The system -/

/-- What is on its way: the client's query, the server's response, or nothing once the client has returned
`std::nullopt`. -/
inductive Mail where
  | query (m : Bytes)
  | response (m : Bytes)
  | done

def Mail.ofMessage : Option Bytes → Mail
  | some m => .query m
  | none => .done

/-- The two objects, each on a tree of its own, the message on its way, and the ids the client has been given. -/
structure Live (cfg cfg' : BTree.Config) where
  client : Negentropy (BTreeMem cfg)
  server : Negentropy (BTreeMem cfg')
  mail : Mail
  haveIds : List ItemId := []
  needIds : List ItemId := []

/-- Either tree changes, or either object is given the message on its way to it, or nothing happens. -/
inductive Event where
  | atClient (op : BTreeMem.Op)
  | atServer (op : BTreeMem.Op)
  | serve
  | receive
  | idle

/-- A tree changes. -/
def Event.changes : Event → Bool
  | .atClient _ => true
  | .atServer _ => true
  | _ => false

namespace Live

variable {cfg cfg' : BTree.Config} [Sha256]

def start (client : Negentropy (BTreeMem cfg)) (server : Negentropy (BTreeMem cfg')) : Except Err (Live cfg cfg') :=
  match initiate client with
  | .ok m client => .ok { client, server, mail := .query m }
  | .error e _ => .error e

/-- An object that has no message to read does nothing. -/
def step (s : Live cfg cfg') : Event → Except Err (Live cfg cfg')
  | .atClient op => do
      let (_, storage) ← s.client.storage.apply op
      return { s with client := { s.client with storage } }
  | .atServer op => do
      let (_, storage) ← s.server.storage.apply op
      return { s with server := { s.server with storage } }
  | .serve =>
      match s.mail with
      | .query m =>
          match reconcile m s.server with
          | .ok response server => .ok { s with server, mail := .response response }
          | .error e _ => .error e
      | _ => .ok s
  | .receive =>
      match s.mail with
      | .response m =>
          match reconcileHaveNeed m s.client with
          | .ok (message, haveIds, needIds) client =>
              .ok { client, server := s.server, mail := .ofMessage message, haveIds := s.haveIds ++ haveIds,
                    needIds := s.needIds ++ needIds }
          | .error e _ => .error e
      | _ => .ok s
  | .idle => .ok s

/-- What an event does. -/
inductive Moves (s : Live cfg cfg') : Event → Live cfg cfg' → Prop
  | atClient {op r storage} : s.client.storage.apply op = .ok (r, storage) →
      Moves s (.atClient op) { s with client := { s.client with storage } }
  | atServer {op r storage} : s.server.storage.apply op = .ok (r, storage) →
      Moves s (.atServer op) { s with server := { s.server with storage } }
  | serve {m response server} : s.mail = .query m → reconcile m s.server = .ok response server →
      Moves s .serve { s with server, mail := .response response }
  | unserved : (∀ m, s.mail ≠ .query m) → Moves s .serve s
  | receive {m message haveIds needIds client} : s.mail = .response m →
      reconcileHaveNeed m s.client = .ok (message, haveIds, needIds) client →
      Moves s .receive { client, server := s.server, mail := .ofMessage message, haveIds := s.haveIds ++ haveIds,
                         needIds := s.needIds ++ needIds }
  | unreceived : (∀ m, s.mail ≠ .response m) → Moves s .receive s
  | idle : Moves s .idle s

theorem Moves.step_eq {s s' : Live cfg cfg'} {e : Event} (h : Moves s e s') : s.step e = .ok s' := by
  cases h with
  | atClient happly =>
    rw [step, happly]
    rfl
  | atServer happly =>
    rw [step, happly]
    rfl
  | serve hmail hreconcile =>
    rw [step, hmail]
    dsimp only
    rw [hreconcile]
  | unserved hmail =>
    cases hcase : s.mail with
    | query m => exact absurd hcase (hmail m)
    | response m => rw [step, hcase]
    | done => rw [step, hcase]
  | receive hmail hreconcile =>
    rw [step, hmail]
    dsimp only
    rw [hreconcile]
  | unreceived hmail =>
    cases hcase : s.mail with
    | query m => rw [step, hcase]
    | response m => exact absurd hcase (hmail m)
    | done => rw [step, hcase]
  | idle => rfl

/-- The system after so many of the events. -/
def run (client : Negentropy (BTreeMem cfg)) (server : Negentropy (BTreeMem cfg')) (events : ℕ → Event) :
    ℕ → Except Err (Live cfg cfg')
  | 0 => start client server
  | n + 1 => run client server events n >>= fun s => s.step (events n)

/-- The event gives an object the message on its way to it. -/
def delivers (s : Live cfg cfg') : Event → Bool
  | .serve => match s.mail with
      | .query _ => true
      | _ => false
  | .receive => match s.mail with
      | .response _ => true
      | _ => false
  | _ => false

/-- The event at which the message on its way was written: the last that delivered one, or 0 if there was none. -/
def written (client : Negentropy (BTreeMem cfg)) (server : Negentropy (BTreeMem cfg')) (events : ℕ → Event) : ℕ → ℕ
  | 0 => 0
  | n + 1 => match run client server events n with
      | .ok s => if s.delivers (events n) then n else written client server events n
      | .error _ => written client server events n

omit [Sha256] in
theorem delivers_query {s : Live cfg cfg'} {m : Bytes} (hmail : s.mail = .query m) : s.delivers .serve = true := by
  rw [delivers, hmail]

omit [Sha256] in
theorem delivers_response {s : Live cfg cfg'} {m : Bytes} (hmail : s.mail = .response m) : s.delivers .receive = true := by
  rw [delivers, hmail]

theorem written_le {client : Negentropy (BTreeMem cfg)} {server : Negentropy (BTreeMem cfg')} {events : ℕ → Event} (n : ℕ) :
    written client server events n ≤ n := by
  induction n with
  | zero => exact le_rfl
  | succ n ih =>
    rw [written]
    split
    · split_ifs
      · exact Nat.le_succ n
      · exact ih.trans (Nat.le_succ n)
    · exact ih.trans (Nat.le_succ n)

section
variable {client : Negentropy (BTreeMem cfg)} {server : Negentropy (BTreeMem cfg')} {events : ℕ → Event} {n : ℕ}
  {s : Live cfg cfg'} (hrun : run client server events n = .ok s)
include hrun

theorem run_succ {s' : Live cfg cfg'} (hmoves : Moves s (events n) s') : run client server events (n + 1) = .ok s' := by
  rw [run, hrun]
  exact hmoves.step_eq

theorem written_of_delivers (h : s.delivers (events n) = true) : written client server events (n + 1) = n := by
  rw [written, hrun]
  exact if_pos h

theorem written_of_not_delivers (h : s.delivers (events n) = false) :
    written client server events (n + 1) = written client server events n := by
  rw [written, hrun]
  exact if_neg (by simp [h])

end

end Live

/-- What the client's tree holds after so many events. -/
def clientItems (C : Finset Item) (events : ℕ → Event) : ℕ → Finset Item
  | 0 => C
  | n + 1 =>
      match events n with
      | .atClient op => op.after (clientItems C events n)
      | _ => clientItems C events n

/-- And the server's. -/
def serverItems (S : Finset Item) (events : ℕ → Event) : ℕ → Finset Item
  | 0 => S
  | n + 1 =>
      match events n with
      | .atServer op => op.after (serverItems S events n)
      | _ => serverItems S events n

theorem Event.cases_of_not_changes {e : Event} (he : e.changes = false) : e = .serve ∨ e = .receive ∨ e = .idle := by
  cases e with
  | atClient op => cases he
  | atServer op => cases he
  | serve => exact .inl rfl
  | receive => exact .inr (.inl rfl)
  | idle => exact .inr (.inr rfl)

/-- Other events leave both sets as they are. -/
theorem items_unchanged {C S : Finset Item} {events : ℕ → Event} {n : ℕ} (he : (events n).changes = false) :
    clientItems C events (n + 1) = clientItems C events n ∧ serverItems S events (n + 1) = serverItems S events n := by
  obtain he | he | he := Event.cases_of_not_changes he <;> simp only [clientItems, serverItems, he, and_self]

/-- The sets while nothing changes. -/
theorem items_quiet {C S : Finset Item} {events : ℕ → Event} {n : ℕ} (hquiet : ∀ j ≥ n, (events j).changes = false) {j : ℕ} (hj : n ≤ j) :
    clientItems C events j = clientItems C events n ∧ serverItems S events j = serverItems S events n := by
  induction j, hj using Nat.le_induction with
  | base => exact ⟨rfl, rfl⟩
  | succ j hj ih =>
    obtain ⟨hC, hS⟩ := items_unchanged (C := C) (S := S) (hquiet j hj)
    exact ⟨hC.trans ih.1, hS.trans ih.2⟩

/-! ### Messages over sets that may have changed -/

section
variable [Sha256]

/-- A message that a party with these items has sent, and its ranges over the items. -/
def Sent (xs : List Item) (m : Bytes) (rs : List (Rbsr.Range Item ItemId)) : Prop :=
  ∃ ws : List (Range Window), m = message (render (windowFingerprint xs) ws) ∧ Encodable 0 ws ∧
    rs = abstract (fun w => slice xs w.begin_ w.end_) ws

/-- A party's reply to ranges over windows of `ys`. -/
structure Replied (P : Party) (ys : List Item) (q out : List (Rbsr.Range Item ItemId)) (haveIds needIds : List ItemId)
    (c : List (Rbsr.Comparison Item)) : Prop where
  reply : ∃ d, Rbsr.Reply P.items Item.id top Party.compare (P.isInitiator = true) (P.frameSizeLimit ≠ 0) False bot bot
    q out haveIds needIds c d
  compared : ∀ x ∈ c, x.agree = true → fingerprintOf x.theirs = fingerprintOf x.ours
  whole : P.frameSizeLimit = 0 → Rbsr.Whole P.items Item.id buckets 31 (P.isInitiator = true) bot bot q out

/-- Wherever a fingerprint is that of the reader's items in its range, the writer has the same ids there. -/
def TellsApart (theirs ours : List Item) : Item → List (Range Fingerprint) → Prop
  | _, [] => True
  | l, r :: rs =>
      (r.payload = .fingerprint (fingerprintOf (within ours l r.bound.item)) →
        ∀ id, id ∈ (within theirs l r.bound.item).map Item.id ↔ id ∈ (within ours l r.bound.item).map Item.id) ∧
        TellsApart theirs ours r.bound.item rs

omit [Sha256] in
theorem subset_and_subset {xs ys : List ItemId} : xs ⊆ ys ∧ ys ⊆ xs ↔ ∀ id, id ∈ xs ↔ id ∈ ys :=
  ⟨fun h _ => ⟨@h.1 _, @h.2 _⟩, fun h => ⟨fun _ => (h _).mp, fun _ => (h _).mpr⟩⟩

instance (xs ys : List ItemId) : Decidable (∀ id, id ∈ xs ↔ id ∈ ys) := decidable_of_iff _ subset_and_subset

instance (theirs ours : List Item) : ∀ l rs, Decidable (TellsApart theirs ours l rs)
  | _, [] => inferInstanceAs (Decidable True)
  | _, r :: rs =>
      have := instDecidableTellsApart theirs ours r.bound.item rs
      inferInstanceAs (Decidable (_ ∧ _))

theorem TellsApart.each {ys ours : List Item} {l : Item} {ws : List (Range Window)}
    (hno : TellsApart ys ours l (render (windowFingerprint ys) ws))
    (htrue : Rbsr.Truthful ys l (abstract (fun w => slice ys w.begin_ w.end_) ws)) :
    Rbsr.Each (fun l u payload => ∀ X, payload = .fingerprint X → fingerprintOf X = fingerprintOf (within ours l u) →
      ∀ id, id ∈ X.map Item.id ↔ id ∈ (within ours l u).map Item.id) l (abstract (fun w => slice ys w.begin_ w.end_) ws) := by
  induction ws generalizing l with
  | nil => trivial
  | cons r ws ih =>
    obtain ⟨bound, payload⟩ := r
    cases payload with
    | skip => exact ⟨fun X hX => (by cases hX), ih hno.2 htrue⟩
    | idList ids => exact ⟨fun X hX => (by cases hX), ih hno.2 htrue⟩
    | fingerprint w =>
      refine ⟨fun X hX hfp => ?_, ih hno.2 htrue.2⟩
      obtain rfl := Rbsr.Payload.fingerprint.inj hX
      have hids : ∀ id, id ∈ (within ys l bound.item).map Item.id ↔ id ∈ (within ours l bound.item).map Item.id :=
        hno.1 (congrArg Payload.fingerprint hfp)
      rwa [← htrue.1] at hids

/-- Fingerprints that are found equal are over the same ids. -/
theorem Replied.sameIds {P : Party} {ys : List Item} {m : Bytes} {q out : List (Rbsr.Range Item ItemId)}
    {haveIds needIds : List ItemId} {c : List (Rbsr.Comparison Item)} (h : Replied P ys q out haveIds needIds c)
    (hm : Sent ys m q) (htrue : Rbsr.Truthful ys bot q) (hno : TellsApart ys P.items bot (readMessage m).1) :
    ∀ x ∈ c, x.SameIds Item.id := by
  obtain ⟨ws, rfl, henc, rfl⟩ := hm
  rw [readMessage_message (henc.render _)] at hno
  obtain ⟨d, hreply⟩ := h.reply
  intro x hx hagree
  obtain ⟨l, u, heach, hours⟩ := hreply.compared_each (hno.each htrue) x hx
  rw [hours]
  exact heach _ rfl (hours ▸ h.compared x hx hagree)

namespace Party

/-- How a party compares the fingerprints of windows of `ys`. -/
def sameAs (P : Party) (ys : List Item) (w : Window) : Window → Bool :=
  sameFp (windowFingerprint P.items) (windowFp (windowFingerprint ys) w)

theorem replied {P : Party} (hlimit : P.frameSizeLimit = 0 ∨ 4096 ≤ P.frameSizeLimit) (hsorted : P.items.Pairwise (· < ·))
    (htop : ∀ x ∈ P.items, x < top) {ys : List Item} {ws : List (Range Window)}
    (hspans : Rbsr.Spans top bot (abstract (fun w => slice ys w.begin_ w.end_) ws)) :
    ∃ c, Replied P ys (abstract (fun w => slice ys w.begin_ w.end_) ws) (abstract P.elems (P.reply (P.sameAs ys) ws).out)
      (P.reply (P.sameAs ys) ws).haveIds (P.reply (P.sameAs ys) ws).needIds c := by
  obtain ⟨c, hc, hreply⟩ := P.reply_replies hlimit hsorted htop (fun w => slice ys w.begin_ w.end_) (P.sameAs ys) hspans.ascending
  refine ⟨c, ⟨_, hreply⟩, fun x hx => ?_, fun hzero => ?_⟩
  · rw [← hc] at hx
    obtain ⟨y, hy, rfl⟩ := List.mem_map.mp hx
    intro hagree
    exact of_decide_eq_true ((P.reply_compared (P.sameAs ys) ws y hy).symm.trans hagree)
  · refine P.reply_whole hzero hsorted (fun w w' heq => ?_) hspans.ascending
    exact decide_eq_true (congrArg fingerprintOf heq)

end Party

section
variable {σ : Type} [StorageBase σ] {ne : Negentropy σ} {xs ys : List Item} {m : Bytes} {q : List (Rbsr.Range Item ItemId)}
  (hs : Presents ne.storage xs (windowFingerprint xs)) (hts : ∀ x ∈ xs, x.timestamp < MAX_U64) (hm : Sent ys m q)
  (hq : Rbsr.Spans top bot q)
include hs hts hm hq

omit hts hm hq in
/-- A reply to a message over windows of `ys`. -/
theorem reconcile_windows (hinit : ne.isInitiator = false) {ws : List (Range Window)} (henc : Encodable 0 ws)
    (hasc : Rbsr.Ascending bot (abstract (fun w => slice ys w.begin_ w.end_) ws)) :
    ∃ i o, reconcile (message (render (windowFingerprint ys) ws)) ne =
      .ok (message (render (windowFingerprint xs) ((ne.party xs).reply ((ne.party xs).sameAs ys) ws).out)) (ne.at i o) := by
  obtain ⟨i, o, hreconcile⟩ := reconcile_message hs hinit (henc.render (windowFingerprint ys)) (sorted_render _ hasc)
  rw [render, Party.reply_map] at hreconcile
  exact ⟨i, o, hreconcile⟩

theorem reconcile_sent (hinit : ne.isInitiator = false) :
    ∃ i o response out haveIds needIds c, reconcile m ne = .ok response (ne.at i o) ∧ Sent xs response out ∧
      Replied (ne.party xs) ys q out haveIds needIds c := by
  obtain ⟨ws, rfl, henc, rfl⟩ := hm
  have htop := lt_top_of_timestamp ne hts
  obtain ⟨i, o, hreconcile⟩ := reconcile_windows hs hinit henc hq.ascending
  obtain ⟨c, hreplied⟩ := Party.replied (P := ne.party xs) ne.limit_ok hs.sorted htop hq
  refine ⟨i, o, _, _, _, _, c, hreconcile, ⟨_, rfl, ?_, rfl⟩, hreplied⟩
  exact (ne.party xs).reply_encodable ne.limit_ok hs.sorted htop hs.length_lt _
    (List.pairwise_cons.mp (sorted_of_ascending hq.ascending)).2

theorem reconcileHaveNeed_sent (hinit : ne.isInitiator = true) :
    ∃ i o next out haveIds needIds c, reconcileHaveNeed m ne = .ok (next, haveIds, needIds) (ne.at i o) ∧
      (next = none ∧ out = [] ∨ ∃ query, next = some query ∧ out ≠ [] ∧ Sent xs query out) ∧
      Replied (ne.party xs) ys q out haveIds needIds c := by
  obtain ⟨ws, rfl, henc, rfl⟩ := hm
  have htop := lt_top_of_timestamp ne hts
  obtain ⟨i, o, hreconcile⟩ := reconcileHaveNeed_message hs hinit (henc.render _) (sorted_render _ hq.ascending)
  rw [render, Party.reply_map] at hreconcile
  obtain ⟨c, hreplied⟩ := Party.replied (P := ne.party xs) ne.limit_ok hs.sorted htop hq
  refine ⟨i, o, _, _, _, _, c, hreconcile, ?_, hreplied⟩
  have hencode := (ne.party xs).reply_encodable ne.limit_ok hs.sorted htop hs.length_lt ((ne.party xs).sameAs ys)
    (List.pairwise_cons.mp (sorted_of_ascending hq.ascending)).2
  by_cases hnil : ((ne.party xs).reply ((ne.party xs).sameAs ys) ws).out = []
  · exact .inl ⟨if_pos hnil, List.map_eq_nil_iff.mpr hnil⟩
  · exact .inr ⟨_, if_neg hnil, fun h => hnil (List.map_eq_nil_iff.mp h), _, rfl, hencode, rfl⟩

end

end

/-! ### Trees -/

namespace Storage.BTreeMem

variable {cfg : BTree.Config} {t : BTreeMem cfg} {s : Finset Item}

/-- Some history has left this tree, with these items in it. -/
def Built (t : BTreeMem cfg) (s : Finset Item) : Prop :=
  ∃ ops, run {} ops = .ok (answers ∅ ops, t) ∧ itemsAfter ∅ ops = s

/-- The tree holds these items. -/
def Contains (t : BTreeMem cfg) (s : Finset Item) : Prop :=
  ∃ levels xs, BTree.Represents cfg t levels xs ∧ xs.toFinset = s

theorem Built.contains (h : t.Built s) : t.Contains s := by
  obtain ⟨ops, hrun, rfl⟩ := h
  obtain ⟨t', levels, xs, hrun', h, hxs⟩ := reachable cfg ops
  obtain ⟨-, rfl⟩ := Prod.mk.inj (Except.ok.inj (hrun.symm.trans hrun'))
  exact ⟨levels, xs, h, hxs⟩

theorem Contains.apply (h : t.Contains s) (op : Op) : ∃ r t', t.apply op = .ok (r, t') ∧ t'.Contains (op.after s) := by
  obtain ⟨levels, xs, h, rfl⟩ := h
  obtain ⟨t', levels', xs', happly, h', hxs'⟩ := apply_ok h op
  exact ⟨_, t', happly, levels', xs', h', hxs'⟩

theorem Contains.presents [Sha256] (h : t.Contains s) (hcard : s.card < 2 ^ 64) :
    Presents t (s.sort (· ≤ ·)) (windowFingerprint (s.sort (· ≤ ·))) := by
  obtain ⟨levels, xs, h, hxs⟩ := h
  rw [sort_eq h.sorted hxs]
  exact BTreeMem.presents h (length_eq h.sorted hxs ▸ hcard)

end Storage.BTreeMem

/-! ### Every run -/

namespace Live

variable {cfg cfg' : BTree.Config} [Sha256]

/-- What the client holds after so many events, in order. -/
def clientList (C : Finset Item) (events : ℕ → Event) (n : ℕ) : List Item := (clientItems C events n).sort (· ≤ ·)

def serverList (S : Finset Item) (events : ℕ → Event) (n : ℕ) : List Item := (serverItems S events n).sort (· ≤ ·)

/-- Two new objects on trees with these items. At no time is there an item at infinity, or are there `2 ^ 64`. -/
structure Between (client : Negentropy (BTreeMem cfg)) (server : Negentropy (BTreeMem cfg')) (C S : Finset Item)
    (events : ℕ → Event) : Prop where
  client_new : Negentropy.make client.storage client.frameSizeLimit = .ok client
  server_new : Negentropy.make server.storage server.frameSizeLimit = .ok server
  client_built : client.storage.Built C
  server_built : server.storage.Built S
  client_timestamps : ∀ n, ∀ x ∈ clientItems C events n, x.timestamp < MAX_U64
  server_timestamps : ∀ n, ∀ x ∈ serverItems S events n, x.timestamp < MAX_U64
  client_card : ∀ n, (clientItems C events n).card < 2 ^ 64
  server_card : ∀ n, (serverItems S events n).card < 2 ^ 64

/-- Two items that are ever held are the same if they have the same id. -/
def OneItem (C S : Finset Item) (events : ℕ → Event) : Prop :=
  ∀ m n, ∀ x ∈ clientItems C events m ∪ serverItems S events m, ∀ y ∈ clientItems C events n ∪ serverItems S events n,
    x.id = y.id → x = y

/-- No fingerprint that one of the first `n` events has delivered was that of other ids which the reader then had in its range. -/
def NoCollision (client : Negentropy (BTreeMem cfg)) (server : Negentropy (BTreeMem cfg')) (C S : Finset Item)
    (events : ℕ → Event) (n : ℕ) : Prop :=
  ∀ j < n, ∀ s, run client server events j = .ok s → ∀ m,
    (events j = .serve → s.mail = .query m →
      TellsApart (clientList C events (written client server events j)) (serverList S events j) bot (readMessage m).1) ∧
    (events j = .receive → s.mail = .response m →
      TellsApart (serverList S events (written client server events j)) (clientList C events j) bot (readMessage m).1)

/-- The ranges that are on their way, and whose turn it is. -/
inductive Carries (ys : List Item) (q : List (Rbsr.Range Item ItemId)) : Mail → Rbsr.Turn → Prop
  | query {m} : q ≠ [] → Sent ys m q → Carries ys q (.query m) .server
  | response {m} : Sent ys m q → Carries ys q (.response m) .client
  | done : q = [] → Carries ys q .done .server

section
variable (client : Negentropy (BTreeMem cfg)) (server : Negentropy (BTreeMem cfg')) (C S : Finset Item) (events : ℕ → Event)

/-- What holds after `n` events: the objects are the two that began, on trees with the items of that moment, and the
message on its way ends an exchange. -/
structure Tracks (n : ℕ) (s : Live cfg cfg') : Prop where
  run_eq : run client server events n = .ok s
  client_role : s.client.isInitiator = true
  client_limit : s.client.frameSizeLimit = client.frameSizeLimit
  client_tree : s.client.storage.Contains (clientItems C events n)
  server_role : s.server.isInitiator = false
  server_limit : s.server.frameSizeLimit = server.frameSizeLimit
  server_tree : s.server.storage.Contains (serverItems S events n)
  mail : ∃ turn q c,
    Rbsr.Ongoing (clientList C events) (serverList S events) Item.id bot top Party.compare (client.frameSizeLimit ≠ 0)
      (server.frameSizeLimit ≠ 0) turn (written client server events n) q s.haveIds s.needIds c ∧
    Carries (turn.writer (clientList C events) (serverList S events) (written client server events n)) q s.mail turn ∧
    (client.frameSizeLimit = 0 → server.frameSizeLimit = 0 → NoCollision client server C S events n →
      ∀ x ∈ c, x.SameIds Item.id)

end

section
variable {client : Negentropy (BTreeMem cfg)} {server : Negentropy (BTreeMem cfg')} {C S : Finset Item} {events : ℕ → Event}
  (h : Between client server C S events) {n : ℕ} {s : Live cfg cfg'}
include h

/-- The first message. -/
theorem start_eq : ∃ i o, start client server = .ok
    { client := { client with isInitiator := true }.at i o, server
      mail := .query (message (render (windowFingerprint (clientList C events 0)) (client.party (clientList C events 0)).initial)) } := by
  have hpresents := h.client_built.contains.presents (h.client_card 0)
  obtain ⟨hinit, hout⟩ := Session.new_of_make h.client_new
  have hfirst := initiate_eq hpresents.toReads hinit
  rw [hout] at hfirst
  exact ⟨_, _, by rw [start, hfirst]; rfl⟩

theorem start_tracks : ∃ s : Live cfg cfg', start client server = .ok s ∧ Tracks client server C S events 0 s := by
  have hcontains := h.client_built.contains
  have hpresents := hcontains.presents (h.client_card 0)
  have htop : ∀ x ∈ (client.party (clientList C events 0)).items, x < top :=
    lt_top_of_timestamp client fun x hx => h.client_timestamps 0 x ((Finset.mem_sort _).mp hx)
  have hsplit := (client.party (clientList C events 0)).initial_split hpresents.sorted htop
  have hencode := (client.party (clientList C events 0)).initial_encodable hpresents.sorted htop hpresents.length_lt
  have hne : abstract (client.party (clientList C events 0)).elems (client.party (clientList C events 0)).initial ≠ [] := by
    intro hnil
    rw [hnil] at hsplit
    cases hsplit with
    | buckets hb => cases hb
  obtain ⟨i, o, hstart⟩ := start_eq h
  refine ⟨_, hstart, ?_⟩
  constructor
  case run_eq => exact hstart
  case client_tree => exact hcontains
  case server_role => exact (Session.new_of_make h.server_new).1
  case server_tree => exact h.server_built.contains
  case mail =>
    exact ⟨.server, _, [], .start hsplit, .query hne ⟨_, rfl, hencode, rfl⟩, fun _ _ _ x hx => absurd hx List.not_mem_nil⟩
  all_goals rfl

theorem client_presents (hs : Tracks client server C S events n s) :
    Presents s.client.storage (clientList C events n) (windowFingerprint (clientList C events n)) :=
  hs.client_tree.presents (h.client_card n)

theorem server_presents (hs : Tracks client server C S events n s) :
    Presents s.server.storage (serverList S events n) (windowFingerprint (serverList S events n)) :=
  hs.server_tree.presents (h.server_card n)

/-- The server's turn. -/
theorem serve_ok (hs : Tracks client server C S events n s) {m : Bytes} (hmail : s.mail = .query m) {ys : List Item}
    {q : List (Rbsr.Range Item ItemId)} (hm : Sent ys m q) (hq : Rbsr.Spans top bot q) :
    ∃ i o response out haveIds needIds c,
      Moves s .serve { s with server := s.server.at i o, mail := .response response } ∧
        Sent (serverList S events n) response out ∧
        Replied ⟨serverList S events n, server.frameSizeLimit, false⟩ ys q out haveIds needIds c := by
  obtain ⟨i, o, response, out, haveIds, needIds, c, hreconcile, hsent, hreplied⟩ := reconcile_sent (server_presents h hs)
    (fun x hx => h.server_timestamps n x ((Finset.mem_sort _).mp hx)) hm hq hs.server_role
  rw [Negentropy.party, hs.server_limit, hs.server_role] at hreplied
  exact ⟨i, o, response, out, haveIds, needIds, c, Moves.serve hmail hreconcile, hsent, hreplied⟩

/-- The client's turn. -/
theorem receive_ok (hs : Tracks client server C S events n s) {m : Bytes} (hmail : s.mail = .response m) {ys : List Item}
    {q : List (Rbsr.Range Item ItemId)} (hm : Sent ys m q) (hq : Rbsr.Spans top bot q) :
    ∃ i o mail out haveIds needIds c,
      Moves s .receive { client := s.client.at i o, server := s.server, mail, haveIds := s.haveIds ++ haveIds,
                         needIds := s.needIds ++ needIds } ∧
        Carries (clientList C events n) out mail .server ∧
        Replied ⟨clientList C events n, client.frameSizeLimit, true⟩ ys q out haveIds needIds c := by
  obtain ⟨i, o, next, out, haveIds, needIds, c, hreconcile, hnext, hreplied⟩ := reconcileHaveNeed_sent (client_presents h hs)
    (fun x hx => h.client_timestamps n x ((Finset.mem_sort _).mp hx)) hm hq hs.client_role
  rw [Negentropy.party, hs.client_limit, hs.client_role] at hreplied
  refine ⟨i, o, .ofMessage next, out, haveIds, needIds, c, Moves.receive hmail hreconcile, ?_, hreplied⟩
  obtain ⟨rfl, hnil⟩ | ⟨query, rfl, hne, hsent⟩ := hnext
  · exact .done hnil
  · exact .query hne hsent

/-! ### Steps -/

omit h in
/-- If no message is delivered, the one on its way stays there. -/
theorem Tracks.stays {s' : Live cfg cfg'} (hs : Tracks client server C S events n s) (hmoves : Moves s (events n) s')
    (hdelivers : s.delivers (events n) = false) (hmail : s'.mail = s.mail) (hhave : s'.haveIds = s.haveIds)
    (hneed : s'.needIds = s.needIds) (hclient : s'.client.isInitiator = true ∧ s'.client.frameSizeLimit = client.frameSizeLimit)
    (hserver : s'.server.isInitiator = false ∧ s'.server.frameSizeLimit = server.frameSizeLimit)
    (hC : s'.client.storage.Contains (clientItems C events (n + 1)))
    (hS : s'.server.storage.Contains (serverItems S events (n + 1))) : Tracks client server C S events (n + 1) s' where
  run_eq := run_succ hs.run_eq hmoves
  client_role := hclient.1
  client_limit := hclient.2
  client_tree := hC
  server_role := hserver.1
  server_limit := hserver.2
  server_tree := hS
  mail := by
    obtain ⟨turn, q, c, hongoing, hcarries, hsame⟩ := hs.mail
    rw [written_of_not_delivers hs.run_eq hdelivers, hmail, hhave, hneed]
    exact ⟨turn, q, c, hongoing, hcarries, fun hC hS hno => hsame hC hS fun j hj => hno j (hj.trans (Nat.lt_succ_self n))⟩

omit h in
/-- If nothing happens, everything stays as it is. -/
theorem Tracks.idle (hs : Tracks client server C S events n s) (he : (events n).changes = false)
    (hdelivers : s.delivers (events n) = false) (hmoves : Moves s (events n) s) : Tracks client server C S events (n + 1) s := by
  obtain ⟨hC, hS⟩ := items_unchanged (C := C) (S := S) he
  exact hs.stays hmoves hdelivers rfl rfl rfl ⟨hs.client_role, hs.client_limit⟩ ⟨hs.server_role, hs.server_limit⟩
    (hC ▸ hs.client_tree) (hS ▸ hs.server_tree)

omit h in
theorem Tracks.atClient (hs : Tracks client server C S events n s) {op : BTreeMem.Op} (he : events n = .atClient op) :
    ∃ s', Moves s (events n) s' ∧ Tracks client server C S events (n + 1) s' := by
  obtain ⟨r, t', happly, htree⟩ := hs.client_tree.apply op
  have hC : clientItems C events (n + 1) = op.after (clientItems C events n) := by simp only [clientItems, he]
  have hS : serverItems S events (n + 1) = serverItems S events n := by simp only [serverItems, he]
  have hmoves := he ▸ Moves.atClient happly
  exact ⟨_, hmoves, hs.stays hmoves (by rw [he]; rfl) rfl rfl rfl ⟨hs.client_role, hs.client_limit⟩
    ⟨hs.server_role, hs.server_limit⟩ (hC ▸ htree) (hS ▸ hs.server_tree)⟩

omit h in
theorem Tracks.atServer (hs : Tracks client server C S events n s) {op : BTreeMem.Op} (he : events n = .atServer op) :
    ∃ s', Moves s (events n) s' ∧ Tracks client server C S events (n + 1) s' := by
  obtain ⟨r, t', happly, htree⟩ := hs.server_tree.apply op
  have hC : clientItems C events (n + 1) = clientItems C events n := by simp only [clientItems, he]
  have hS : serverItems S events (n + 1) = op.after (serverItems S events n) := by simp only [serverItems, he]
  have hmoves := he ▸ Moves.atServer happly
  exact ⟨_, hmoves, hs.stays hmoves (by rw [he]; rfl) rfl rfl rfl ⟨hs.client_role, hs.client_limit⟩
    ⟨hs.server_role, hs.server_limit⟩ (hC ▸ hs.client_tree) (hS ▸ htree)⟩

theorem Tracks.serve (hs : Tracks client server C S events n s) (he : events n = .serve) :
    ∃ s', Moves s (events n) s' ∧ Tracks client server C S events (n + 1) s' := by
  have hchanges : (events n).changes = false := by rw [he]; rfl
  cases hmail : s.mail with
  | done =>
    have hmoves : Moves s (events n) s := he ▸ Moves.unserved (by simp [hmail])
    exact ⟨s, hmoves, hs.idle hchanges (by rw [he, delivers, hmail]) hmoves⟩
  | response m =>
    have hmoves : Moves s (events n) s := he ▸ Moves.unserved (by simp [hmail])
    exact ⟨s, hmoves, hs.idle hchanges (by rw [he, delivers, hmail]) hmoves⟩
  | query m =>
    obtain ⟨turn, q, c, hongoing, hcarries, hsame⟩ := hs.mail
    rw [hmail] at hcarries
    cases hcarries with
    | query _ hsent =>
      obtain ⟨i, o, response, out, haveIds, needIds, c', hmoves, hsent', hreplied⟩ := serve_ok h hs hmail hsent
        (hongoing.spans Pairing.bot_lt_top.le)
      obtain ⟨d, hreply⟩ := hreplied.reply
      rw [eq_false Bool.false_ne_true] at hreply
      obtain ⟨hC, hS⟩ := items_unchanged (C := C) (S := S) hchanges
      have hwritten := written_of_delivers hs.run_eq (he ▸ delivers_query hmail)
      rw [← he] at hmoves
      refine ⟨_, hmoves, ⟨run_succ hs.run_eq hmoves, hs.client_role, hs.client_limit, hC ▸ hs.client_tree, hs.server_role,
        hs.server_limit, hS ▸ hs.server_tree, ?_⟩⟩
      rw [hwritten]
      refine ⟨.client, out, _, hongoing.serve (written_le n) hreply, .response hsent', fun hlimC hlimS hno x hx => ?_⟩
      rcases List.mem_append.mp hx with hx | hx
      · exact hsame hlimC hlimS (fun j hj => hno j (hj.trans (Nat.lt_succ_self n))) x hx
      · exact hreplied.sameIds hsent (hongoing.truthful (not_not.mpr hlimC) (not_not.mpr hlimS))
          ((hno n (Nat.lt_succ_self n) s hs.run_eq m).1 he hmail) x hx

theorem Tracks.receive (hs : Tracks client server C S events n s) (he : events n = .receive) :
    ∃ s', Moves s (events n) s' ∧ Tracks client server C S events (n + 1) s' := by
  have hchanges : (events n).changes = false := by rw [he]; rfl
  cases hmail : s.mail with
  | done =>
    have hmoves : Moves s (events n) s := he ▸ Moves.unreceived (by simp [hmail])
    exact ⟨s, hmoves, hs.idle hchanges (by rw [he, delivers, hmail]) hmoves⟩
  | query m =>
    have hmoves : Moves s (events n) s := he ▸ Moves.unreceived (by simp [hmail])
    exact ⟨s, hmoves, hs.idle hchanges (by rw [he, delivers, hmail]) hmoves⟩
  | response m =>
    obtain ⟨turn, q, c, hongoing, hcarries, hsame⟩ := hs.mail
    rw [hmail] at hcarries
    cases hcarries with
    | response hsent =>
      obtain ⟨i, o, mail, out, haveIds, needIds, c', hmoves, hcarries', hreplied⟩ := receive_ok h hs hmail hsent
        (hongoing.spans Pairing.bot_lt_top.le)
      obtain ⟨d, hreply⟩ := hreplied.reply
      rw [eq_true (rfl : true = true)] at hreply
      obtain ⟨hC, hS⟩ := items_unchanged (C := C) (S := S) hchanges
      have hwritten := written_of_delivers hs.run_eq (he ▸ delivers_response hmail)
      rw [← he] at hmoves
      refine ⟨_, hmoves, ⟨run_succ hs.run_eq hmoves, hs.client_role, hs.client_limit, hC ▸ hs.client_tree, hs.server_role,
        hs.server_limit, hS ▸ hs.server_tree, ?_⟩⟩
      rw [hwritten]
      refine ⟨.server, out, _, hongoing.receive (written_le n) hreply, hcarries', fun hlimC hlimS hno x hx => ?_⟩
      rcases List.mem_append.mp hx with hx | hx
      · exact hsame hlimC hlimS (fun j hj => hno j (hj.trans (Nat.lt_succ_self n))) x hx
      · exact hreplied.sameIds hsent (hongoing.truthful (not_not.mpr hlimC) (not_not.mpr hlimS))
          ((hno n (Nat.lt_succ_self n) s hs.run_eq m).2 he hmail) x hx

/-- No event makes a call throw. -/
theorem Tracks.next (hs : Tracks client server C S events n s) :
    ∃ s', Moves s (events n) s' ∧ Tracks client server C S events (n + 1) s' := by
  cases he : events n with
  | atClient op => exact he ▸ hs.atClient he
  | atServer op => exact he ▸ hs.atServer he
  | serve => exact he ▸ hs.serve h he
  | receive => exact he ▸ hs.receive h he
  | idle =>
    have hmoves : Moves s (events n) s := he ▸ Moves.idle
    exact ⟨s, he ▸ hmoves, hs.idle (by rw [he]; rfl) (by rw [he]; rfl) hmoves⟩

theorem run_tracks (n : ℕ) : ∃ s, run client server events n = .ok s ∧ Tracks client server C S events n s := by
  induction n with
  | zero => exact start_tracks h
  | succ n ih =>
    obtain ⟨s, hrun, hs⟩ := ih
    obtain ⟨s', hmoves, hs'⟩ := hs.next h
    exact ⟨s', run_succ hrun hmoves, hs'⟩

end

end Live

section Example

local instance liveSha256 : Sha256 := SHA256.real

/-- The tree that these calls leave. -/
def treeOf (ops : List BTreeMem.Op) : BTreeMem BTree.Config.fuzzTest :=
  match BTreeMem.run {} ops with
  | .ok (_, t) => t
  | .error _ => {}

theorem treeOf_built (ops : List BTreeMem.Op) : (treeOf ops).Built (BTreeMem.itemsAfter ∅ ops) := by
  obtain ⟨t, _, _, hrun, -⟩ := BTreeMem.reachable BTree.Config.fuzzTest ops
  exact ⟨ops, by rw [treeOf, hrun], rfl⟩

theorem treeOf_inserts (xs : List Item) : (treeOf (xs.map .insertItem)).Built xs.toFinset := by
  have hbuilt := treeOf_built (xs.map .insertItem)
  rwa [BTreeMem.itemsAfter_inserts, Finset.empty_union] at hbuilt

/-- A client and a server with an item each, and no limit. -/
def liveClient : Negentropy (BTreeMem BTree.Config.fuzzTest) where
  storage := treeOf [.insertItem (sampleItem 1 0)]
  frameSizeLimit := 0
  limit_ok := limit_ok_none

def liveServer : Negentropy (BTreeMem BTree.Config.fuzzTest) where
  storage := treeOf [.insertItem (sampleItem 2 0)]
  frameSizeLimit := 0
  limit_ok := limit_ok_none

/-- The client gets a third item when its first message is on its way; from then on the two take turns. -/
def liveEvents : ℕ → Event
  | 0 => .atClient (.insertItem (sampleItem 3 0))
  | n + 1 => if n % 2 = 0 then .serve else .receive

theorem liveEvents_quiet {n : ℕ} (hn : 1 ≤ n) : (liveEvents n).changes = false := by
  obtain ⟨n, rfl⟩ := Nat.exists_eq_add_of_le' hn
  rw [liveEvents]
  split <;> rfl

theorem live_items (n : ℕ) :
    (clientItems {sampleItem 1 0} liveEvents n = {sampleItem 1 0} ∨
      clientItems {sampleItem 1 0} liveEvents n = {sampleItem 3 0, sampleItem 1 0}) ∧
      serverItems {sampleItem 2 0} liveEvents n = {sampleItem 2 0} := by
  rcases Nat.eq_zero_or_pos n with rfl | hn
  · exact ⟨.inl rfl, rfl⟩
  · obtain ⟨hC, hS⟩ := items_quiet (C := {sampleItem 1 0}) (S := {sampleItem 2 0}) (n := 1)
      (fun j hj => liveEvents_quiet hj) hn
    exact ⟨.inr hC, hS⟩

theorem live_between : Live.Between liveClient liveServer {sampleItem 1 0} {sampleItem 2 0} liveEvents where
  client_new := rfl
  server_new := rfl
  client_built := treeOf_built [.insertItem (sampleItem 1 0)]
  server_built := treeOf_built [.insertItem (sampleItem 2 0)]
  client_timestamps n := by
    rcases (live_items n).1 with h | h <;> rw [h] <;> decide
  server_timestamps n := by
    rw [(live_items n).2]
    decide
  client_card n := by
    rcases (live_items n).1 with h | h <;> rw [h] <;> decide
  server_card n := by
    rw [(live_items n).2]
    decide

end Example

end NE
