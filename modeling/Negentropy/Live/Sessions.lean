import Negentropy.Live.System

/-! One server object in sessions with many clients at once: the messages come in any order, and the server's tree changes
all the while. Each session is what it would be if the server had no other client. -/

namespace NE

open Sorted Stateful Negentropy Storage

/-- The client's side of a session. -/
structure Conversation (cfg : BTree.Config) where
  client : Negentropy (BTreeMem cfg)
  mail : Mail
  haveIds : List ItemId := []
  needIds : List ItemId := []

/-- The server, and one conversation for each client. -/
structure Hub (ι : Type) (cfg cfg' : BTree.Config) where
  server : Negentropy (BTreeMem cfg')
  conversations : ι → Conversation cfg

/-- What an event of another session is to this one: the server's tree is the same. -/
def Event.elsewhere : Event → Event
  | .atServer op => .atServer op
  | _ => .idle

variable {ι : Type} [DecidableEq ι] {cfg cfg' : BTree.Config}

/-- The events as one of the clients sees them. -/
def seenBy (events : ℕ → ι × Event) (i : ι) (n : ℕ) : Event :=
  if (events n).1 = i then (events n).2 else (events n).2.elsewhere

namespace Hub

/-- The session with one of the clients. -/
def session (h : Hub ι cfg cfg') (i : ι) : Live cfg cfg' where
  client := (h.conversations i).client
  server := h.server
  mail := (h.conversations i).mail
  haveIds := (h.conversations i).haveIds
  needIds := (h.conversations i).needIds

def setSession (h : Hub ι cfg cfg') (i : ι) (s : Live cfg cfg') : Hub ι cfg cfg' where
  server := s.server
  conversations := Function.update h.conversations i
    { client := s.client, mail := s.mail, haveIds := s.haveIds, needIds := s.needIds }

variable [Sha256]

def step (h : Hub ι cfg cfg') (e : ι × Event) : Except Err (Hub ι cfg cfg') := do
  return h.setSession e.1 (← (h.session e.1).step e.2)

/-- The hub after so many of the events. -/
def run (h : Hub ι cfg cfg') (events : ℕ → ι × Event) : ℕ → Except Err (Hub ι cfg cfg')
  | 0 => .ok h
  | n + 1 => run h events n >>= fun h => h.step (events n)

omit [Sha256] in
theorem session_setSession (h : Hub ι cfg cfg') (i : ι) (s : Live cfg cfg') : (h.setSession i s).session i = s := by
  simp [session, setSession]

omit [Sha256] in
theorem session_setSession_other (h : Hub ι cfg cfg') {i j : ι} (hij : j ≠ i) (s : Live cfg cfg') :
    (h.setSession i s).session j = { h.session j with server := s.server } := by
  simp [session, setSession, hij]

end Hub

namespace Live

variable [Sha256]

/-- The session with the server's two timestamps replaced. -/
def serverAt (s : Live cfg cfg') (i o : UInt64) : Live cfg cfg' := { s with server := s.server.at i o }

omit [DecidableEq ι] [Sha256] in
/-- A server's reply does not depend on what it has read and written before. -/
theorem reconcile_at {σ : Type} [StorageBase σ] {ne : Negentropy σ} (hinit : ne.isInitiator = false) (m : Bytes) (i o : UInt64) :
    reconcile m (ne.at i o) = reconcile m ne := by
  have hget : (get : Method σ (Negentropy σ)) ne = .ok ne ne := rfl
  have hget' : (get : Method σ (Negentropy σ)) (ne.at i o) = .ok (ne.at i o) (ne.at i o) := rfl
  have hinit' : (ne.at i o).isInitiator = false := hinit
  have haux : reconcileAux m (ne.at i o) = reconcileAux m ne := rfl
  rw [reconcile, bind_of_ok hget, bind_of_ok hget', hinit, hinit', if_neg Bool.false_ne_true]
  simp only [bind, EStateM.bind, haux]

/-- The server's two timestamps make no difference to a session. -/
theorem Moves.serverAt {s s' : Live cfg cfg'} {e : Event} (hrole : s.server.isInitiator = false) (h : Moves s e s') (i o : UInt64) :
    ∃ i' o', Moves (s.serverAt i o) e (s'.serverAt i' o') := by
  cases h with
  | atClient happly => exact ⟨i, o, .atClient (s := s.serverAt i o) happly⟩
  | atServer happly => exact ⟨i, o, .atServer (s := s.serverAt i o) happly⟩
  | @serve m response server hmail hreconcile =>
    rw [← reconcile_at hrole m i o] at hreconcile
    exact ⟨server.lastTimestampIn, server.lastTimestampOut, .serve (s := s.serverAt i o) hmail hreconcile⟩
  | unserved hmail => exact ⟨i, o, .unserved hmail⟩
  | receive hmail hreconcile => exact ⟨i, o, .receive (s := s.serverAt i o) hmail hreconcile⟩
  | unreceived hmail => exact ⟨i, o, .unreceived hmail⟩
  | idle => exact ⟨i, o, .idle⟩

section
variable {client : Negentropy (BTreeMem cfg)} {server : Negentropy (BTreeMem cfg')} {C S : Finset Item} {events : ℕ → Event}
  {n : ℕ} {s s' : Live cfg cfg'}

/-- What an event leaves of the server: its tree is changed, or its timestamps. -/
theorem Moves.server_eq (h : Between client server C S events) (hs : Tracks client server C S events n s) {e : Event}
    (hmoves : Moves s e s') :
    (∃ op r storage, e = .atServer op ∧ s.server.storage.apply op = .ok (r, storage) ∧ s'.server = { s.server with storage }) ∨
      e.elsewhere = .idle ∧ ∃ i o, s'.server = s.server.at i o := by
  have hself : ∃ i o, s.server = s.server.at i o := ⟨s.server.lastTimestampIn, s.server.lastTimestampOut, rfl⟩
  cases hmoves with
  | atClient _ => exact .inr ⟨rfl, hself⟩
  | atServer happly => exact .inl ⟨_, _, _, rfl, happly, rfl⟩
  | unserved _ => exact .inr ⟨rfl, hself⟩
  | receive _ _ => exact .inr ⟨rfl, hself⟩
  | unreceived _ => exact .inr ⟨rfl, hself⟩
  | idle => exact .inr ⟨rfl, hself⟩
  | serve hmail hreconcile =>
    obtain ⟨turn, q, c, hongoing, hcarries, -⟩ := hs.mail
    rw [hmail] at hcarries
    cases hcarries with
    | query _ hsent =>
      obtain ⟨i, o, _, _, _, _, _, hmoves', -⟩ := serve_ok h hs hmail hsent (hongoing.spans Pairing.bot_lt_top.le)
      have heq := hmoves'.step_eq.symm.trans (Moves.serve hmail hreconcile).step_eq
      exact .inr ⟨rfl, i, o, (congrArg Live.server (Except.ok.inj heq)).symm⟩

end

end Live

namespace Hub

variable [Sha256] {server : Negentropy (BTreeMem cfg')} {clients : ι → Negentropy (BTreeMem cfg)} {C : ι → Finset Item}
  {S : Finset Item} {events : ℕ → ι × Event}

/-- Every session is that of the client alone, up to the server's timestamps. -/
def Apart (server : Negentropy (BTreeMem cfg')) (clients : ι → Negentropy (BTreeMem cfg)) (events : ℕ → ι × Event) (n : ℕ)
    (h : Hub ι cfg cfg') : Prop :=
  ∀ i, ∃ s a b, Live.run (clients i) server (seenBy events i) n = .ok s ∧ h.session i = s.serverAt a b

theorem Apart.next (hbetween : ∀ i, Live.Between (clients i) server (C i) S (seenBy events i)) {n : ℕ} {h : Hub ι cfg cfg'}
    (hapart : Apart server clients events n h) : ∃ h', h.step (events n) = .ok h' ∧ Apart server clients events (n + 1) h' := by
  have htracks : ∀ i s, Live.run (clients i) server (seenBy events i) n = .ok s →
      Live.Tracks (clients i) server (C i) S (seenBy events i) n s := by
    intro i s hrun
    obtain ⟨s', hrun', hs⟩ := Live.run_tracks (hbetween i) n
    rwa [Except.ok.inj (hrun.symm.trans hrun')]
  have hsucc : ∀ {i s s'}, Live.run (clients i) server (seenBy events i) n = .ok s →
      Live.Moves s (seenBy events i n) s' → Live.run (clients i) server (seenBy events i) (n + 1) = .ok s' := by
    intro i s s' hrun hmoves
    rw [Live.run, hrun]
    exact hmoves.step_eq
  -- the session in which it happens
  obtain ⟨s, a, b, hrun, hsession⟩ := hapart (events n).1
  have hs := htracks _ s hrun
  obtain ⟨s', hmoves, -⟩ := hs.next (hbetween _)
  have hseen : seenBy events (events n).1 n = (events n).2 := if_pos rfl
  rw [hseen] at hmoves
  obtain ⟨a', b', hat⟩ := hmoves.serverAt hs.server_role a b
  rw [← hsession] at hat
  refine ⟨h.setSession (events n).1 (s'.serverAt a' b'), ?_, fun i => ?_⟩
  · rw [step, hat.step_eq]
    rfl
  by_cases hi : i = (events n).1
  · subst hi
    exact ⟨s', a', b', hsucc hrun (by rwa [hseen]), session_setSession _ _ _⟩
  · -- another session: the server's tree is the same
    obtain ⟨s₁, a₁, b₁, hrun₁, hsession₁⟩ := hapart i
    have hother : seenBy events i n = (events n).2.elsewhere := if_neg (Ne.symm hi)
    have hserver : s.server.at a b = s₁.server.at a₁ b₁ :=
      (congrArg Live.server hsession).symm.trans (congrArg Live.server hsession₁)
    rw [session_setSession_other _ hi, hsession₁]
    obtain ⟨op, r, storage, he, happly, heq⟩ | ⟨he, x, y, heq⟩ := hmoves.server_eq (hbetween _) hs
    · have hstorage : (s.server.at a b).storage = (s₁.server.at a₁ b₁).storage := congrArg Negentropy.storage hserver
      have hafter : (s'.serverAt a' b').server = ({ s₁.server with storage } : Negentropy _).at a' b' := by
        rw [Live.serverAt, heq]
        have hcongr := congrArg (fun ne : Negentropy _ => ({ ne with storage } : Negentropy _).at a' b') hserver
        exact hcongr
      refine ⟨{ s₁ with server := { s₁.server with storage } }, a', b', hsucc hrun₁ ?_, by rw [hafter]; rfl⟩
      rw [hother, he]
      exact .atServer (hstorage ▸ happly)
    · have hafter : (s'.serverAt a' b').server = s₁.server.at a' b' := by
        rw [Live.serverAt, heq]
        have hcongr := congrArg (fun ne : Negentropy _ => ne.at a' b') hserver
        exact hcongr
      refine ⟨s₁, a', b', hsucc hrun₁ ?_, by rw [hafter]; rfl⟩
      rw [hother, he]
      exact .idle

/-- However the sessions are interleaved, none of them fails, and each is the one that its client would have had alone with
the server. -/
theorem sessions_apart {h₀ : Hub ι cfg cfg'} (hstart : ∀ i, Live.start (clients i) server = .ok (h₀.session i))
    (hbetween : ∀ i, Live.Between (clients i) server (C i) S (seenBy events i)) (n : ℕ) :
    ∃ h, run h₀ events n = .ok h ∧ ∀ i, ∃ s a b, Live.run (clients i) server (seenBy events i) n = .ok s ∧
      h.session i = { s with server := s.server.at a b } := by
  induction n with
  | zero => exact ⟨h₀, rfl, fun i => ⟨h₀.session i, _, _, hstart i, rfl⟩⟩
  | succ n ih =>
    obtain ⟨h, hrun, hapart⟩ := ih
    obtain ⟨h', hstep, hapart'⟩ := Apart.next hbetween hapart
    exact ⟨h', by rw [run, hrun]; exact hstep, hapart'⟩

end Hub

section Example

local instance sessionsSha256 : Sha256 := SHA256.real

/-- Two clients take turns. -/
def twoEvents (n : ℕ) : Bool × Event := (n % 2 = 0, if n % 4 < 2 then .serve else .receive)

theorem twoEvents_quiet (i : Bool) (n : ℕ) : (seenBy twoEvents i n).changes = false := by
  rw [seenBy, twoEvents]
  split <;> split <;> rfl

theorem two_live_between (i : Bool) : Live.Between liveClient liveServer {sampleItem 1 0} {sampleItem 2 0} (seenBy twoEvents i) := by
  have hquiet : ∀ j ≥ 0, (seenBy twoEvents i j).changes = false := fun j _ => twoEvents_quiet i j
  have hC : ∀ n, clientItems {sampleItem 1 0} (seenBy twoEvents i) n = {sampleItem 1 0} := fun n =>
    (items_quiet (S := {sampleItem 2 0}) hquiet (Nat.zero_le n)).1
  have hS : ∀ n, serverItems {sampleItem 2 0} (seenBy twoEvents i) n = {sampleItem 2 0} := fun n =>
    (items_quiet (C := {sampleItem 1 0}) hquiet (Nat.zero_le n)).2
  constructor
  case client_new => rfl
  case server_new => rfl
  case client_built => exact treeOf_built [.insertItem (sampleItem 1 0)]
  case server_built => exact treeOf_built [.insertItem (sampleItem 2 0)]
  case client_timestamps =>
    intro n
    rw [hC n]
    decide
  case server_timestamps =>
    intro n
    rw [hS n]
    decide
  case client_card =>
    intro n
    rw [hC n]
    decide
  case server_card =>
    intro n
    rw [hS n]
    decide

theorem sessions_apart_two : ∃ h₀ h, Hub.run h₀ twoEvents 8 = .ok h ∧
    ∀ i, ∃ s a b, Live.run liveClient liveServer (seenBy twoEvents i) 8 = .ok s ∧
      h.session i = { s with server := s.server.at a b } := by
  obtain ⟨s, hstart, -⟩ := Live.start_tracks (two_live_between true)
  have hserver : s.server = liveServer := by
    rw [Live.start] at hstart
    split at hstart
    · cases hstart
      rfl
    · cases hstart
  have hstarts : ∀ i : Bool, Live.start liveClient liveServer =
      .ok ((⟨liveServer, fun _ => ⟨s.client, s.mail, s.haveIds, s.needIds⟩⟩ : Hub Bool _ _).session i) := fun i =>
    hstart.trans (congrArg Except.ok (by rw [Hub.session, ← hserver]))
  obtain ⟨h, hrun, h'⟩ := Hub.sessions_apart hstarts two_live_between 8
  exact ⟨_, h, hrun, h'⟩

end Example

end NE
