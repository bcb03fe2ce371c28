import Negentropy.Live.System

/-! What the client is told in a session while the sets change: differences that there were, each once, and all that
last. -/

namespace NE

open Sorted Stateful Negentropy Storage

namespace Live

variable {cfg cfg' : BTree.Config} [Sha256]

section
variable {client : Negentropy (BTreeMem cfg)} {server : Negentropy (BTreeMem cfg')} {C S : Finset Item} {events : ℕ → Event}
  (h : Between client server C S events) {n : ℕ} {s : Live cfg cfg'}
include h

omit [Sha256] h in
theorem identified (hone : OneItem C S events) (m n : ℕ) :
    Rbsr.Identified (clientList C events m) (serverList S events n) Item.id where
  nodup_left := Finset.sort_nodup _ _
  nodup_right := Finset.sort_nodup _ _
  inj x hx y hy hxy := by
    have hmem : ∀ z ∈ clientList C events m ++ serverList S events n,
        ∃ k, z ∈ clientItems C events k ∪ serverItems S events k := by
      intro z hz
      rw [List.mem_append, clientList, serverList, Finset.mem_sort, Finset.mem_sort] at hz
      rcases hz with hz | hz
      · exact ⟨m, Finset.mem_union_left _ hz⟩
      · exact ⟨n, Finset.mem_union_right _ hz⟩
    obtain ⟨i, hi⟩ := hmem x hx
    obtain ⟨j, hj⟩ := hmem y hy
    exact hone i j x hi y hj hxy

/-! ### Replies -/

/-- The message on its way after `n` events is the reply that event `m` made the server write. -/
structure Served (client : Negentropy (BTreeMem cfg)) (server : Negentropy (BTreeMem cfg')) (events : ℕ → Event) (m n : ℕ)
    (response : Bytes) : Prop where
  event : events m = .serve
  lt : m < n
  reply : ∃ s query server', run client server events m = .ok s ∧ s.mail = .query query ∧
    reconcile query s.server = .ok response server'
  waits : ∀ j, m < j → j ≤ n → ∃ s, run client server events j = .ok s ∧ s.mail = .response response

/-- Event `m'` makes the client read the reply that event `m` made the server write, and these are the ids reported. -/
structure Exchanged (client : Negentropy (BTreeMem cfg)) (server : Negentropy (BTreeMem cfg')) (events : ℕ → Event) (m m' : ℕ)
    (haveIds needIds : List ItemId) : Prop where
  event : events m' = .receive
  reads : ∃ response, Served client server events m m' response ∧ ∃ s message client',
    run client server events m' = .ok s ∧ reconcileHaveNeed response s.client = .ok (message, haveIds, needIds) client'

/-- The client reports that it has an item: it holds it at `m'`, and the server lacked it at `m`. -/
def HaveAt (client : Negentropy (BTreeMem cfg)) (server : Negentropy (BTreeMem cfg')) (C S : Finset Item) (events : ℕ → Event)
    (m m' : ℕ) (id : ItemId) : Prop :=
  ∃ haveIds needIds, Exchanged client server events m m' haveIds needIds ∧ id ∈ haveIds ∧
    ∃ p ∈ clientItems C events m', p ∉ serverItems S events m ∧ p.id = id

/-- Or that it needs one: the server held it at `m`, and the client lacks it at `m'`. -/
def NeedAt (client : Negentropy (BTreeMem cfg)) (server : Negentropy (BTreeMem cfg')) (C S : Finset Item) (events : ℕ → Event)
    (m m' : ℕ) (id : ItemId) : Prop :=
  ∃ haveIds needIds, Exchanged client server events m m' haveIds needIds ∧ id ∈ needIds ∧
    ∃ p ∈ serverItems S events m, p ∉ clientItems C events m' ∧ p.id = id

/-- A reply on its way was written when the message on its way was written. -/
theorem served {response : Bytes} (hs : Tracks client server C S events n s) (hmail : s.mail = .response response) :
    Served client server events (written client server events n) n response := by
  induction n generalizing s with
  | zero =>
    obtain ⟨s', hrun', -⟩ := start_tracks h
    obtain rfl := Except.ok.inj (hs.run_eq.symm.trans hrun')
    have hstart := hs.run_eq
    rw [run, start] at hstart
    split at hstart
    · rw [← Except.ok.inj hstart] at hmail
      cases hmail
    · cases hstart
  | succ n ih =>
    obtain ⟨s₀, hrun₀, hs₀⟩ := run_tracks h n
    obtain ⟨s', hmoves, hs'⟩ := hs₀.next h
    obtain rfl := Except.ok.inj (hs'.run_eq.symm.trans hs.run_eq)
    -- the reply was already on its way, and no message is delivered
    have hstays (hmail₀ : s₀.mail = .response response) (hdelivers : s₀.delivers (events n) = false) :
        Served client server events (written client server events (n + 1)) (n + 1) response := by
      obtain ⟨hevent, hlt, hreply, hwaits⟩ := ih hs₀ hmail₀
      rw [written_of_not_delivers hrun₀ hdelivers]
      refine ⟨hevent, hlt.trans (Nat.lt_succ_self n), hreply, fun j hj hjn => ?_⟩
      rcases Nat.le_succ_iff.mp hjn with hle | rfl
      · exact hwaits j hj hle
      · exact ⟨s', hs.run_eq, hmail⟩
    generalize he : events n = e at hmoves hstays
    cases hmoves with
    | atClient _ => exact hstays hmail rfl
    | atServer _ => exact hstays hmail rfl
    | unserved hnone => exact hstays hmail (by rw [delivers, hmail])
    | unreceived hnone => exact absurd hmail (hnone response)
    | idle => exact hstays hmail rfl
    | @receive _ message _ _ _ hresponse hreconcile =>
      cases message with
      | none => cases hmail
      | some query => cases hmail
    | @serve query _ _ hquery hreconcile =>
      obtain rfl := Mail.response.inj hmail
      rw [written_of_delivers hrun₀ (he ▸ delivers_query hquery)]
      refine ⟨he, Nat.lt_succ_self n, ⟨s₀, query, _, hrun₀, hquery, hreconcile⟩, fun j hj hjn => ?_⟩
      obtain rfl : j = n + 1 := by omega
      exact ⟨_, hs.run_eq, rfl⟩

/-- What the client reports of a reply: what it holds and the server then lacked, or the other way round. -/
theorem reports_of_receive (hone : OneItem C S events) (hs : Tracks client server C S events n s) {response : Bytes}
    (hmail : s.mail = .response response) {message : Option Bytes} {haveIds needIds : List ItemId}
    {client' : Negentropy (BTreeMem cfg)} (hreconcile : reconcileHaveNeed response s.client = .ok (message, haveIds, needIds) client') :
    (∀ id ∈ haveIds, ∃ p ∈ clientItems C events n, p ∉ serverItems S events (written client server events n) ∧ p.id = id) ∧
      ∀ id ∈ needIds, ∃ p ∈ serverItems S events (written client server events n), p ∉ clientItems C events n ∧ p.id = id := by
  obtain ⟨turn, q, c, hongoing, hcarries, -⟩ := hs.mail
  rw [hmail] at hcarries
  cases hcarries with
  | response hsent =>
    obtain ⟨i, o, next, out, hs', ns', c', hreconcile', -, hreplied⟩ := reconcileHaveNeed_sent (client_presents h hs)
      (fun x hx => h.client_timestamps n x ((Finset.mem_sort _).mp hx)) hsent (hongoing.spans Pairing.bot_lt_top.le) hs.client_role
    have heq := (EStateM.Result.ok.inj (hreconcile.symm.trans hreconcile')).1
    obtain ⟨rfl, rfl⟩ := Prod.mk.inj (Prod.mk.inj heq).2
    obtain ⟨d, hreply⟩ := hreplied.reply
    obtain ⟨hhave, hneed⟩ := hreply.reported_of (identified hone n (written client server events n)) Party.compares hongoing.listed
    simp only [clientList, serverList, Finset.mem_sort] at hhave hneed
    refine ⟨fun id hid => ?_, fun id hid => ?_⟩
    · obtain ⟨p, hp, hpid⟩ := hhave id hid
      exact ⟨p, hp.1, hp.2, hpid⟩
    · obtain ⟨p, hp, hpid⟩ := hneed id hid
      exact ⟨p, hp.1, hp.2, hpid⟩

theorem reported (hone : OneItem C S events) (n : ℕ) :
    ∃ s, run client server events n = .ok s ∧
      (∀ id ∈ s.haveIds, ∃ m m', m' < n ∧ HaveAt client server C S events m m' id) ∧
      ∀ id ∈ s.needIds, ∃ m m', m' < n ∧ NeedAt client server C S events m m' id := by
  induction n with
  | zero =>
    obtain ⟨s, hrun, -⟩ := start_tracks h
    refine ⟨s, hrun, ?_⟩
    rw [start] at hrun
    split at hrun
    · rw [← Except.ok.inj hrun]
      exact ⟨fun id hid => absurd hid List.not_mem_nil, fun id hid => absurd hid List.not_mem_nil⟩
    · cases hrun
  | succ n ih =>
    obtain ⟨s, hrun, hhave, hneed⟩ := ih
    obtain ⟨s₀, hrun₀, hs⟩ := run_tracks h n
    obtain rfl := Except.ok.inj (hrun.symm.trans hrun₀)
    obtain ⟨s', hmoves, hs'⟩ := hs.next h
    refine ⟨s', hs'.run_eq, ?_⟩
    have hlater : (∀ id ∈ s.haveIds, ∃ m m', m' < n + 1 ∧ HaveAt client server C S events m m' id) ∧
        ∀ id ∈ s.needIds, ∃ m m', m' < n + 1 ∧ NeedAt client server C S events m m' id := by
      refine ⟨fun id hid => ?_, fun id hid => ?_⟩
      · obtain ⟨m, m', hm, hat⟩ := hhave id hid
        exact ⟨m, m', hm.trans (Nat.lt_succ_self n), hat⟩
      · obtain ⟨m, m', hm, hat⟩ := hneed id hid
        exact ⟨m, m', hm.trans (Nat.lt_succ_self n), hat⟩
    generalize he : events n = e at hmoves
    cases hmoves with
    | atClient _ => exact hlater
    | atServer _ => exact hlater
    | serve _ _ => exact hlater
    | unserved _ => exact hlater
    | unreceived _ => exact hlater
    | idle => exact hlater
    | @receive response message haveIds needIds client' hmail hreconcile =>
      obtain ⟨hnewHave, hnewNeed⟩ := reports_of_receive h hone hs hmail hreconcile
      have hexchanged : Exchanged client server events (written client server events n) n haveIds needIds :=
        ⟨he, response, served h hs hmail, s, message, client', hrun, hreconcile⟩
      refine ⟨fun id hid => ?_, fun id hid => ?_⟩
      · rcases List.mem_append.mp hid with hid | hid
        · exact hlater.1 id hid
        · exact ⟨_, n, Nat.lt_succ_self n, haveIds, needIds, hexchanged, hid, hnewHave id hid⟩
      · rcases List.mem_append.mp hid with hid | hid
        · exact hlater.2 id hid
        · exact ⟨_, n, Nat.lt_succ_self n, haveIds, needIds, hexchanged, hid, hnewNeed id hid⟩

/-- Whatever the order of events, no call throws. An id is reported in reply to what the server last wrote, and it is that of an
item which the client then holds and the server lacked when it wrote, or the other way round. -/
theorem reports_differences (hone : OneItem C S events) (n : ℕ) :
    ∃ s, run client server events n = .ok s ∧
      (∀ id ∈ s.haveIds, ∃ m m', m' < n ∧ HaveAt client server C S events m m' id) ∧
      ∀ id ∈ s.needIds, ∃ m m', m' < n ∧ NeedAt client server C S events m m' id :=
  reported h hone n

/-! ### Differences that last -/

section
variable (hlimC : client.frameSizeLimit = 0) (hlimS : server.frameSizeLimit = 0) (hone : OneItem C S events)
include hlimC hlimS hone

theorem reported_once (hrun : run client server events n = .ok s) (id : ItemId) :
    s.haveIds.count id + s.needIds.count id ≤ 1 := by
  obtain ⟨s', hrun', hs⟩ := run_tracks h n
  obtain rfl := Except.ok.inj (hrun.symm.trans hrun')
  obtain ⟨turn, q, c, hongoing, -⟩ := hs.mail
  by_cases hheld : ∃ k, ∃ p ∈ clientItems C events k ∪ serverItems S events k, p.id = id
  · obtain ⟨k, p, hp, rfl⟩ := hheld
    refine (Nat.le_add_right _ _).trans (hongoing.once (identified hone) Party.compares Pairing.bot_lt_top.le
      (not_not.mpr hlimC) (not_not.mpr hlimS) fun m x hx hxp => hone m k x ?_ p hp hxp)
    simpa [clientList, serverList] using hx
  · -- an id that no item has is not reported at all
    obtain ⟨s', hrun', hhave, hneed⟩ := reported h hone n
    obtain rfl := Except.ok.inj (hrun.symm.trans hrun')
    rw [List.count_eq_zero.mpr fun hid => hheld ?_, List.count_eq_zero.mpr fun hid => hheld ?_]
    · exact Nat.zero_le _
    · obtain ⟨m, m', -, _, _, -, -, p, hp, -, hpid⟩ := hneed id hid
      exact ⟨m, p, Finset.mem_union_right _ hp, hpid⟩
    · obtain ⟨m, m', -, _, _, -, -, p, hp, -, hpid⟩ := hhave id hid
      exact ⟨m', p, Finset.mem_union_left _ hp, hpid⟩

theorem lasting_reported (hno : NoCollision client server C S events n) (hrun : run client server events n = .ok s)
    (hdone : s.mail = .done) {p : Item} (hp : (∀ m ≤ n, p ∈ clientItems C events m ∧ p ∉ serverItems S events m) ∨
      ∀ m ≤ n, p ∈ serverItems S events m ∧ p ∉ clientItems C events m) :
    p.id ∈ s.haveIds ∨ p.id ∈ s.needIds := by
  obtain ⟨s', hrun', hs⟩ := run_tracks h n
  obtain rfl := Except.ok.inj (hrun.symm.trans hrun')
  obtain ⟨turn, q, c, hongoing, hcarries, hsame⟩ := hs.mail
  have ht : written client server events n ≤ n := written_le n
  have htop : p < top := by
    refine Bound.lt_infinity (hp.elim (fun hp => ?_) fun hp => ?_)
    · exact h.client_timestamps 0 p (hp 0 (Nat.zero_le n)).1
    · exact h.server_timestamps 0 p (hp 0 (Nat.zero_le n)).1
  have hlasts : (∀ m ≤ written client server events n, p ∈ clientList C events m ∧ p ∉ serverList S events m) ∨
      ∀ m ≤ written client server events n, p ∈ serverList S events m ∧ p ∉ clientList C events m := by
    simp only [clientList, serverList, Finset.mem_sort]
    exact hp.imp (fun hp m hm => hp m (hm.trans ht)) fun hp m hm => hp m (hm.trans ht)
  have hcovered := hongoing.covered (identified hone) Party.compares Pairing.bot_lt_top.le (not_not.mpr hlimC)
    (not_not.mpr hlimS) (hsame hlimC hlimS hno) hlasts (Bound.zero_le p) htop
  rw [hdone] at hcarries
  cases hcarries with
  | done hnil =>
    rw [hnil] at hcovered
    exact hcovered.imp_right fun hp => hp.resolve_right not_false

/-- Without limits no id is reported twice. If no fingerprint that was read collides, then once the client is done every item
that one side has held throughout and the other never has been reported, on the right side. -/
theorem lasting_differences_reported (hrun : run client server events n = .ok s) :
    (∀ id, s.haveIds.count id + s.needIds.count id ≤ 1) ∧
      (NoCollision client server C S events n → s.mail = .done →
        (∀ p, (∀ m ≤ n, p ∈ clientItems C events m ∧ p ∉ serverItems S events m) → p.id ∈ s.haveIds) ∧
          ∀ p, (∀ m ≤ n, p ∈ serverItems S events m ∧ p ∉ clientItems C events m) → p.id ∈ s.needIds) := by
  obtain ⟨s', hrun', hhave, hneed⟩ := reported h hone n
  obtain rfl := Except.ok.inj (hrun.symm.trans hrun')
  refine ⟨reported_once h hlimC hlimS hone hrun, fun hno hdone => ⟨fun p hp => ?_, fun p hp => ?_⟩⟩
  · refine (lasting_reported h hlimC hlimS hone hno hrun hdone (.inl hp)).resolve_right fun hid => ?_
    obtain ⟨m, m', hm', _, _, hexchanged, -, x, hx, -, hxp⟩ := hneed p.id hid
    obtain ⟨-, response, hserved, -⟩ := hexchanged
    obtain rfl := hone m 0 x (Finset.mem_union_right _ hx) p (Finset.mem_union_left _ (hp 0 (Nat.zero_le n)).1) hxp
    exact (hp m (hserved.lt.trans hm').le).2 hx
  · refine (lasting_reported h hlimC hlimS hone hno hrun hdone (.inr hp)).resolve_left fun hid => ?_
    obtain ⟨m, m', hm', _, _, -, -, x, hx, -, hxp⟩ := hhave p.id hid
    obtain rfl := hone m' 0 x (Finset.mem_union_left _ hx) p (Finset.mem_union_right _ (hp 0 (Nat.zero_le n)).1) hxp
    exact (hp m' hm'.le).2 hx

end

end

end Live

section Example

local instance reportsSha256 : Sha256 := SHA256.real

/-- The objects over trees of the two samples. -/
def treeClient : Negentropy (BTreeMem BTree.Config.fuzzTest) where
  storage := treeOf (clientSample.map .insertItem)
  frameSizeLimit := 0
  limit_ok := limit_ok_none

def treeServer : Negentropy (BTreeMem BTree.Config.fuzzTest) where
  storage := treeOf (serverSample.map .insertItem)
  frameSizeLimit := 0
  limit_ok := limit_ok_none

/-- What the client holds without the item at 5. -/
def erasedSample : List Item := clientSample.filter (· ≠ sampleItem 5 0)

/-- The client's item at 5 is erased when its first message is on its way; from then on the two take turns. -/
def manyEvents : ℕ → Event
  | 0 => .atClient (.eraseItem (sampleItem 5 0))
  | n + 1 => if n % 2 = 0 then .serve else .receive

theorem manyEvents_quiet {n : ℕ} (hn : 1 ≤ n) : (manyEvents n).changes = false := by
  obtain ⟨n, rfl⟩ := Nat.exists_eq_add_of_le' hn
  rw [manyEvents]
  split <;> rfl

/-- The two lists after so many events. -/
theorem many_lists (n : ℕ) :
    Live.clientList clientSample.toFinset manyEvents n =
      (if n = 0 then clientSample else erasedSample) ∧
    Live.serverList serverSample.toFinset manyEvents n = serverSample := by
  have hfirst : Live.clientList clientSample.toFinset manyEvents 1 = erasedSample := by
    refine sort_eq (sample_sorted.1.sublist List.filter_sublist) ?_
    ext x
    simp [erasedSample, clientItems, manyEvents, BTreeMem.Op.after, and_comm]
  rcases Nat.eq_zero_or_pos n with rfl | hn
  · exact ⟨sort_eq sample_sorted.1 rfl, sort_eq sample_sorted.2 rfl⟩
  · obtain ⟨hC, hS⟩ := items_quiet (C := clientSample.toFinset) (S := serverSample.toFinset) (n := 1)
      (fun j hj => manyEvents_quiet hj) hn
    rw [if_neg hn.ne']
    exact ⟨(congrArg (Finset.sort · _) hC).trans hfirst, (congrArg (Finset.sort · _) hS).trans (sort_eq sample_sorted.2 rfl)⟩

theorem many_mem {n : ℕ} {x : Item} :
    (x ∈ clientItems clientSample.toFinset manyEvents n → x ∈ clientSample) ∧
      (x ∈ serverItems serverSample.toFinset manyEvents n → x ∈ serverSample) := by
  obtain ⟨hC, hS⟩ := many_lists n
  rw [← Finset.mem_sort (· ≤ ·), ← Finset.mem_sort (· ≤ ·)]
  change (x ∈ Live.clientList _ _ _ → _) ∧ (x ∈ Live.serverList _ _ _ → _)
  rw [hC, hS]
  refine ⟨fun hx => ?_, id⟩
  split at hx
  · exact hx
  · exact List.mem_of_mem_filter hx

theorem many_card (n : ℕ) : (clientItems clientSample.toFinset manyEvents n).card < 2 ^ 64 ∧
    (serverItems serverSample.toFinset manyEvents n).card < 2 ^ 64 := by
  refine ⟨?_, ?_⟩
  · refine (Finset.card_le_card fun x hx => List.mem_toFinset.mpr (many_mem.1 hx)).trans_lt ?_
    exact clientSample.toFinset_card_le.trans_lt (sample_length.1.trans_lt (by decide))
  · refine (Finset.card_le_card fun x hx => List.mem_toFinset.mpr (many_mem.2 hx)).trans_lt ?_
    exact serverSample.toFinset_card_le.trans_lt (sample_length.2.trans_lt (by decide))

theorem many_live_between : Live.Between treeClient treeServer clientSample.toFinset serverSample.toFinset manyEvents where
  client_new := rfl
  server_new := rfl
  client_built := treeOf_inserts _
  server_built := treeOf_inserts _
  client_timestamps _ x hx := sample_timestamps.1 x (many_mem.1 hx)
  server_timestamps _ x hx := sample_timestamps.2 x (many_mem.2 hx)
  client_card n := (many_card n).1
  server_card n := (many_card n).2

theorem many_oneItem : Live.OneItem clientSample.toFinset serverSample.toFinset manyEvents := by
  have hsmall : ∀ n, ∀ x ∈ clientItems clientSample.toFinset manyEvents n ∪ serverItems serverSample.toFinset manyEvents n,
      SmallTimestamp x := by
    intro n x hx
    rcases Finset.mem_union.mp hx with hx | hx
    · exact sample_small.1 x (many_mem.1 hx)
    · exact sample_small.2 x (many_mem.2 hx)
  intro m n x hx y hy hid
  refine Item.ext ?_ hid
  rw [hsmall m x hx, hsmall n y hy, hid]

/-- The first message: the client's buckets, before the item at 5 is erased. -/
@[irreducible] def manyFirst : List (Range Window) := (treeClient.party clientSample).initial

/-- The server, and the client when it reads the reply. -/
def manyParty : Party := ⟨serverSample, 0, false⟩
def erasedParty : Party := ⟨erasedSample, 0, true⟩

/-- The server's reply to it. -/
@[irreducible] def manyReply : List (Range Window) := (manyParty.reply (manyParty.sameAs clientSample) manyFirst).out

theorem many_top : (∀ x ∈ clientSample, x < top) ∧ ∀ x ∈ serverSample, x < top :=
  ⟨fun x hx => Bound.lt_infinity (sample_timestamps.1 x hx), fun x hx => Bound.lt_infinity (sample_timestamps.2 x hx)⟩

theorem manyFirst_eq : (treeClient.party clientSample).initial = manyFirst := by rw [manyFirst]

theorem manyReply_eq : (manyParty.reply (manyParty.sameAs clientSample) manyFirst).out = manyReply := by rw [manyReply]

theorem manyFirst_ascending : Rbsr.Ascending bot (abstract (fun w => slice clientSample w.begin_ w.end_) manyFirst) := by
  have hsplit := (treeClient.party clientSample).initial_split sample_sorted.1 many_top.1
  rw [manyFirst_eq] at hsplit
  exact (hsplit.spans Pairing.bot_lt_top.le le_rfl).ascending

theorem manyFirst_encodable : Encodable 0 manyFirst := by
  have hencode := (treeClient.party clientSample).initial_encodable sample_sorted.1 many_top.1 (sample_length.1.trans_lt (by decide))
  rwa [manyFirst_eq] at hencode

/-- The two messages are compared without a collision, and the client has nothing to say to the second. -/
theorem many_tellsApart :
    (TellsApart clientSample serverSample bot (render (windowFingerprint clientSample) manyFirst) ∧
      TellsApart serverSample erasedSample bot (render (windowFingerprint serverSample) manyReply)) ∧
    (render (windowFingerprint serverSample) manyReply).Pairwise (fun r r' => r.bound.item ≤ r'.bound.item) ∧
      (erasedParty.reply (sameFp (windowFingerprint erasedSample)) (render (windowFingerprint serverSample) manyReply)).out = [] := by
  decide +kernel

/-- The message on its way after the first event, and after the second. -/
theorem many_mails : ∃ s s', Live.run treeClient treeServer manyEvents 1 = .ok s ∧ Live.run treeClient treeServer manyEvents 2 = .ok s' ∧
    s.mail = .query (message (render (windowFingerprint clientSample) manyFirst)) ∧
    s'.mail = .response (message (render (windowFingerprint serverSample) manyReply)) ∧ Encodable 0 manyReply := by
  obtain ⟨i, o, hstart⟩ := Live.start_eq many_live_between
  obtain ⟨s₀, hrun₀, hs₀⟩ := Live.run_tracks many_live_between 0
  obtain ⟨s, hmoves, hs⟩ := hs₀.next many_live_between
  rw [(many_lists 0).1, if_pos (Eq.refl 0), manyFirst_eq] at hstart
  have hmail₀ := congrArg Live.mail (Except.ok.inj (hrun₀.symm.trans hstart))
  have hmail : s.mail = s₀.mail := by
    cases hmoves with
    | atClient _ => rfl
  rw [hmail₀] at hmail
  have hpresents := Live.server_presents many_live_between hs
  rw [(many_lists 1).2] at hpresents
  obtain ⟨j, k, hreconcile⟩ := reconcile_windows hpresents hs.server_role manyFirst_encodable manyFirst_ascending
  have hencode := (s.server.party serverSample).reply_encodable s.server.limit_ok hpresents.sorted many_top.2
    hpresents.length_lt ((s.server.party serverSample).sameAs clientSample)
    (List.pairwise_cons.mp (sorted_of_ascending manyFirst_ascending)).2
  have hparty : s.server.party serverSample = manyParty := by
    rw [Negentropy.party, hs.server_limit, hs.server_role]
    rfl
  rw [hparty, manyReply_eq] at hreconcile hencode
  exact ⟨s, _, hs.run_eq, Live.run_succ hs.run_eq (.serve hmail hreconcile), hmail, rfl, hencode⟩

theorem many_noCollision : Live.NoCollision treeClient treeServer clientSample.toFinset serverSample.toFinset manyEvents 3 := by
  obtain ⟨s₁, s₂, hrun₁, hrun₂, hmail₁, hmail₂, hencode⟩ := many_mails
  obtain ⟨s₀, hrun₀, -⟩ := Live.run_tracks many_live_between 0
  have hwritten₁ : Live.written treeClient treeServer manyEvents 1 = 0 := Live.written_of_not_delivers hrun₀ rfl
  have hwritten₂ : Live.written treeClient treeServer manyEvents 2 = 1 :=
    Live.written_of_delivers hrun₁ (Live.delivers_query hmail₁)
  intro j hj s hrun m
  refine ⟨fun he hmail => ?_, fun he hmail => ?_⟩
  · obtain rfl : j = 1 := by
      interval_cases j
      · cases he
      · rfl
      · cases he
    obtain rfl := Except.ok.inj (hrun₁.symm.trans hrun)
    obtain rfl := Mail.query.inj (hmail₁.symm.trans hmail)
    rw [hwritten₁, (many_lists 0).1, (many_lists 1).2, readMessage_message (manyFirst_encodable.render (windowFingerprint clientSample))]
    exact many_tellsApart.1.1
  · obtain rfl : j = 2 := by
      interval_cases j
      · cases he
      · cases he
      · rfl
    obtain rfl := Except.ok.inj (hrun₂.symm.trans hrun)
    obtain rfl := Mail.response.inj (hmail₂.symm.trans hmail)
    rw [hwritten₂, (many_lists 1).2, (many_lists 2).1, if_neg (show ¬ 2 = 0 by decide),
      readMessage_message (hencode.render (windowFingerprint serverSample))]
    exact many_tellsApart.1.2

/-- The client is done when it has read the reply. -/
theorem many_done : ∃ s, Live.run treeClient treeServer manyEvents 3 = .ok s ∧ s.mail = .done := by
  obtain ⟨-, s, -, hrun, -, hmail, hencode⟩ := many_mails
  obtain ⟨s', hrun', hs⟩ := Live.run_tracks many_live_between 2
  obtain rfl := Except.ok.inj (hrun.symm.trans hrun')
  obtain ⟨-, hsorted, hout⟩ := many_tellsApart
  have hpresents := Live.client_presents many_live_between hs
  rw [(many_lists 2).1, if_neg (show ¬ 2 = 0 by decide)] at hpresents
  obtain ⟨i, o, hreconcile⟩ := reconcileHaveNeed_message hpresents hs.client_role
    (hencode.render (windowFingerprint serverSample)) (List.pairwise_map.mpr hsorted)
  have hparty : s.client.party erasedSample = erasedParty := by
    rw [Negentropy.party, hs.client_limit, hs.client_role]
    rfl
  rw [hparty] at hreconcile
  rw [if_pos hout] at hreconcile
  exact ⟨_, Live.run_succ hrun (.receive hmail hreconcile), rfl⟩

theorem reports_differences_many : ∃ s, Live.run treeClient treeServer manyEvents 3 = .ok s ∧
    (∀ id ∈ s.haveIds, ∃ m m', m' < 3 ∧
      Live.HaveAt treeClient treeServer clientSample.toFinset serverSample.toFinset manyEvents m m' id) ∧
    ∀ id ∈ s.needIds, ∃ m m', m' < 3 ∧
      Live.NeedAt treeClient treeServer clientSample.toFinset serverSample.toFinset manyEvents m m' id :=
  Live.reports_differences many_live_between many_oneItem 3

/-- The items at 7 and 34 are reported; that at 5, which is erased in between, need not be. -/
theorem lasting_differences_reported_many : ∃ s, Live.run treeClient treeServer manyEvents 3 = .ok s ∧
    (∀ id, s.haveIds.count id + s.needIds.count id ≤ 1) ∧
      (sampleItem 7 0).id ∈ s.haveIds ∧ (sampleItem 34 0).id ∈ s.needIds := by
  obtain ⟨s, hrun, hmail⟩ := many_done
  obtain ⟨hcount, hdone⟩ := Live.lasting_differences_reported many_live_between rfl rfl many_oneItem hrun
  refine ⟨s, hrun, hcount, ?_⟩
  obtain ⟨hhave, hneed⟩ := hdone many_noCollision hmail
  have hlists (m : ℕ) (x : Item) : (x ∈ clientItems clientSample.toFinset manyEvents m ↔
      x ∈ if m = 0 then clientSample else erasedSample) ∧
      (x ∈ serverItems serverSample.toFinset manyEvents m ↔ x ∈ serverSample) := by
    obtain ⟨hC, hS⟩ := many_lists m
    rw [← hC]
    refine ⟨(Finset.mem_sort _).symm, (Finset.mem_sort (· ≤ ·)).symm.trans ?_⟩
    exact iff_of_eq (congrArg (x ∈ ·) hS)
  refine ⟨hhave _ fun m _ => ?_, hneed _ fun m _ => ?_⟩
  · rw [(hlists m _).1, (hlists m _).2]
    split <;> decide +kernel
  · rw [(hlists m _).1, (hlists m _).2]
    split <;> decide +kernel

end Example

end NE
