import Negentropy.Lib.Runs
import Negentropy.Live.System

/-! A session comes to its end once the sets no longer change. -/

namespace NE

open Sorted Stateful Negentropy Storage

namespace Live

variable {cfg cfg' : BTree.Config} [Sha256]

section
variable {client : Negentropy (BTreeMem cfg)} {server : Negentropy (BTreeMem cfg')} {C S : Finset Item} {events : ℕ → Event}
  (h : Between client server C S events) {n : ℕ} {s : Live cfg cfg'}
include h

/-- After `k` more deliveries at most the client is done, if the sets stay as they are after `n` events. -/
def Settling (C S : Finset Item) (events : ℕ → Event) (n k : ℕ) (s : Live cfg cfg') : Prop :=
  ∃ turn ys q, Carries ys q s.mail turn ∧ Rbsr.Spans top bot q ∧
    Rbsr.Soon (clientList C events n) (serverList S events n) Item.id buckets 31 bot k turn q

omit h in
theorem Tracks.settling (hs : Tracks client server C S events n s) {r : ℕ}
    (hr : min (clientItems C events n).card (serverItems S events n).card ≤ 31 * 16 ^ r) :
    ∃ k ≤ 2 * r + 4, Settling C S events n k s := by
  obtain ⟨turn, q, c, hongoing, hcarries, -⟩ := hs.mail
  rw [← Finset.length_sort (· ≤ ·), ← Finset.length_sort (· ≤ ·)] at hr
  obtain ⟨k, hk, hsoon⟩ : ∃ k ≤ 2 * r + 4, Rbsr.Soon (clientList C events n) (serverList S events n) Item.id buckets 31 bot k turn q :=
    Rbsr.soon_of_length hr turn q
  exact ⟨k, hk, turn, _, q, hcarries, hongoing.spans Pairing.bot_lt_top.le, hsoon⟩

omit h in
theorem run_idle {j : ℕ} (hrun : run client server events j = .ok s) (i : ℕ)
    (hidle : ∀ i' < i, s.step (events (j + i')) = .ok s) : run client server events (j + i) = .ok s := by
  induction i with
  | zero => exact hrun
  | succ i ih =>
    rw [← Nat.add_assoc, run, ih fun i' hi' => hidle i' (hi'.trans (Nat.lt_succ_self i))]
    exact hidle i (Nat.lt_succ_self i)

section
variable (hlimC : client.frameSizeLimit = 0) (hlimS : server.frameSizeLimit = 0)
  (hquiet : ∀ j ≥ n, (events j).changes = false)
include hlimC hlimS hquiet

omit hlimC in
/-- A delivery to the server. -/
theorem serve_settling {j k : ℕ} (hj : n ≤ j) (hs : Tracks client server C S events j s) {m : Bytes} (hmail : s.mail = .query m)
    (hsettling : Settling C S events n (k + 1) s) : ∃ s', Moves s .serve s' ∧ Settling C S events n k s' := by
  obtain ⟨turn, ys, q, hcarries, hspans, hsoon⟩ := hsettling
  rw [hmail] at hcarries
  cases hcarries with
  | query hne hsent =>
    obtain ⟨i, o, response, out, haveIds, needIds, c, hmoves, hsent', hreplied⟩ := serve_ok h hs hmail hsent hspans
    obtain ⟨d, hreply⟩ := hreplied.reply
    have hwhole := hreplied.whole hlimS
    rw [eq_false Bool.false_ne_true] at hwhole
    have hitems : serverList S events j = serverList S events n := congrArg (Finset.sort · _) (items_quiet hquiet hj (C := C)).2
    rw [hitems] at hwhole
    exact ⟨_, hmoves, .client, _, out, .response hsent', hreply.spans hspans le_rfl Pairing.bot_lt_top.le,
      hsoon.resolve_left hne out hwhole⟩

omit hlimS in
/-- A delivery to the client. -/
theorem receive_settling {j k : ℕ} (hj : n ≤ j) (hs : Tracks client server C S events j s) {m : Bytes}
    (hmail : s.mail = .response m) (hsettling : Settling C S events n (k + 1) s) :
    ∃ s', Moves s .receive s' ∧ Settling C S events n k s' := by
  obtain ⟨turn, ys, q, hcarries, hspans, hsoon⟩ := hsettling
  rw [hmail] at hcarries
  cases hcarries with
  | response hsent =>
    obtain ⟨i, o, mail, out, haveIds, needIds, c, hmoves, hcarries', hreplied⟩ := receive_ok h hs hmail hsent hspans
    obtain ⟨d, hreply⟩ := hreplied.reply
    have hwhole := hreplied.whole hlimC
    rw [eq_true (rfl : true = true)] at hwhole
    have hitems : clientList C events j = clientList C events n := congrArg (Finset.sort · _) (items_quiet hquiet hj (S := S)).1
    rw [hitems] at hwhole
    exact ⟨_, hmoves, .server, _, out, hcarries', hreply.spans hspans le_rfl Pairing.bot_lt_top.le, hsoon out hwhole⟩

omit h hlimC hlimS hquiet in
theorem step_of_query {m : Bytes} (hmail : s.mail = .query m) {e : Event} (he : e.changes = false) (hne : e ≠ .serve) :
    s.step e = .ok s := by
  obtain rfl | rfl | rfl := Event.cases_of_not_changes he
  · exact absurd rfl hne
  · exact (Moves.unreceived (by simp [hmail])).step_eq
  · exact Moves.idle.step_eq

omit h hlimC hlimS hquiet in
theorem step_of_response {m : Bytes} (hmail : s.mail = .response m) {e : Event} (he : e.changes = false) (hne : e ≠ .receive) :
    s.step e = .ok s := by
  obtain rfl | rfl | rfl := Event.cases_of_not_changes he
  · exact (Moves.unserved (by simp [hmail])).step_eq
  · exact absurd rfl hne
  · exact Moves.idle.step_eq

omit h hlimC hlimS in
/-- A client that is done stays so. -/
theorem done_stays {j : ℕ} (hj : n ≤ j) (hrun : run client server events j = .ok s) (hdone : s.mail = .done) {j' : ℕ}
    (hj' : j ≤ j') : run client server events j' = .ok s := by
  obtain ⟨i, rfl⟩ := Nat.exists_eq_add_of_le hj'
  refine run_idle hrun i fun i' _ => ?_
  obtain he | he | he := Event.cases_of_not_changes (hquiet (j + i') (hj.trans (Nat.le_add_right j i'))) <;> rw [he]
  · exact (Moves.unserved (by simp [hdone])).step_eq
  · exact (Moves.unreceived (by simp [hdone])).step_eq
  · exact Moves.idle.step_eq

theorem settles_of_settling {w : ℕ}
    (hfair : ∀ j ≥ n, (∃ i < w, events (j + i) = .serve) ∧ ∃ i < w, events (j + i) = .receive) (k : ℕ) {j : ℕ} (hj : n ≤ j)
    (hrun : run client server events j = .ok s) (hsettling : Settling C S events n k s) {j' : ℕ} (hj' : j + w * k ≤ j') :
    ∃ s', run client server events j' = .ok s' ∧ s'.mail = .done := by
  induction k generalizing j s with
  | zero =>
    obtain ⟨turn, ys, q, hcarries, -, hsoon⟩ := hsettling
    generalize hmail : s.mail = mail at hcarries
    cases hcarries with
    | done _ => exact ⟨s, done_stays hquiet hj hrun hmail hj', hmail⟩
    | query hne _ => exact absurd hsoon hne
    | response _ => exact hsoon.elim
  | succ k ih =>
    rw [Nat.mul_succ] at hj'
    cases hmail : s.mail with
    | done => exact ⟨s, done_stays hquiet hj hrun hmail (by omega), hmail⟩
    | query m =>
      obtain ⟨i, hi, he, hfirst⟩ := Runs.exists_first (hfair j hj).1
      have hidle := run_idle hrun i fun i' hi' => step_of_query hmail (hquiet (j + i') (by omega)) (hfirst i' hi')
      obtain ⟨s₁, hrun₁, hs⟩ := run_tracks h (j + i)
      obtain rfl := Except.ok.inj (hidle.symm.trans hrun₁)
      obtain ⟨s', hmoves, hsettling'⟩ := serve_settling h hlimS hquiet (by omega) hs hmail hsettling
      exact ih (j := j + i + 1) (by omega) (by rw [run, hidle, he]; exact hmoves.step_eq) hsettling' (by omega)
    | response m =>
      obtain ⟨i, hi, he, hfirst⟩ := Runs.exists_first (hfair j hj).2
      have hidle := run_idle hrun i fun i' hi' => step_of_response hmail (hquiet (j + i') (by omega)) (hfirst i' hi')
      obtain ⟨s₁, hrun₁, hs⟩ := run_tracks h (j + i)
      obtain rfl := Except.ok.inj (hidle.symm.trans hrun₁)
      obtain ⟨s', hmoves, hsettling'⟩ := receive_settling h hlimC hquiet (by omega) hs hmail hsettling
      exact ih (j := j + i + 1) (by omega) (by rw [run, hidle, he]; exact hmoves.step_eq) hsettling' (by omega)

/-- Once the sets no longer change, the client is soon done, whatever message is then on its way: if every `w` events
in a row deliver to both sides, and one of the sets has at most `31 * 16 ^ r` items, after `w * (2 * r + 4)` events. -/
theorem settles_when_quiet {w r : ℕ}
    (hfair : ∀ j ≥ n, (∃ i < w, events (j + i) = .serve) ∧ ∃ i < w, events (j + i) = .receive)
    (hr : min (clientItems C events n).card (serverItems S events n).card ≤ 31 * 16 ^ r) {j : ℕ} (hj : n + w * (2 * r + 4) ≤ j) :
    ∃ s, run client server events j = .ok s ∧ s.mail = .done := by
  obtain ⟨s, hrun, hs⟩ := run_tracks h n
  obtain ⟨k, hk, hsettling⟩ := hs.settling hr
  exact settles_of_settling h hlimC hlimS hquiet hfair k le_rfl hrun hsettling
    ((Nat.add_le_add_left (Nat.mul_le_mul_left w hk) n).trans hj)

end

end

end Live

section Example

local instance settlingSha256 : Sha256 := SHA256.real

theorem settles_when_quiet_nine : ∃ s, Live.run liveClient liveServer liveEvents 9 = .ok s ∧ s.mail = .done := by
  refine Live.settles_when_quiet live_between rfl rfl (n := 1) (w := 2) (r := 0) (fun j hj => liveEvents_quiet hj) ?_ (by decide)
    (by decide)
  intro j hj
  obtain ⟨n, rfl⟩ := Nat.exists_eq_add_of_le' hj
  rcases Nat.mod_two_eq_zero_or_one n with h | h
  · refine ⟨⟨0, by decide, ?_⟩, 1, by decide, ?_⟩
    · simp [liveEvents, h]
    · simp [liveEvents, Nat.add_mod, h]
  · refine ⟨⟨1, by decide, ?_⟩, 0, by decide, ?_⟩
    · simp [liveEvents, Nat.add_mod, h]
    · simp [liveEvents, h]

end Example

end NE
