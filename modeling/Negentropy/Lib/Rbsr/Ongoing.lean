import Negentropy.Lib.Rbsr.Divide
import Negentropy.Lib.Rbsr.Exchange

/-! Exchanges during which the two sets change: every reply is over what the party holds when it writes it, and the
message it replies to may be over older sets. -/

namespace Rbsr

open Sorted

variable {α ι : Type} [LinearOrder α]

/-- Whose turn it is to reply. -/
inductive Turn where
  | server
  | client

/-- What the one who wrote the last message held at some time. -/
def Turn.writer (A B : ℕ → List α) : Turn → ℕ → List α
  | .server => A
  | .client => B

section
variable (A B : ℕ → List α) (id : α → ι) (bot top : α) (cmp : List ι → List α → List ι × List ι) (limited limited' : Prop)

/-- `A t` and `B t` are what client and server hold at time `t`. The indices are whose turn it is, when the last message
was written, the message, what the client has reported so far and the comparisons made so far. -/
inductive Ongoing : Turn → ℕ → List (Range α ι) → List ι → List ι → List (Comparison α) → Prop
  | start {t rs} : Split (A t) id bot top rs → Ongoing .server t rs [] [] []
  | serve {s t q mid hs ns h n c c' d} : Ongoing .server s q hs ns c → s ≤ t →
      Reply (B t) id top cmp False limited' False bot bot q mid h n c' d → Ongoing .client t mid hs ns (c ++ c')
  | receive {s t mid out hs ns h n c c' d} : Ongoing .client s mid hs ns c → s ≤ t →
      Reply (A t) id top cmp True limited False bot bot mid out h n c' d →
      Ongoing .server t out (hs ++ h) (ns ++ n) (c ++ c')

end

section
variable {A B : ℕ → List α} {id : α → ι} {bot top : α} {cmp : List ι → List α → List ι × List ι} {limited limited' : Prop}
  {turn : Turn} {t : ℕ} {q : List (Range α ι)} {hs ns : List ι} {c : List (Comparison α)}
  (h : Ongoing A B id bot top cmp limited limited' turn t q hs ns c)
include h

/-! ### Messages -/

theorem Ongoing.spans (hle : bot ≤ top) : Spans top bot q := by
  induction h with
  | start hs => exact hs.spans hle le_rfl
  | serve _ _ hrep ih => exact hrep.spans ih le_rfl hle
  | receive _ _ hrep ih => exact hrep.spans ih le_rfl hle

theorem Ongoing.listed : Listed (turn.writer A B t) id bot q := by
  cases h with
  | start hs => exact hs.listed
  | serve _ _ hrep => exact hrep.listed
  | receive _ _ hrep => exact hrep.listed

theorem Ongoing.truthful (hlim : ¬ limited) (hlim' : ¬ limited') : Truthful (turn.writer A B t) bot q := by
  cases h with
  | start hs => exact hs.truthful
  | serve _ _ hrep =>
    obtain rfl := hrep.no_drop hlim'
    exact hrep.truthful
  | receive _ _ hrep =>
    obtain rfl := hrep.no_drop hlim
    exact hrep.truthful

/-! ### Reports -/

section
variable [DecidableEq ι] (hid : ∀ s t, Identified (A s) (B t) id) (hcmp : Compares id cmp)
include hid hcmp

/-- A difference that lasts is reported or still in an open range. -/
theorem Ongoing.covered (hle : bot ≤ top) (hlim : ¬ limited) (hlim' : ¬ limited') (hc : ∀ x ∈ c, x.SameIds id) {p : α}
    (hp : (∀ s ≤ t, p ∈ A s ∧ p ∉ B s) ∨ ∀ s ≤ t, p ∈ B s ∧ p ∉ A s) (hbot : bot ≤ p) (htop : p < top) :
    id p ∈ hs ∨ id p ∈ ns ∨ Open bot q p := by
  have hdiffers : ∀ {t}, ((∀ s ≤ t, p ∈ A s ∧ p ∉ B s) ∨ ∀ s ≤ t, p ∈ B s ∧ p ∉ A s) → ∀ r ≤ t, ∀ s ≤ t, Differs (A r) (B s) p :=
    fun hp r hr s hs => hp.imp (fun hp => ⟨(hp r hr).1, (hp s hs).2⟩) fun hp => ⟨(hp s hs).1, (hp r hr).2⟩
  induction h with
  | start hs => exact .inr (.inr (by simpa using (hs.open_iff p []).mpr (.inl ⟨hbot, htop⟩)))
  | @serve s t _ _ _ _ _ _ _ _ _ hq hst hrep ih =>
    have hdiff := (hdiffers hp s hst t le_rfl).symm
    simp only [List.mem_append, or_imp, forall_and] at hc
    refine (ih hc.1 (hp.imp (fun hp r hr => hp r (hr.trans hst)) fun hp r hr => hp r (hr.trans hst))).imp_right
      (Or.imp_right fun hopen => ?_)
    have htells := (hq.truthful hlim hlim').tells (hid s t).symm hq.listed hdiff
    have hserver := hrep.covered_of (hid s t).symm hcmp (hq.spans hle) htells le_rfl hc.2 hdiff hopen
    -- the server reports nothing
    obtain ⟨rfl, rfl⟩ := hrep.silent not_false
    simpa using hserver
  | @receive s t _ _ _ _ _ _ _ _ _ hmid hst hrep ih =>
    have hdiff := hdiffers hp t le_rfl s hst
    simp only [List.mem_append, or_imp, forall_and] at hc ⊢
    rcases ih hc.1 (hp.imp (fun hp r hr => hp r (hr.trans hst)) fun hp r hr => hp r (hr.trans hst)) with hh | hn | hopen
    · exact .inl (.inl hh)
    · exact .inr (.inl (.inl hn))
    · have htells := (hmid.truthful hlim hlim').tells (hid t s) hmid.listed hdiff
      exact (hrep.covered_of (hid t s) hcmp (hmid.spans hle) htells le_rfl hc.2 hdiff hopen).imp .inr (Or.imp_left .inr)

/-- Without limits no identifier is reported twice. -/
theorem Ongoing.once (hle : bot ≤ top) (hlim : ¬ limited) (hlim' : ¬ limited') {p : α}
    (hp : ∀ t, ∀ x ∈ A t ++ B t, id x = id p → x = p) : hs.count (id p) + ns.count (id p) + pending bot q p ≤ 1 := by
  have hboth : ∀ r s, ∀ x ∈ A r ++ B s, id x = id p → x = p := by
    intro r s x hx
    rcases List.mem_append.mp hx with hx | hx
    · exact hp r x (List.mem_append_left _ hx)
    · exact hp s x (List.mem_append_right _ hx)
  have hboth' : ∀ r s, ∀ x ∈ B s ++ A r, id x = id p → x = p := fun r s x hx =>
    hboth r s x (by simpa [or_comm] using hx)
  induction h with
  | start _ =>
    unfold pending
    split <;> simp
  | @serve s t _ _ _ _ _ _ _ _ _ hq _ hrep ih =>
    have hserver := hrep.once_of (hid s t).symm hcmp hlim' (hq.spans hle) hq.listed (hboth' s t)
    omega
  | @receive s t _ _ _ _ _ _ _ _ _ hmid _ hrep ih =>
    have hclient := hrep.once_of (hid t s) hcmp hlim (hmid.spans hle) hmid.listed (hboth t s)
    simp only [List.count_append]
    omega

end

end

/-! ### The end -/

section
variable (A B : List α) (id : α → ι) (k m : ℕ) (bot : α)

/-- After `n` more whole replies at most the client has nothing to say. -/
def Soon : ℕ → Turn → List (Range α ι) → Prop
  | 0, .server, q => q = []
  | 0, .client, _ => False
  | n + 1, .server, q => q = [] ∨ ∀ mid, Whole B id k m False bot bot q mid → Soon n .client mid
  | n + 1, .client, mid => ∀ out, Whole A id k m True bot bot mid out → Soon n .server out

end

section
variable {A B : List α} {id : α → ι} {k m : ℕ} {bot : α} {q : List (Range α ι)}

theorem soon_nil (n : ℕ) : Soon A B id k m bot n .server [] := by
  cases n with
  | zero => rfl
  | succ n => exact .inl rfl

/-- The ranges of a message become `k` times finer for the server with each of its replies. -/
theorem soon_of_fine_server {r : ℕ} (h : Each (Fine B (m * k ^ r)) bot q) : Soon A B id k m bot (2 * (r + 1)) .server q := by
  induction r generalizing q with
  | zero =>
    rw [pow_zero, Nat.mul_one] at h
    refine .inr fun mid hmid out hout => ?_
    rw [hout.eq_nil (hmid.noFingerprint h)]
    exact soon_nil 0
  | succ r ih =>
    rw [pow_succ, ← Nat.mul_assoc] at h
    exact .inr fun mid hmid out hout => ih (hout.fine_other (hmid.fine h))

/-- And for the client with each of its own. -/
theorem soon_of_fine_client {r : ℕ} (h : Each (Fine A (m * k ^ r)) bot q) : Soon A B id k m bot (2 * (r + 1) + 1) .client q := by
  induction r generalizing q with
  | zero =>
    rw [pow_zero, Nat.mul_one] at h
    refine fun out hout => .inr fun mid hmid out' hout' => ?_
    rw [hout'.eq_nil (hmid.noFingerprint_of (hout.noFingerprint h))]
    exact soon_nil 0
  | succ r ih =>
    rw [pow_succ, ← Nat.mul_assoc] at h
    exact fun out hout => .inr fun mid hmid => ih (hmid.fine_other (hout.fine h))

/-- Any message, whatever sets it was over, is soon dealt with if one of the two sets is small. -/
theorem soon_of_length {r : ℕ} (hr : min A.length B.length ≤ m * k ^ r) (turn : Turn) (q : List (Range α ι)) :
    ∃ n ≤ 2 * r + 4, Soon A B id k m bot n turn q := by
  have hfine : ∀ {C : List α} {q : List (Range α ι)}, C.length ≤ m * k ^ r → Each (Fine C (m * k ^ r)) bot q := by
    intro C q hC
    generalize bot = l
    induction q generalizing l with
    | nil => trivial
    | cons r q ih =>
      refine ⟨?_, ih r.upper⟩
      cases r.payload with
      | fingerprint X => exact (List.length_filter_le _ _).trans hC
      | skip => trivial
      | idList ids => trivial
  rcases min_le_iff.mp hr with hA | hB
  · cases turn with
    | client => exact ⟨_, by omega, soon_of_fine_client (hfine hA)⟩
    | server => exact ⟨2 * (r + 1) + 1 + 1, by omega, .inr fun mid _ => soon_of_fine_client (hfine hA)⟩
  · cases turn with
    | server => exact ⟨_, by omega, soon_of_fine_server (hfine hB)⟩
    | client => exact ⟨2 * (r + 1) + 1, by omega, fun out _ => soon_of_fine_server (hfine hB)⟩

end

end Rbsr
