import Mathlib.Algebra.Group.Nat.Defs
import Mathlib.Order.MinMax
import Negentropy.Lib.Rbsr.Progress
import Negentropy.Lib.Rbsr.Truthful

/-! Parties without limits that divide a range into `k` parts of like size, and list the elements of a range of
at most `m`. The rounds they need are logarithmic in the smaller of the two sets, and what they send in a round is
linear in the differences, however large the sets are. -/

namespace Rbsr

open Sorted

variable {α ι : Type}

/-! ### Ranges one by one -/

/-- The sum of the weights of the ranges. -/
def total (w : α → α → Payload α ι → ℕ) : α → List (Range α ι) → ℕ
  | _, [] => 0
  | l, r :: rs => w l r.upper r.payload + total w r.upper rs

section
variable {w w' : α → α → Payload α ι → ℕ} {l : α} {rs rs' : List (Range α ι)}

theorem total_append : total w l (rs ++ rs') = total w l rs + total w (endOf l rs) rs' := by
  induction rs generalizing l with
  | nil => simp [total, endOf]
  | cons r rs ih => rw [List.cons_append, total, ih, total, endOf, Nat.add_assoc]

theorem Flush.total_le {last l : α} {fl : List (Range α ι)} (h : Flush last l fl) {c : ℕ} (hw : ∀ l u, w l u .skip ≤ c) :
    total w last fl ≤ c := by
  cases h with
  | none => exact Nat.zero_le c
  | skip => exact hw _ _

end

variable [LinearOrder α]

/-! ### Replies -/

/-- Fingerprints one after the other, each over one of `k` parts of `n` elements. -/
inductive Parts (A : List α) (n k : ℕ) : ℕ → α → α → List (Range α ι) → Prop
  | last {l u} : l ≤ u → within A l u ≠ [] → (within A l u).length * k < n + k →
      Parts A n k 1 l u [⟨u, .fingerprint (within A l u)⟩]
  | cons {j l m u rs} : l ≤ m → within A l m ≠ [] → (within A l m).length * k < n + k → Parts A n k j m u rs →
      Parts A n k (j + 1) l u (⟨m, .fingerprint (within A l m)⟩ :: rs)

/-- What such a party writes for `[l, u)`. -/
inductive Divide (A : List α) (id : α → ι) (k m : ℕ) (l u : α) : List (Range α ι) → Prop
  | list : (within A l u).length ≤ m → Divide A id k m l u [⟨u, .idList ((within A l u).map id)⟩]
  | parts {rs} : m < (within A l u).length → Parts A (within A l u).length k k l u rs → Divide A id k m l u rs

section
variable (A : List α) (id : α → ι) (k m : ℕ) (client : Prop)

/-- What it answers to a message from `l` on, `last` being the end of what it has written. -/
inductive Whole : (last l : α) → (q out : List (Range α ι)) → Prop
  | done {last l} : Whole last l [] []
  | skip {last l u q out} : Whole last u q out → Whole last l (⟨u, .skip⟩ :: q) out
  | agree {last l u X q out} : Whole last u q out → Whole last l (⟨u, .fingerprint X⟩ :: q) out
  | split {last l u X q fl rs out} : l ≤ u → X ≠ within A l u → Flush last l fl → Divide A id k m l u rs →
      Whole u u q out → Whole last l (⟨u, .fingerprint X⟩ :: q) (fl ++ (rs ++ out))
  | report {last l u ids q out} : client → Whole last u q out → Whole last l (⟨u, .idList ids⟩ :: q) out
  | answer {last l u ids q fl out} : ¬ client → l ≤ u → Flush last l fl → Whole u u q out →
      Whole last l (⟨u, .idList ids⟩ :: q) (fl ++ ⟨u, .idList ((within A l u).map id)⟩ :: out)

end

section
variable {A B : List α} {id : α → ι} {k m n j : ℕ} {client : Prop} {last l u : α} {q out rs : List (Range α ι)}
  {p p' : α → α → Payload α ι → Prop} {w w' : α → α → Payload α ι → ℕ}

theorem Parts.le (h : Parts A n k j l u rs) : l ≤ u := by
  induction h with
  | last hle _ _ => exact hle
  | cons hle _ _ _ ih => exact hle.trans ih

theorem Parts.endOf_eq (h : Parts A n k j l u rs) : endOf l rs = u := by
  induction h with
  | last _ _ _ => rfl
  | cons _ _ _ _ ih => exact ih

/-- What holds of every part. -/
theorem Parts.each (h : Parts A n k j l u rs) (hp : ∀ l' u', l ≤ l' → l' ≤ u' → u' ≤ u → (within A l' u').length * k < n + k →
    p l' u' (.fingerprint (within A l' u'))) : Each p l rs := by
  induction h with
  | last hle _ hlen => exact ⟨hp _ _ le_rfl hle le_rfl hlen, trivial⟩
  | cons hle _ hlen hrs ih =>
    exact ⟨hp _ _ le_rfl hle hrs.le hlen, ih fun l' u' hl => hp l' u' (hle.trans hl)⟩

theorem Parts.total_le (h : Parts A n k j l u rs) {c : ℕ} (hw : ∀ l u X, w l u (.fingerprint X) ≤ c) :
    total w l rs ≤ j * c := by
  induction h with
  | last _ _ _ => exact (hw _ _ _).trans_eq (Nat.one_mul c).symm
  | cons _ _ _ _ ih =>
    rw [total, Nat.succ_mul, Nat.add_comm]
    exact Nat.add_le_add ih (hw _ _ _)

/-- Parts that are fewer than they were. -/
theorem Parts.buckets (h : Parts A n k j l u rs) (hk : 2 ≤ k) (hn : 2 ≤ n) : Buckets A n l u rs := by
  have hlt : ∀ x, x * k < n + k → x < n := by
    intro x hx
    by_contra hge
    have hmul : n * k ≤ x * k := Nat.mul_le_mul_right k (not_lt.mp hge)
    have hadd := Nat.add_le_mul hn hk
    omega
  induction h with
  | last hle hne hlen => exact .last hle hne (hlt _ hlen)
  | cons hle hne hlen _ ih => exact .cons hle hne (hlt _ hlen) ih

theorem Divide.split (h : Divide A id k m l u rs) (hk : 2 ≤ k) (hm : 0 < m) : Split A id l u rs := by
  cases h with
  | list _ => exact .idList
  | parts hlen hparts => exact .buckets (hparts.buckets hk (by omega))

theorem Divide.endOf_eq (h : Divide A id k m l u rs) : endOf l rs = u := by
  cases h with
  | list _ => rfl
  | parts _ hparts => exact hparts.endOf_eq

/-- What holds of every range of a reply. -/
theorem Whole.each (h : Whole A id k m client last l q out) (hq : Each p l q) (hskip : ∀ l u, p' l u .skip)
    (hsplit : ∀ l u X rs, l ≤ u → p l u (.fingerprint X) → X ≠ within A l u → Divide A id k m l u rs → Each p' l rs)
    (hanswer : ¬ client → ∀ l u ids, l ≤ u → p l u (.idList ids) → p' l u (.idList ((within A l u).map id))) :
    Each p' last out := by
  induction h with
  | done => trivial
  | skip _ ih => exact ih hq.2
  | agree _ ih => exact ih hq.2
  | split hle hne hfl hrs _ ih =>
    rw [each_append, each_append, hfl.endOf_eq, hrs.endOf_eq]
    exact ⟨hfl.each hskip, hsplit _ _ _ _ hle hq.1 hne hrs, ih hq.2⟩
  | report _ _ ih => exact ih hq.2
  | answer hc hle hfl _ ih =>
    rw [each_append, hfl.endOf_eq]
    exact ⟨hfl.each hskip, hanswer hc _ _ _ hle hq.1, ih hq.2⟩

/-- A reply weighs no more than the message, when every range that is split or answered pays for what is written
for it. -/
theorem Whole.total_le (h : Whole A id k m client last l q out) (hq : Each p l q) {c : ℕ} (hskip : ∀ l u, w' l u .skip ≤ c)
    (hsplit : ∀ l u X rs, l ≤ u → p l u (.fingerprint X) → X ≠ within A l u → Divide A id k m l u rs →
      c + total w' l rs ≤ w l u (.fingerprint X))
    (hanswer : ¬ client → ∀ l u ids, l ≤ u → p l u (.idList ids) → c + w' l u (.idList ((within A l u).map id)) ≤ w l u (.idList ids)) :
    total w' last out ≤ total w l q := by
  induction h with
  | done => exact Nat.zero_le _
  | skip _ ih => exact (ih hq.2).trans (Nat.le_add_left _ _)
  | agree _ ih => exact (ih hq.2).trans (Nat.le_add_left _ _)
  | split hle hne hfl hrs _ ih =>
    rw [total_append, total_append, hfl.endOf_eq, hrs.endOf_eq, total, ← Nat.add_assoc]
    exact Nat.add_le_add ((Nat.add_le_add_right (hfl.total_le hskip) _).trans (hsplit _ _ _ _ hle hq.1 hne hrs)) (ih hq.2)
  | report _ _ ih => exact (ih hq.2).trans (Nat.le_add_left _ _)
  | answer hc hle hfl _ ih =>
    rw [total_append, hfl.endOf_eq, total, total, ← Nat.add_assoc]
    exact Nat.add_le_add ((Nat.add_le_add_right (hfl.total_le hskip) _).trans (hanswer hc _ _ _ hle hq.1)) (ih hq.2)

/-! ### Rounds -/

/-- A fingerprint is over at most `n` elements of `A`. -/
def Fine (A : List α) (n : ℕ) (l u : α) : Payload α ι → Prop
  | .fingerprint _ => (within A l u).length ≤ n
  | _ => True

/-- There is no fingerprint. -/
def NoFingerprint (_ _ : α) : Payload α ι → Prop
  | .fingerprint _ => False
  | _ => True

theorem within_length_le {l l' u u' : α} (hl : l ≤ l') (hu : u' ≤ u) : (within A l' u').length ≤ (within A l u).length := by
  refine (List.monotone_filter_right A fun x hx => ?_).length_le
  simp only [Bool.and_eq_true, decide_eq_true_eq] at hx ⊢
  exact ⟨hl.trans hx.1, hx.2.trans_le hu⟩

theorem Divide.fine (h : Divide A id k m l u rs) (hlen : (within A l u).length ≤ n * k) : Each (Fine A n) l rs := by
  cases h with
  | list _ => exact ⟨trivial, trivial⟩
  | parts _ hparts =>
    refine hparts.each fun l' u' _ _ _ hpart => ?_
    have hlt : (within A l' u').length * k < (n + 1) * k := by
      rw [Nat.succ_mul]
      omega
    exact Nat.le_of_lt_succ (Nat.lt_of_mul_lt_mul_right hlt)

theorem Divide.fine_other (h : Divide A id k m l u rs) (hlen : (within B l u).length ≤ n) : Each (Fine B n) l rs := by
  cases h with
  | list _ => exact ⟨trivial, trivial⟩
  | parts _ hparts => exact hparts.each fun l' u' hl _ hu _ => (within_length_le hl hu).trans hlen

theorem Divide.noFingerprint (h : Divide A id k m l u rs) (hlen : (within A l u).length ≤ m) : Each NoFingerprint l rs := by
  cases h with
  | list _ => exact ⟨trivial, trivial⟩
  | parts hm _ => exact absurd hlen (not_le.mpr hm)

/-- A party makes ranges `k` times finer. -/
theorem Whole.fine (h : Whole A id k m client last l q out) (hq : Each (Fine A (n * k)) l q) : Each (Fine A n) last out :=
  h.each hq (fun _ _ => trivial) (fun _ _ _ _ _ hX _ hrs => hrs.fine hX) fun _ _ _ _ _ _ => trivial

theorem Whole.fine_other (h : Whole A id k m client last l q out) (hq : Each (Fine B n) l q) : Each (Fine B n) last out :=
  h.each hq (fun _ _ => trivial) (fun _ _ _ _ _ hX _ hrs => hrs.fine_other hX) fun _ _ _ _ _ _ => trivial

theorem Whole.noFingerprint (h : Whole A id k m client last l q out) (hq : Each (Fine A m) l q) : Each NoFingerprint last out :=
  h.each hq (fun _ _ => trivial) (fun _ _ _ _ _ hX _ hrs => hrs.noFingerprint hX) fun _ _ _ _ _ _ => trivial

theorem Whole.noFingerprint_of (h : Whole A id k m client last l q out) (hq : Each NoFingerprint l q) :
    Each NoFingerprint last out :=
  h.each hq (fun _ _ => trivial) (fun _ _ _ _ _ hX _ _ => hX.elim) fun _ _ _ _ _ _ => trivial

/-- A client has nothing to say to lists of identifiers. -/
theorem Whole.eq_nil (h : Whole A id k m True last l q out) (hq : Each NoFingerprint l q) : out = [] := by
  induction h with
  | done => rfl
  | skip _ ih => exact ih hq.2
  | agree _ _ => exact hq.1.elim
  | split _ _ _ _ _ _ => exact hq.1.elim
  | report _ _ ih => exact ih hq.2
  | answer hc _ _ _ _ => exact absurd trivial hc

end

/-- A client's messages and a server's replies to them. -/
structure Dialogue (A B : List α) (id : α → ι) (k m : ℕ) (bot top : α) (messages replies : ℕ → List (Range α ι)) : Prop where
  first : Divide A id k m bot top (messages 0)
  server : ∀ n, Whole B id k m False bot bot (messages n) (replies n)
  client : ∀ n, Whole A id k m True bot bot (replies n) (messages (n + 1))

section
variable {A B : List α} {id : α → ι} {k m : ℕ} {bot top : α} {messages replies : ℕ → List (Range α ι)}
  (h : Dialogue A B id k m bot top messages replies)
include h

/-- After `n` rounds both parties' ranges have become `k ^ n` times finer. -/
theorem Dialogue.fine (n : ℕ) :
    (∀ c, A.length ≤ c * k ^ (n + 1) → Each (Fine A c) bot (messages n)) ∧
      ∀ c, B.length ≤ c * k ^ n → Each (Fine B c) bot (messages n) := by
  have hlen : ∀ C : List α, (within C bot top).length ≤ C.length := fun C => List.length_filter_le _ C
  induction n with
  | zero =>
    refine ⟨fun c hc => h.first.fine ((hlen A).trans ?_), fun c hc => h.first.fine_other ((hlen B).trans ?_)⟩
    · rwa [pow_one] at hc
    · rwa [pow_zero, Nat.mul_one] at hc
  | succ n ih =>
    obtain ⟨ihA, ihB⟩ := ih
    constructor
    · intro c hc
      rw [pow_succ', ← Nat.mul_assoc] at hc
      exact (h.client n).fine ((h.server n).fine_other (ihA (c * k) hc))
    · intro c hc
      rw [pow_succ', ← Nat.mul_assoc] at hc
      exact (h.client n).fine_other ((h.server n).fine (ihB (c * k) hc))

/-- Once one of the two parties could list what it has in every range, only lists are sent. -/
theorem Dialogue.noFingerprint {n : ℕ} (hA : A.length ≤ m * k ^ n) : Each NoFingerprint bot (messages n) := by
  cases n with
  | zero =>
    refine h.first.noFingerprint ((List.length_filter_le _ A).trans ?_)
    rwa [pow_zero, Nat.mul_one] at hA
  | succ n => exact (h.client n).noFingerprint ((h.server n).fine_other ((h.fine n).1 m hA))

/-- The dialogue is over after `r + 1` rounds if the smaller set has no more than `m * k ^ r` elements. -/
theorem Dialogue.eq_nil {r : ℕ} (hr : min A.length B.length ≤ m * k ^ r) : messages (r + 1) = [] := by
  refine (h.client r).eq_nil ?_
  rcases min_le_iff.mp hr with hA | hB
  · exact (h.server r).noFingerprint_of (h.noFingerprint hA)
  · exact (h.server r).noFingerprint ((h.fine r).2 m hB)

end

end Rbsr
