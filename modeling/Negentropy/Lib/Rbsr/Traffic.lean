import Mathlib.Data.List.Sort
import Negentropy.Lib.Rbsr.Divide

/-! What a dialogue without limits costs: every range that is split or answered has a difference in it, and pays for
what is written in its place. -/

namespace Rbsr

open Sorted

variable {α ι : Type}

/-- What the ranges of a message cost. -/
structure Cost where
  skip : ℕ
  fingerprint : ℕ
  list : ℕ
  element : ℕ

def Cost.of (x : Cost) (_ _ : α) : Payload α ι → ℕ
  | .skip => x.skip
  | .fingerprint _ => x.fingerprint
  | .idList ids => x.list + x.element * ids.length

variable [LinearOrder α]

/-- The elements that only one of the two parties has. -/
def diffs (A B : List α) : List α := A.filter (fun x => decide (x ∉ B)) ++ B.filter fun x => decide (x ∉ A)

section
variable {A B : List α} {l u : α}

theorem mem_diffs {x : α} : x ∈ diffs A B ↔ x ∈ A ∧ x ∉ B ∨ x ∈ B ∧ x ∉ A := by
  simp [diffs]

theorem diffs_perm (A B : List α) : (diffs A B).Perm (diffs B A) := List.perm_append_comm

/-- Where the parties have not the same elements there is a difference. -/
theorem within_diffs_pos (hA : A.Pairwise (· < ·)) (hB : B.Pairwise (· < ·)) (hne : within A l u ≠ within B l u) :
    0 < (within (diffs A B) l u).length := by
  by_contra hnone
  have hnil : within (diffs A B) l u = [] := List.length_eq_zero_iff.mp (Nat.eq_zero_of_not_pos hnone)
  have hiff : ∀ x, l ≤ x → x < u → (x ∈ A ↔ x ∈ B) := by
    intro x hl hu
    have hx : x ∉ within (diffs A B) l u := by simp [hnil]
    rw [mem_within, mem_diffs] at hx
    tauto
  have hsA : (within A l u).Pairwise (· < ·) := hA.filter _
  have hsB : (within B l u).Pairwise (· < ·) := hB.filter _
  refine hne (hsA.sortedLT.eq_of_mem_iff hsB.sortedLT fun x => ?_)
  rw [mem_within, mem_within]
  exact and_congr_left fun h => hiff x h.1 h.2

/-- A party has no more elements in a window than the other one and the differences there. -/
theorem within_length_le_add (hB : B.Nodup) : (within B l u).length ≤ (within A l u).length + (within (diffs A B) l u).length := by
  rw [← List.length_append]
  have hnodup : (within B l u).Nodup := hB.filter _
  refine (List.subperm_of_subset hnodup fun x hx => ?_).length_le
  rw [mem_within] at hx
  rw [List.mem_append, mem_within, mem_within, mem_diffs]
  tauto

end

/-- A range is paid for by the differences in it. -/
def price (D : List α) (c : ℕ) (l u : α) : Payload α ι → ℕ
  | .skip => 0
  | _ => c * (within D l u).length

theorem total_price_le {D : List α} {c : ℕ} {l : α} {q : List (Range α ι)} (hq : Ascending l q) :
    total (price D c) l q ≤ c * D.length := by
  suffices h : total (price D c) l q ≤ c * (D.filter fun x => decide (l ≤ x)).length from
    h.trans (Nat.mul_le_mul_left c (List.length_filter_le _ D))
  induction q generalizing l with
  | nil => exact Nat.zero_le _
  | cons r q ih =>
    obtain ⟨u, payload⟩ := r
    have hle : l ≤ u := hq.1
    have hprice : price D c l u payload ≤ c * (within D l u).length := by
      cases payload with
      | skip => exact Nat.zero_le _
      | fingerprint X => exact le_rfl
      | idList ids => exact le_rfl
    have hrest := ih hq.2
    rw [total, ← filter_le_length hle, Nat.mul_add, Nat.add_comm]
    exact Nat.add_le_add hrest hprice

/-- A fingerprint is over the elements of its range. -/
def Exact (A : List α) (l u : α) : Payload α ι → Prop
  | .fingerprint X => X = within A l u
  | _ => True

/-- A list is a short one, of a range in which the parties differ. -/
def Brief (A B : List α) (m : ℕ) (l u : α) : Payload α ι → Prop
  | .idList _ => (within A l u).length ≤ m ∧ 0 < (within (diffs A B) l u).length
  | _ => True

section
variable {A B : List α} {id : α → ι} {k m c : ℕ} {client : Prop} {last l u : α} {q out rs : List (Range α ι)} {x : Cost}

theorem Parts.ascending {n j : ℕ} (h : Parts A n k j l u rs) : Ascending l rs := by
  induction h with
  | last hle _ _ => exact ⟨hle, trivial⟩
  | cons hle _ _ _ ih => exact ⟨hle, ih⟩

theorem Divide.ascending (h : Divide A id k m l u rs) (hle : l ≤ u) : Ascending l rs := by
  cases h with
  | list _ => exact ⟨hle, trivial⟩
  | parts _ hparts => exact hparts.ascending

theorem Flush.ascending {fl : List (Range α ι)} (h : Flush last l fl) (hle : last ≤ l) : Ascending last fl := by
  cases h with
  | none => trivial
  | skip => exact ⟨hle, trivial⟩

theorem Whole.ascending (h : Whole A id k m client last l q out) (hq : Ascending l q) (hle : last ≤ l) : Ascending last out := by
  induction h with
  | done => trivial
  | skip _ ih => exact ih hq.2 (hle.trans hq.1)
  | agree _ ih => exact ih hq.2 (hle.trans hq.1)
  | split hlu _ hfl hrs _ ih =>
    rw [ascending_append, ascending_append, hfl.endOf_eq, hrs.endOf_eq]
    exact ⟨hfl.ascending hle, hrs.ascending hlu, ih hq.2 le_rfl⟩
  | report _ _ ih => exact ih hq.2 (hle.trans hq.1)
  | answer _ hlu hfl _ ih =>
    rw [ascending_append, hfl.endOf_eq]
    exact ⟨hfl.ascending hle, hlu, ih hq.2 le_rfl⟩

theorem Divide.exact (h : Divide A id k m l u rs) : Each (Exact A) l rs := by
  cases h with
  | list _ => exact ⟨trivial, trivial⟩
  | parts _ hparts => exact hparts.each fun _ _ _ _ _ _ => rfl

theorem Whole.exact (h : Whole A id k m client last l q out) : Each (Exact A) last out := by
  have hq : ∀ (l : α) (q : List (Range α ι)), Each (fun _ _ _ => True) l q := by
    intro l q
    induction q generalizing l with
    | nil => trivial
    | cons r q ih => exact ⟨trivial, ih _⟩
  exact h.each (hq l q) (fun _ _ => trivial) (fun _ _ _ _ _ _ _ hrs => hrs.exact) fun _ _ _ _ _ _ => trivial

theorem Divide.brief (h : Divide A id k m l u rs) (hdiff : 0 < (within (diffs A B) l u).length) : Each (Brief A B m) l rs := by
  cases h with
  | list hlen => exact ⟨⟨hlen, hdiff⟩, trivial⟩
  | parts _ hparts => exact hparts.each fun _ _ _ _ _ _ => trivial

/-- A client lists only what it has in ranges in which the parties differ. -/
theorem Whole.brief (h : Whole A id k m True last l q out) (hA : A.Pairwise (· < ·)) (hB : B.Pairwise (· < ·))
    (hq : Each (Exact B) l q) : Each (Brief A B m) last out := by
  refine h.each hq (fun _ _ => trivial) (fun l u X rs _ hX hne hrs => ?_) fun hc => absurd trivial hc
  obtain rfl : X = within B l u := hX
  exact hrs.brief (within_diffs_pos hA hB hne.symm)

theorem Divide.total_le (h : Divide A id k m l u rs) (hfp : x.skip + k * x.fingerprint ≤ c)
    (hlist : x.skip + x.list + x.element * (m + 1) ≤ c) : x.skip + total x.of l rs ≤ c := by
  cases h with
  | list hlen =>
    have hmul : x.element * (within A l u).length ≤ x.element * m := Nat.mul_le_mul_left _ hlen
    rw [Nat.mul_add, Nat.mul_one] at hlist
    simp only [total, Cost.of, List.length_map]
    omega
  | parts _ hparts => exact (Nat.add_le_add_left (hparts.total_le fun _ _ _ => le_rfl) _).trans hfp

/-- A party's answer to a list of at most `m` elements costs no more than the differences, if there are some. -/
theorem answer_le (hA : A.Nodup) {d : ℕ} (hd : (within (diffs B A) l u).length ≤ d) (hpos : 0 < d)
    (hlen : (within B l u).length ≤ m) (hlist : x.skip + x.list + x.element * (m + 1) ≤ c) :
    x.skip + (x.list + x.element * (within A l u).length) ≤ c * d := by
  have hle : (within A l u).length ≤ m + d := (within_length_le_add hA).trans (Nat.add_le_add hlen hd)
  calc x.skip + (x.list + x.element * (within A l u).length)
      ≤ x.skip + x.list + x.element * (m + d) := by
        have := Nat.mul_le_mul_left x.element hle
        omega
    _ ≤ (x.skip + x.list + x.element * m) * d + x.element * d := by
        rw [Nat.mul_add]
        have := Nat.le_mul_of_pos_right (x.skip + x.list + x.element * m) hpos
        omega
    _ = (x.skip + x.list + x.element * (m + 1)) * d := by
        rw [← Nat.add_mul, Nat.mul_succ, Nat.add_assoc _ (x.element * m)]
    _ ≤ c * d := Nat.mul_le_mul_right d hlist

/-- A reply to a message whose lists are short ones costs no more than the differences. -/
theorem Whole.total_cost_le (h : Whole A id k m client last l q out) (hA : A.Pairwise (· < ·)) (hB : B.Pairwise (· < ·))
    (hexact : Each (Exact B) l q) (hbrief : ¬ client → Each (Brief B A m) l q) (hasc : Ascending l q)
    (hfp : x.skip + k * x.fingerprint ≤ c) (hlist : x.skip + x.list + x.element * (m + 1) ≤ c) :
    total x.of last out ≤ c * (diffs B A).length := by
  have hsplit : ∀ l u X rs, Exact B l u (.fingerprint X : Payload α ι) → X ≠ within A l u → Divide A id k m l u rs →
      x.skip + total x.of l rs ≤ c * (within (diffs B A) l u).length := by
    intro l u X rs hX hne hrs
    obtain rfl : X = within B l u := hX
    exact (hrs.total_le hfp hlist).trans (Nat.le_mul_of_pos_right c (within_diffs_pos hB hA hne))
  refine le_trans ?_ (total_price_le (D := diffs B A) hasc)
  by_cases hclient : client
  · exact h.total_le hexact (fun _ _ => le_rfl) (fun l u X rs _ hX => hsplit l u X rs hX) fun hc => absurd hclient hc
  · refine h.total_le (hexact.and (hbrief hclient)) (fun _ _ => le_rfl) (fun l u X rs _ hX => hsplit l u X rs hX.1) ?_
    intro _ l u ids _ hX
    rw [Cost.of, List.length_map]
    exact answer_le (hA.imp ne_of_lt) le_rfl hX.2.2 hX.2.1 hlist

/-- The same of the reply to the first message. -/
theorem Whole.total_first_le (h : Whole A id k m client last l q out) (hA : A.Pairwise (· < ·)) (hB : B.Pairwise (· < ·))
    (hfirst : Divide B id k m l u q) (hle : l ≤ u) (hfp : x.skip + k * x.fingerprint ≤ c)
    (hlist : x.skip + x.list + x.element * (m + 1) ≤ c) : total x.of last out ≤ c * max 1 (diffs B A).length := by
  cases hfirst with
  | list hlen =>
    have hq : Each (fun l' u' payload => NoFingerprint l' u' payload ∧ (within B l' u').length ≤ m) l
        [(⟨u, .idList ((within B l u).map id)⟩ : Range α ι)] := ⟨⟨trivial, hlen⟩, trivial⟩
    refine h.total_le (w := fun _ _ _ => c * max 1 (diffs B A).length) hq (fun _ _ => le_rfl)
      (fun _ _ _ _ _ hX => hX.1.elim) fun _ l' u' _ _ hX => ?_
    rw [Cost.of, List.length_map]
    exact answer_le (hA.imp ne_of_lt) ((List.length_filter_le _ _).trans (le_max_right _ _)) (by omega) hX.2 hlist
  | parts hlen hparts =>
    have hq : Divide B id k m l u q := .parts hlen hparts
    have hcost := h.total_cost_le hA hB hq.exact (fun _ => hparts.each fun _ _ _ _ _ _ => trivial) (hq.ascending hle) hfp hlist
    exact hcost.trans (Nat.mul_le_mul_left c (le_max_right _ _))

end

/-! ### Dialogues -/

section
variable {A B : List α} {id : α → ι} {k m c : ℕ} {bot top : α} {messages replies : ℕ → List (Range α ι)} {x : Cost}
  (h : Dialogue A B id k m bot top messages replies) (hA : A.Pairwise (· < ·)) (hB : B.Pairwise (· < ·)) (htop : bot ≤ top)
include h htop

theorem Dialogue.ascending (n : ℕ) : Ascending bot (messages n) ∧ Ascending bot (replies n) := by
  induction n with
  | zero =>
    have hfirst := h.first.ascending htop
    exact ⟨hfirst, (h.server 0).ascending hfirst le_rfl⟩
  | succ n ih =>
    have hnext := (h.client n).ascending ih.2 le_rfl
    exact ⟨hnext, (h.server (n + 1)).ascending hnext le_rfl⟩

include hA hB

/-- Every message costs at most `c` for each difference; where there is none, it costs at most `c`. -/
theorem Dialogue.total_le (hfp : x.skip + k * x.fingerprint ≤ c) (hlist : x.skip + x.list + x.element * (m + 1) ≤ c) (n : ℕ) :
    total x.of bot (messages n) ≤ c * max 1 (diffs A B).length ∧ total x.of bot (replies n) ≤ c * max 1 (diffs A B).length := by
  have hmax : c * (diffs A B).length ≤ c * max 1 (diffs A B).length := Nat.mul_le_mul_left c (le_max_right _ _)
  have hone : c ≤ c * max 1 (diffs A B).length := Nat.le_mul_of_pos_right c (by omega)
  have hserver : ∀ n, Each (Exact A) bot (messages n) → Each (Brief A B m) bot (messages n) →
      total x.of bot (replies n) ≤ c * max 1 (diffs A B).length := fun n hexact hbrief =>
    ((h.server n).total_cost_le hB hA hexact (fun _ => hbrief) (h.ascending htop n).1 hfp hlist).trans hmax
  cases n with
  | zero =>
    refine ⟨(Nat.le_add_left _ _).trans ((h.first.total_le hfp hlist).trans hone), ?_⟩
    exact (h.server 0).total_first_le hB hA h.first htop hfp hlist
  | succ n =>
    have hexact := (h.client n).exact
    refine ⟨?_, hserver _ hexact ((h.client n).brief hA hB (h.server n).exact)⟩
    refine ((h.client n).total_cost_le hA hB (h.server n).exact (fun hc => absurd trivial hc) (h.ascending htop n).2 hfp
      hlist).trans ?_
    rwa [(diffs_perm B A).length_eq]

end

end Rbsr
