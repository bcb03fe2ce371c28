import Mathlib.Data.List.Nodup
import Negentropy.Lib.Rbsr.Truthful

/-! What a reply to an honest message reports: differences only, no difference lost, and
without limits none of them twice. The replies need not be to honest messages: it is enough that
lists are complete and that an equal fingerprint rules out a difference. -/

namespace Rbsr

open Sorted

variable {α ι : Type}

/-- The two parties' lists: none repeats an element, and no two elements share an identifier. -/
structure Identified (A B : List α) (id : α → ι) : Prop where
  nodup_left : A.Nodup
  nodup_right : B.Nodup
  inj : ∀ x ∈ A ++ B, ∀ y ∈ A ++ B, id x = id y → x = y

theorem Identified.symm {A B : List α} {id : α → ι} (h : Identified A B id) : Identified B A id :=
  ⟨h.nodup_right, h.nodup_left, fun x hx y hy => h.inj x (by simpa [or_comm] using hx) y
    (by simpa [or_comm] using hy)⟩

variable [LinearOrder α]

/-! ### Open ranges -/

section
variable {A : List α} {id : α → ι}

theorem Flush.open_iff {last l p : α} {fl rs : List (Range α ι)} (h : Flush last l fl) :
    Open last (fl ++ rs) p ↔ Open l rs p := by
  cases h <;> rfl

theorem Buckets.open_iff {n : ℕ} {l u p : α} {rs out : List (Range α ι)} (h : Buckets A n l u rs) :
    Open l (rs ++ out) p ↔ l ≤ p ∧ p < u ∨ Open u out p := by
  induction h with
  | last => rfl
  | @cons l m u rs hle _ _ hb ih =>
    rw [List.cons_append, Open, ih, ← or_assoc]
    · refine or_congr_left ⟨?_, fun hp => ?_⟩
      · rintro (hp | hp)
        · exact ⟨hp.1, hp.2.trans_le hb.le⟩
        · exact ⟨hle.trans hp.1, hp.2⟩
      · rcases lt_or_ge p m with hm | hm
        · exact .inl ⟨hp.1, hm⟩
        · exact .inr ⟨hm, hp.2⟩
    · simp

theorem Split.open_iff {l u : α} {rs : List (Range α ι)} (h : Split A id l u rs) (p : α) (out : List (Range α ι)) :
    Open l (rs ++ out) p ↔ l ≤ p ∧ p < u ∨ Open u out p := by
  cases h with
  | idList => rfl
  | buckets hb => exact hb.open_iff

end

/-! ### Reports -/

/-- `cmp` finds what two lists without repetition do not share. -/
structure Compares [DecidableEq ι] (id : α → ι) (cmp : List ι → List α → List ι × List ι) : Prop where
  haves : ∀ ids own, ids.Nodup → (own.map id).Nodup → ∀ x,
    (cmp ids own).1.count x = if x ∈ own.map id ∧ x ∉ ids then 1 else 0
  needs : ∀ ids own, ids.Nodup → (own.map id).Nodup → ∀ x,
    (cmp ids own).2.count x = if x ∈ ids ∧ x ∉ own.map id then 1 else 0

section
variable [DecidableEq ι] {A B : List α} {id : α → ι} {top : α} {cmp : List ι → List α → List ι × List ι}
  {client limited lossy idle : Prop}

omit [DecidableEq ι] in
theorem Identified.nodup_map (h : Identified A B id) (l u : α) : ((within A l u).map id).Nodup := by
  refine List.Nodup.map_on (fun x hx y hy hxy => ?_) (h.nodup_left.filter _)
  exact h.inj x (by simp [(mem_within.mp hx).1]) y (by simp [(mem_within.mp hy).1]) hxy

/-- `x` identifies an element of `[l, u)` that is in `A` only. -/
def Only (A B : List α) (id : α → ι) (l u : α) (x : ι) : Prop :=
  ∃ p, (p ∈ A ∧ p ∉ B) ∧ (l ≤ p ∧ p < u) ∧ id p = x

omit [DecidableEq ι] in
theorem Identified.only_iff (h : Identified A B id) {l u : α} {x : ι} :
    Only A B id l u x ↔ x ∈ (within A l u).map id ∧ x ∉ (within B l u).map id := by
  simp only [Only, List.mem_map, mem_within]
  constructor
  · rintro ⟨p, ⟨hA, hB⟩, hp, rfl⟩
    refine ⟨⟨p, ⟨hA, hp⟩, rfl⟩, ?_⟩
    rintro ⟨y, ⟨hy, -⟩, hyp⟩
    exact hB (h.inj y (by simp [hy]) p (by simp [hA]) hyp ▸ hy)
  · rintro ⟨⟨p, ⟨hA, hp⟩, rfl⟩, hx⟩
    exact ⟨p, ⟨hA, fun hB => hx ⟨p, ⟨hB, hp⟩, rfl⟩⟩, hp, rfl⟩

omit [DecidableEq ι] in
theorem Identified.only_of_mem (h : Identified A B id) {l u p : α} (hA : p ∈ A) (hB : p ∉ B) :
    Only A B id l u (id p) ↔ l ≤ p ∧ p < u := by
  constructor
  · rintro ⟨y, ⟨hy, -⟩, hyu, hyp⟩
    exact h.inj y (by simp [hy]) p (by simp [hA]) hyp ▸ hyu
  · intro hp
    exact ⟨p, ⟨hA, hB⟩, hp, rfl⟩

omit [DecidableEq ι] in
theorem Identified.not_only (h : Identified A B id) {l u p : α} (hA : p ∈ A) : ¬ Only B A id l u (id p) := by
  rintro ⟨y, ⟨hy, hyA⟩, -, hyp⟩
  exact hyA (h.inj y (by simp [hy]) p (by simp [hA]) hyp ▸ hA)

open Classical in
/-- What is reported on a list of identifiers: the differences in its window, once each. -/
theorem Compares.count_window (hcmp : Compares id cmp) (hid : Identified A B id) {l u : α} {h n : List ι}
    (hc : cmp ((within B l u).map id) (within A l u) = (h, n)) (x : ι) :
    h.count x = (if Only A B id l u x then 1 else 0) ∧ n.count x = if Only B A id l u x then 1 else 0 := by
  have hh := hcmp.haves _ _ (hid.symm.nodup_map l u) (hid.nodup_map l u) x
  have hn := hcmp.needs _ _ (hid.symm.nodup_map l u) (hid.nodup_map l u) x
  rw [hc] at hh hn
  exact ⟨hh.trans (if_congr hid.only_iff.symm rfl rfl), hn.trans (if_congr hid.symm.only_iff.symm rfl rfl)⟩

/-- Where lists are complete, everything reported is a difference. -/
theorem Reply.reported_of {started : Prop} {last l : α} {q out : List (Range α ι)} {hs ns : List ι}
    {c : List (Comparison α)} {d : Option (Drop α)} (hid : Identified A B id) (hcmp : Compares id cmp)
    (h : Reply A id top cmp client limited started last l q out hs ns c d) (hq : Listed B id l q) :
    (∀ x ∈ hs, ∃ p, (p ∈ A ∧ p ∉ B) ∧ id p = x) ∧ (∀ x ∈ ns, ∃ p, (p ∈ B ∧ p ∉ A) ∧ id p = x) := by
  induction h with
  | done => simp
  | skip _ ih => exact ih hq
  | agree _ ih => exact ih hq
  | split _ _ _ ih => exact ih hq
  | cutSplit _ _ => simp
  | answer _ _ _ ih => exact ih hq.2
  | cutAnswer _ _ _ _ _ _ => simp
  | @report _ _ l u ids _ _ h n _ _ _ _ _ hc _ ih =>
    obtain ⟨rfl, hr⟩ := hq
    obtain ⟨ihh, ihn⟩ := ih hr
    refine ⟨fun x hx => ?_, fun x hx => ?_⟩
    · rcases List.mem_append.mp hx with hx | hx
      · by_contra hne
        have := (hcmp.count_window hid hc x).1
        rw [if_neg fun ⟨p, hp, _, hpx⟩ => hne ⟨p, hp, hpx⟩, List.count_eq_zero] at this
        exact this hx
      · exact ihh x hx
    · rcases List.mem_append.mp hx with hx | hx
      · by_contra hne
        have := (hcmp.count_window hid hc x).2
        rw [if_neg fun ⟨p, hp, _, hpx⟩ => hne ⟨p, hp, hpx⟩, List.count_eq_zero] at this
        exact this hx
      · exact ihn x hx

omit [DecidableEq ι] in
theorem Honest.listed {l : α} {q : List (Range α ι)} (h : Honest B A id top lossy idle l q) : Listed B id l q := by
  induction h with
  | nil => trivial
  | tail _ _ _ => trivial
  | skip _ _ ih => exact ih
  | fingerprint _ _ _ ih => exact ih
  | idList _ _ _ ih => exact ⟨rfl, ih⟩

/-- Everything reported is a difference. -/
theorem Reply.reported {started : Prop} {last l : α} {q out : List (Range α ι)} {hs ns : List ι}
    {c : List (Comparison α)} {d : Option (Drop α)} (hid : Identified A B id) (hcmp : Compares id cmp)
    (h : Reply A id top cmp client limited started last l q out hs ns c d)
    (hq : Honest B A id top lossy idle l q) :
    (∀ x ∈ hs, ∃ p, (p ∈ A ∧ p ∉ B) ∧ id p = x) ∧ (∀ x ∈ ns, ∃ p, (p ∈ B ∧ p ∉ A) ∧ id p = x) :=
  h.reported_of hid hcmp hq.listed

omit [DecidableEq ι] in
/-- Only the client reports. -/
theorem Reply.silent {started : Prop} {last l : α} {q out : List (Range α ι)} {hs ns : List ι}
    {c : List (Comparison α)} {d : Option (Drop α)}
    (h : Reply A id top cmp client limited started last l q out hs ns c d) (hclient : ¬ client) : hs = [] ∧ ns = [] := by
  induction h with
  | report hc _ _ _ => exact absurd hc hclient
  | done => exact ⟨rfl, rfl⟩
  | cutSplit _ _ => exact ⟨rfl, rfl⟩
  | cutAnswer _ _ _ _ _ _ => exact ⟨rfl, rfl⟩
  | skip _ ih => exact ih
  | agree _ ih => exact ih
  | split _ _ _ ih => exact ih
  | answer _ _ _ ih => exact ih

/-- An element that one of the parties lacks. -/
def Differs (A B : List α) (p : α) : Prop := p ∈ A ∧ p ∉ B ∨ p ∈ B ∧ p ∉ A

omit [LinearOrder α] in
theorem Differs.symm {A B : List α} {p : α} (h : Differs A B p) : Differs B A p := Or.symm h

theorem Compares.count_differs (hcmp : Compares id cmp) (hid : Identified A B id) {l u p : α} {h n : List ι}
    (hc : cmp ((within B l u).map id) (within A l u) = (h, n)) (hp : Differs A B p) :
    h.count (id p) + n.count (id p) = if l ≤ p ∧ p < u then 1 else 0 := by
  obtain ⟨hh, hn⟩ := hcmp.count_window hid hc (id p)
  rw [hh, hn]
  rcases hp with hp | hp
  · simp only [hid.not_only hp.1, hid.only_of_mem hp.1 hp.2, if_false, Nat.add_zero]
  · simp only [hid.symm.not_only hp.1, hid.symm.only_of_mem hp.1 hp.2, if_false, Nat.zero_add]

omit [DecidableEq ι] in
/-- Where both hold the same identifiers there is no difference. -/
theorem Identified.no_differs (hid : Identified A B id) {l u p : α}
    (heq : ∀ x, x ∈ (within B l u).map id ↔ x ∈ (within A l u).map id) (hp : Differs A B p) : ¬ (l ≤ p ∧ p < u) := by
  intro hpu
  rcases hp with hp | hp
  · obtain ⟨h1, h2⟩ := hid.only_iff.mp ((hid.only_of_mem hp.1 hp.2).mpr hpu)
    exact h2 ((heq _).mpr h1)
  · obtain ⟨h1, h2⟩ := hid.symm.only_iff.mp ((hid.symm.only_of_mem hp.1 hp.2).mpr hpu)
    exact h2 ((heq _).mp h1)

omit [DecidableEq ι] in
/-- Where fingerprints agree and the identifiers are then the same, there is no difference. -/
theorem Honest.agree_closed {l u p : α} {X : List α} {rs : List (Range α ι)} (hid : Identified A B id)
    (h : Honest B A id top False idle l (⟨u, .fingerprint X⟩ :: rs))
    (heq : ∀ x, x ∈ X.map id ↔ x ∈ (within A l u).map id) (hp : Differs A B p) : ¬ (l ≤ p ∧ p < u) := by
  obtain ⟨-, -, ⟨rfl, -⟩ | ⟨rfl, -, b, hlb, hb, rfl, hx⟩⟩ := h.of_fingerprint
  · exact hid.no_differs heq hp
  · -- a fingerprint over `[b, top)` agrees: nothing of `A`, hence nothing of `B`, is below `b`
    have hsub : ∀ y ∈ within A l u, b ≤ y ∧ y ∈ B := by
      intro y hy
      obtain ⟨z, hz, hzy⟩ := List.mem_map.mp ((heq (id y)).mpr (List.mem_map_of_mem hy))
      rw [mem_within] at hz hy
      obtain rfl := hid.inj z (by simp [hz.1]) y (by simp [hy.1]) hzy
      exact ⟨hz.2.1, hz.1⟩
    have hlow : within B l b = [] := by
      refine hx.elim False.elim fun hx => hx.resolve_right fun hne => ?_
      obtain ⟨y, hy⟩ := List.exists_mem_of_ne_nil _ hne
      rw [mem_within] at hy
      exact absurd hy.2.2 (not_lt_of_ge (hsub y (mem_within.mpr ⟨hy.1, hy.2.1, hy.2.2.trans_le hb⟩)).1)
    intro hpu
    rcases hp with hp | hp
    · exact hp.2 (hsub p (mem_within.mpr ⟨hp.1, hpu⟩)).2
    · have hbp : b ≤ p := by
        by_contra hlt
        exact List.ne_nil_of_mem (mem_within.mpr ⟨hp.1, hpu.1, not_le.mp hlt⟩) hlow
      obtain ⟨y, hy, hyp⟩ := List.mem_map.mp ((heq (id p)).mp (List.mem_map_of_mem
        (mem_within.mpr ⟨hp.1, hbp, hpu.2⟩)))
      rw [mem_within] at hy
      exact hp.2 (hid.inj y (by simp [hy.1]) p (by simp [hp.1]) hyp ▸ hy.1)

/-- The fingerprints compared are equal only if they are over the same identifiers. -/
def Comparison.SameIds (id : α → ι) (x : Comparison α) : Prop :=
  x.agree = true → ∀ i, i ∈ x.theirs.map id ↔ i ∈ x.ours.map id

/-- What a range says of `p`: a list holds all identifiers, and an equal fingerprint leaves no room for it. -/
def Tells (A B : List α) (id : α → ι) (p l u : α) : Payload α ι → Prop
  | .skip => True
  | .fingerprint X => (∀ x, x ∈ X.map id ↔ x ∈ (within A l u).map id) → ¬ (l ≤ p ∧ p < u)
  | .idList ids => ids = (within B l u).map id

/-- No difference is lost: where fingerprints agree only on equal identifiers, it is reported or
in an open range of the reply. -/
theorem Reply.covered_of {started : Prop} {last l p : α} {q out : List (Range α ι)} {hs ns : List ι}
    {c : List (Comparison α)} {d : Option (Drop α)} (hid : Identified A B id) (hcmp : Compares id cmp)
    (h : Reply A id top cmp client limited started last l q out hs ns c d) (hspans : Spans top l q)
    (hq : Each (Tells A B id p) l q) (hle : last ≤ l) (hc : ∀ x ∈ c, x.SameIds id) (hp : Differs A B p)
    (hopen : Open l q p) : id p ∈ hs ∨ id p ∈ ns ∨ Open last out p := by
  induction h with
  | done => exact hopen.elim
  | skip _ ih => exact ih hspans.2 hq.2 (hle.trans hspans.1.1) hc hopen
  | agree _ ih =>
    refine ih hspans.2 hq.2 (hle.trans hspans.1.1) (fun x hx => hc x (List.mem_cons_of_mem _ hx)) (hopen.resolve_left ?_)
    exact hq.1 (hc _ List.mem_cons_self rfl)
  | split hf hsp _ ih =>
    rw [hf.open_iff, hsp.open_iff]
    rcases hopen with hopen | hopen
    · exact .inr (.inr (.inl hopen))
    · exact (ih hspans.2 hq.2 le_rfl (fun x hx => hc x (List.mem_cons_of_mem _ hx)) hopen).imp_right
        (Or.imp_right .inr)
  | cutSplit _ _ =>
    exact .inr (.inr (.inl ⟨hle.trans (hspans.le_of_open hopen), hspans.lt_top_of_open hopen⟩))
  | @report _ _ l u ids _ _ h n _ _ _ _ _ hcu _ ih =>
    obtain ⟨hids, hr⟩ := hq
    dsimp only [Tells] at hids
    subst hids
    have hcount := hcmp.count_differs hid hcu hp
    rw [List.mem_append, List.mem_append]
    rcases hopen with hopen | hopen
    · rw [if_pos hopen] at hcount
      rcases Nat.eq_zero_or_pos (h.count (id p)) with hz | hpos
      · exact .inr (.inl (.inl (List.count_pos_iff.mp (by omega))))
      · exact .inl (.inl (List.count_pos_iff.mp hpos))
    · exact (ih hspans.2 hr (hle.trans hspans.1.1) hc hopen).imp .inr (Or.imp_left .inr)
  | answer _ hf _ ih =>
    rw [hf.open_iff]
    rcases hopen with hopen | hopen
    · exact .inr (.inr (.inl hopen))
    · exact (ih hspans.2 hq.2 le_rfl hc hopen).imp_right (Or.imp_right .inr)
  | @cutAnswer _ _ _ _ v _ _ _ _ _ hf _ _ _ =>
    rw [hf.open_iff]
    have h1 := hspans.le_of_open hopen
    have h2 := hspans.lt_top_of_open hopen
    rcases lt_or_ge p v with hv | hv
    · exact .inr (.inr (.inl ⟨h1, hv⟩))
    · exact .inr (.inr (.inr (.inl ⟨hv, h2⟩)))

omit [DecidableEq ι] in
theorem Honest.tells {l p : α} {q : List (Range α ι)} (hid : Identified A B id) (h : Honest B A id top False idle l q)
    (hp : Differs A B p) : Each (Tells A B id p) l q := by
  induction q generalizing l with
  | nil => trivial
  | cons r q ih =>
    obtain ⟨u, payload⟩ := r
    cases payload with
    | skip => exact ⟨trivial, ih h.of_skip.2⟩
    | fingerprint X => exact ⟨fun heq => h.agree_closed hid heq hp, ih h.of_fingerprint.2.1⟩
    | idList ids => exact ⟨h.of_idList.2.2.1, ih h.of_idList.2.1⟩

omit [DecidableEq ι] in
/-- So do fingerprints over all elements of their ranges and complete lists. -/
theorem Truthful.tells {l p : α} {q : List (Range α ι)} (hid : Identified A B id) (h : Truthful B l q)
    (hlisted : Listed B id l q) (hp : Differs A B p) : Each (Tells A B id p) l q := by
  induction q generalizing l with
  | nil => trivial
  | cons r q ih =>
    obtain ⟨u, payload⟩ := r
    cases payload with
    | skip => exact ⟨trivial, ih h hlisted⟩
    | fingerprint X =>
      obtain ⟨rfl, h⟩ := h
      exact ⟨fun heq => hid.no_differs heq hp, ih h hlisted⟩
    | idList ids => exact ⟨hlisted.1, ih h hlisted.2⟩

theorem Reply.covered {started : Prop} {last l p : α} {q out : List (Range α ι)} {hs ns : List ι}
    {c : List (Comparison α)} {d : Option (Drop α)} (hid : Identified A B id) (hcmp : Compares id cmp)
    (h : Reply A id top cmp client limited started last l q out hs ns c d)
    (hq : Honest B A id top False idle l q) (hle : last ≤ l)
    (hc : ∀ x ∈ c, x.SameIds id) (hp : Differs A B p) (hopen : Open l q p) : id p ∈ hs ∨ id p ∈ ns ∨ Open last out p :=
  h.covered_of hid hcmp hq.spans (hq.tells hid hp) hle hc hp hopen

open Classical in
/-- One if the element is in an open range. -/
noncomputable def pending (l : α) (rs : List (Range α ι)) (p : α) : ℕ := if Open l rs p then 1 else 0

omit [DecidableEq ι] in
theorem pending_le {l l' p : α} {rs rs' : List (Range α ι)} {P : Prop} [Decidable P]
    (h : Open l rs p ↔ P ∨ Open l' rs' p) : pending l rs p ≤ (if P then 1 else 0) + pending l' rs' p := by
  simp only [pending, h]
  split <;> split <;> simp_all

omit [DecidableEq ι] in
/-- The first of several ranges in order is disjoint from the others. -/
theorem Spans.le_pending {l u : α} {pl : Payload α ι} {rs : List (Range α ι)} (hspans : Spans top l (⟨u, pl⟩ :: rs)) (p : α)
    (h : Open l (⟨u, pl⟩ :: rs) p ↔ l ≤ p ∧ p < u ∨ Open u rs p) :
    (if l ≤ p ∧ p < u then 1 else 0) + pending u rs p ≤ pending l (⟨u, pl⟩ :: rs) p := by
  have hrest : Spans top u rs := hspans.2
  have hdisj : l ≤ p ∧ p < u → ¬ Open u rs p := fun hpu ho => not_le_of_gt hpu.2 (hrest.le_of_open ho)
  simp only [pending, h]
  split <;> split <;> simp_all

/-- On a list of identifiers nothing is reported that is not in its window, and nothing twice. -/
theorem Compares.count_le (hcmp : Compares id cmp) (hid : Identified A B id) {l u p : α} {h n : List ι}
    (hc : cmp ((within B l u).map id) (within A l u) = (h, n)) (hp : ∀ x ∈ A ++ B, id x = id p → x = p) :
    h.count (id p) + n.count (id p) ≤ if l ≤ p ∧ p < u then 1 else 0 := by
  have hwindow : ∀ {C D : List α}, C ⊆ A ++ B → Only C D id l u (id p) → l ≤ p ∧ p < u := by
    rintro C D hC ⟨x, ⟨hx, -⟩, hxu, hxp⟩
    exact hp x (hC hx) hxp ▸ hxu
  have hdisj : Only A B id l u (id p) → ¬ Only B A id l u (id p) := fun h h' =>
    (hid.symm.only_iff.mp h').2 (hid.only_iff.mp h).1
  obtain ⟨hh, hn⟩ := hcmp.count_window hid hc (id p)
  rw [hh, hn]
  by_cases h1 : Only A B id l u (id p)
  · rw [if_pos h1, if_neg (hdisj h1), if_pos (hwindow (List.subset_append_left A B) h1)]
  · rw [if_neg h1, Nat.zero_add]
    by_cases h2 : Only B A id l u (id p)
    · rw [if_pos h2, if_pos (hwindow (List.subset_append_right A B) h2)]
    · rw [if_neg h2]
      exact Nat.zero_le _

/-- Without limits an identifier is not reported twice, nor reported and left open. -/
theorem Reply.once_of {started : Prop} {last l p : α} {q out : List (Range α ι)} {hs ns : List ι}
    {c : List (Comparison α)} {d : Option (Drop α)} (hid : Identified A B id) (hcmp : Compares id cmp) (hlim : ¬ limited)
    (h : Reply A id top cmp client limited started last l q out hs ns c d) (hspans : Spans top l q)
    (hq : Listed B id l q) (hp : ∀ x ∈ A ++ B, id x = id p → x = p) :
    hs.count (id p) + ns.count (id p) + pending last out p ≤ pending l q p := by
  induction h with
  | done => simp [pending, Open]
  | skip _ ih => exact ih hspans.2 hq
  | @agree _ _ l _ X _ _ _ _ _ _ _ ih =>
    have hle := hspans.le_pending p Iff.rfl
    have := ih hspans.2 hq
    omega
  | @split _ _ l u X _ _ _ out _ _ _ _ hf hsp _ ih =>
    have hle := hspans.le_pending p Iff.rfl
    have hout := pending_le (hf.open_iff.trans (hsp.open_iff p out))
    have := ih hspans.2 hq
    omega
  | cutSplit hl _ => exact absurd hl hlim
  | @report _ _ l u ids _ _ _ _ _ _ _ _ _ hcu _ ih =>
    obtain ⟨rfl, hr⟩ := hq
    have hle := hspans.le_pending p Iff.rfl
    have hcount := hcmp.count_le hid hcu hp
    have := ih hspans.2 hr
    simp only [List.count_append]
    omega
  | @answer _ _ l u ids _ _ out _ _ _ _ _ hf _ ih =>
    have hle := hspans.le_pending p Iff.rfl
    have hout := pending_le (hf.open_iff.trans
      (Iff.rfl : Open l (⟨u, .idList ((within A l u).map id)⟩ :: out) p ↔ _))
    have := ih hspans.2 hq.2
    omega
  | cutAnswer _ hl _ _ _ _ => exact absurd hl hlim

/-- Without limits a difference is not reported twice, nor reported and left open. -/
theorem Reply.once {started : Prop} {last l p : α} {q out : List (Range α ι)} {hs ns : List ι}
    {c : List (Comparison α)} {d : Option (Drop α)} (hid : Identified A B id) (hcmp : Compares id cmp) (hlim : ¬ limited)
    (h : Reply A id top cmp client limited started last l q out hs ns c d)
    (hq : Honest B A id top lossy idle l q) (hp : Differs A B p) :
    hs.count (id p) + ns.count (id p) + pending last out p ≤ pending l q p := by
  refine h.once_of hid hcmp hlim hq.spans hq.listed fun x hx hxp => hid.inj x hx p ?_ hxp
  exact List.mem_append.mpr (hp.imp And.left And.left)

end

end Rbsr
