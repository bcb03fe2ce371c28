import Negentropy.Calls
import Negentropy.Lib.Rbsr.Coverage
import Negentropy.Truthful

/-! What a reply leaves out. A point of the key space is skipped in a reply only if the query
settled it: it was skipped there, or under a fingerprint that equals the party's own, or under
a list of ids that the initiator has compared. -/

namespace NE

open Sorted Stateful Negentropy

/-- The range, from `l` on, needs no answer. -/
def Settles (P : Party) {φ : Type} (same : φ → Window → Bool) (l : Item) (r : Range φ) : Prop :=
  match r.payload with
  | .skip => True
  | .fingerprint f => same f ⟨lowerBound P.items l, lowerBound P.items r.bound.item⟩ = true
  | .idList _ => P.isInitiator = true

/-- `p` is in such a range, or behind the last range. -/
def Settled (P : Party) {φ : Type} (same : φ → Window → Bool) : Item → List (Range φ) → Item → Prop
  | l, [], p => l ≤ p
  | l, r :: q, p => l ≤ p ∧ p < r.bound.item ∧ Settles P same l r ∨ Settled P same r.bound.item q p

namespace Party

variable {φ : Type} {P : Party}

/-- Behind all ranges nothing is left to answer. -/
theorem settled_of_le {same : φ → Window → Bool} {q : List (Range φ)} {l p : Item} (hl : l ≤ p)
    (hq : ∀ r ∈ q, r.bound.item ≤ p) : Settled P same l q p := by
  induction q generalizing l with
  | nil => exact hl
  | cons r q ih => exact .inr (ih (hq r List.mem_cons_self) fun r' hr' => hq r' (List.mem_cons_of_mem _ hr'))

/-- Where what the party has written ends. -/
def Answer.reached (P : Party) (st : Answer φ) : Item := Rbsr.endOf bot (abstract P.elems st.out)

/-- What one range of a query does to the reply: nothing, as it is settled; or ranges that answer
it are added, behind the pending skip range; or these end the message. -/
inductive Extends (P : Party) (same : φ → Window → Bool) (st : Answer φ) (r : Range φ) : Answer φ × Bool → Prop
  | quiet {st'} : Settles P same st.prevBound.item r → st'.out = st.out → P.Ready st' → st'.prevBound = r.bound →
      Extends P same st r (st', false)
  | more {st' fl body} : Rbsr.Flush (st.reached P) st.prevBound.item fl →
      Rbsr.Solid st.prevBound.item r.bound.item body → abstract P.elems st'.out = abstract P.elems st.out ++ (fl ++ body) →
      st'.skip = false → P.Ready st' → st'.prevBound = r.bound → Extends P same st r (st', false)
  | last {st' l fl body} : Rbsr.Flush (st.reached P) l fl → st.reached P ≤ l → l ≤ st.prevBound.item →
      (r.bound.item ≤ top → Rbsr.Solid l top body) → abstract P.elems st'.out = abstract P.elems st.out ++ (fl ++ body) → Extends P same st r (st', true)

section
variable (hsorted : P.items.Pairwise (· < ·)) {same : φ → Window → Bool} {st : Answer φ} (hst : P.Ready st)
  (hreach : st.reached P ≤ st.prevBound.item)
include hsorted hst

include hreach in
theorem extends_split {bound : Bound} (hle : st.prevBound.item ≤ bound.item) {f : φ}
    (hsame : same f ⟨st.prevIndex, lowerBound P.items bound.item⟩ = false) :
    P.Extends same st ⟨bound, .fingerprint f⟩ (P.answer same st ⟨bound, .fingerprint f⟩) := by
  have hsplit := (splitRange_split hsorted hle).solid hle
  rw [← hst.prevIndex] at hsplit
  rw [answer_different hsame, finishRange]
  split
  · refine .last .none le_rfl hreach (fun htop => ?_) (abstract_append _ _ _)
    exact .one (hreach.trans (hle.trans htop)) (by rintro ⟨⟩)
  · next hex =>
    refine .more hst.flush hsplit ?_ rfl ⟨rfl, fun _ => ?_, Bool.eq_false_iff.mpr hex⟩ rfl
    · rw [abstract_append, abstract_append]
    · rw [abstract_append, abstract_append, Rbsr.endOf_append, Rbsr.endOf_append, hst.flush.endOf_eq, hsplit.endOf_eq]

include hreach in
theorem extends_ids {bound : Bound} (hle : st.prevBound.item ≤ bound.item)
    (hinit : P.isInitiator = false) (ids : List ItemId) :
    P.Extends same st ⟨bound, .idList ids⟩ (P.answer same st ⟨bound, .idList ids⟩) := by
  obtain ⟨-, hlv, hvu, -⟩ := endBound_between hsorted hst hle
  have hl : st.prevIndex ≤ lowerBound P.items bound.item := hst.prevIndex ▸ lowerBound_mono hsorted hle
  set stop := P.answerEnd (lowerBound P.items bound.item) st with hstop
  set sent : Range Window := ⟨P.endBound bound stop, .idList ((slice P.items st.prevIndex stop).map Item.id)⟩ with hsent
  have hans : P.answer same st ⟨bound, .idList ids⟩ = _ := answer_idList same st bound ids hinit hstop.symm
  rw [← hsent, finishRange, List.append_nil, List.append_assoc] at hans
  have hout : abstract P.elems (st.out ++ (st.flush ++ [sent])) =
      abstract P.elems st.out ++ (abstract P.elems st.flush ++ abstract P.elems [sent]) := by
    rw [abstract_append, abstract_append]
  cases hex : P.exceeded (messageSize (st.out ++ (st.flush ++ [sent]))) with
  | true =>
    rw [if_pos hex] at hans
    have hbody (htop : bound.item ≤ top) : Rbsr.Solid st.prevBound.item top (abstract P.elems [sent, P.remaining stop]) :=
      .cons hlv (by rintro ⟨⟩) (.one (hvu.trans htop) (by rintro ⟨⟩))
    rw [hans]
    refine .last hst.flush hreach le_rfl hbody ?_
    rw [abstract_append, hout, List.append_assoc, List.append_assoc]
    rfl
  | false =>
    rw [if_neg (by rw [hex]; exact Bool.false_ne_true)] at hans
    obtain ⟨-, hindex⟩ := answer_continues hl hans
    have hindex : stop = lowerBound P.items bound.item := hindex
    have hbound : P.endBound bound stop = bound := if_neg hindex.not_lt
    have hbody : Rbsr.Solid st.prevBound.item bound.item (abstract P.elems [sent]) := by
      rw [hsent, hbound]
      exact .one hle (by rintro ⟨⟩)
    rw [hans]
    refine .more hst.flush hbody hout rfl ⟨hindex, fun _ => ?_, hex⟩ rfl
    rw [hout, Rbsr.endOf_append, Rbsr.endOf_append, hst.flush.endOf_eq, hbody.endOf_eq]

include hreach in
/-- One range of the query. -/
theorem answer_extends (r : Range φ) (hle : st.prevBound.item ≤ r.bound.item) :
    P.Extends same st r (P.answer same st r) := by
  have hquiet : ∀ f : Answer φ → Answer φ, (f st).out = st.out → (f st).skip = true → Settles P same st.prevBound.item r →
      P.Extends same st r (P.finishRange r.bound (lowerBound P.items r.bound.item) [] (f st)) := by
    intro f hout hskip hsettles
    rw [hst.finishRange_nil r.bound _ f hout]
    refine .quiet hsettles hout ⟨rfl, fun h => absurd (hskip.symm.trans h) nofun, ?_⟩ rfl
    rw [hout]
    exact hst.fits
  obtain ⟨bound, payload⟩ := r
  cases payload with
  | skip => exact hquiet (fun st => { st with skip := true }) rfl rfl trivial
  | fingerprint f =>
    cases hsame : same f ⟨st.prevIndex, lowerBound P.items bound.item⟩ with
    | true =>
      rw [answer_same hsame]
      rw [hst.prevIndex] at hsame
      exact hquiet (fun st => { st with skip := true, compared := st.compared ++ [_] }) rfl rfl hsame
    | false => exact extends_split hsorted hst hreach hle hsame
  | idList ids =>
    cases hinit : P.isInitiator with
    | true =>
      rw [answer_report same st bound ids hinit]
      exact hquiet (fun st => { st with
        skip := true
        haveIds := st.haveIds ++ (compare ids (slice P.items st.prevIndex (lowerBound P.items bound.item))).1
        needIds := st.needIds ++ (compare ids (slice P.items st.prevIndex (lowerBound P.items bound.item))).2 }) rfl rfl hinit
    | false => exact extends_ids hsorted hst hreach hle hinit ids

include hreach in
/-- All ranges of a query. -/
theorem answers_extend {q : List (Range φ)} (hq : Rbsr.Ascending st.prevBound.item (abstract (fun _ => []) q))
    (htop : ∀ r ∈ q, r.bound.item ≤ top) (hprev : st.prevBound.item ≤ top) :
    ∃ out, abstract P.elems (P.answers same q st).out = abstract P.elems st.out ++ out ∧
      Rbsr.Ascending (st.reached P) out ∧ Rbsr.Tidy out ∧
      ∀ p, Rbsr.Skips (st.reached P) out p →
        st.reached P ≤ p ∧ p < st.prevBound.item ∨ Settled P same st.prevBound.item q p := by
  induction q generalizing st with
  | nil =>
    refine ⟨[], (List.append_nil _).symm, trivial, trivial, fun p hp => ?_⟩
    exact (lt_or_ge p st.prevBound.item).imp (⟨hp, ·⟩) id
  | cons r q ih =>
    obtain ⟨hle, hq⟩ := hq
    dsimp only at hle hq
    have hr := htop r List.mem_cons_self
    have hext : P.Extends same st r (P.answer same st r) := answer_extends hsorted hst hreach r hle
    rw [answers]
    cases hans : P.answer same st r with
    | mk st' stop =>
      rw [hans] at hext
      cases hext with
      | quiet hsettles hout hready hbound =>
        have hreach' : st'.reached P = st.reached P := by rw [Answer.reached, hout]; rfl
        obtain ⟨out, hadd, hasc, htidy, hskips⟩ := ih hready (by rw [hreach', hbound]; exact hreach.trans hle)
          (by rwa [hbound]) (fun r' hr' => htop r' (List.mem_cons_of_mem _ hr')) (by rwa [hbound])
        rw [hreach'] at hasc hskips
        refine ⟨out, by rw [hadd, hout], hasc, htidy, fun p hp => ?_⟩
        rw [hbound] at hskips
        rcases hskips p hp with ⟨hlo, hhi⟩ | hrest
        · exact (lt_or_ge p st.prevBound.item).imp (⟨hlo, ·⟩) fun hge => .inl ⟨hge, hhi, hsettles⟩
        · exact .inr (.inr hrest)
      | @more _ fl body hflush hbody hout hskip hready hbound =>
        have hreach' : st'.reached P = r.bound.item := (hready.written hskip).trans (congrArg Bound.item hbound)
        obtain ⟨out, hadd, hasc, htidy, hskips⟩ := ih hready (by rw [hreach', hbound])
          (by rwa [hbound]) (fun r' hr' => htop r' (List.mem_cons_of_mem _ hr')) (by rwa [hbound])
        rw [hreach'] at hasc hskips
        refine ⟨fl ++ (body ++ out), ?_, hflush.ascending_append hreach (hbody.ascending_append hasc),
          hflush.tidy_append hbody htidy, fun p hp => ?_⟩
        · rw [hadd, hout, List.append_assoc, List.append_assoc]
        · rcases hp.of_flush hflush with hpending | hp
          · exact .inl hpending
          · rcases hskips p (hp.of_solid hbody) with ⟨hlo, hhi⟩ | hrest
            · rw [hbound] at hhi
              exact absurd (hlo.trans_lt hhi) (lt_irrefl _)
            · rw [hbound] at hrest
              exact .inr (.inr hrest)
      | @last _ l fl body hflush hlast hl hbody hout =>
        have hbody := hbody hr
        refine ⟨fl ++ body, hout, ?_, ?_, fun p hp => ?_⟩
        · simpa using hflush.ascending_append hlast (hbody.ascending_append (show Rbsr.Ascending top [] from trivial))
        · simpa using hflush.tidy_append hbody (show Rbsr.Tidy [] from trivial)
        · rcases hp.of_flush hflush with ⟨hlo, hhi⟩ | hp
          · exact .inl ⟨hlo, hhi.trans_le hl⟩
          · have htopp : Rbsr.Skips top [] p := .of_solid hbody (by simpa using hp)
            exact .inr (settled_of_le (hprev.trans htopp) fun r' hr' => (htop r' hr').trans htopp)

end

/-! ### Lists of ids are of the party's own -/

section
variable (hlen : P.items.length < 2 ^ 64) {same : φ → Window → Bool}
include hlen

theorem slice_fits (b e : ℕ) : ((slice P.items b e).map Item.id).length < 2 ^ 64 := by
  rw [List.length_map, slice, List.length_take, List.length_drop]
  omega

omit hlen in
theorem splitBuckets_fits (upper : ℕ) (upperBound : Bound) (itemsPerBucket bucketsWithExtra remaining curr : ℕ) :
    ∀ r ∈ P.splitBuckets upper upperBound itemsPerBucket bucketsWithExtra remaining curr, r.payload.Fits := by
  induction remaining generalizing curr with
  | zero => exact fun r hr => absurd hr List.not_mem_nil
  | succ remaining ih =>
    intro r hr
    rcases List.mem_cons.mp hr with rfl | hr
    · trivial
    · exact ih _ r hr

theorem splitRange_fits (lower upper : ℕ) (upperBound : Bound) :
    ∀ r ∈ P.splitRange lower upper upperBound, r.payload.Fits := by
  intro r hr
  by_cases hn : upper - lower < Negentropy.buckets * 2
  · rw [splitRange, if_pos hn] at hr
    rw [List.mem_singleton.mp hr]
    exact slice_fits hlen lower upper
  · rw [splitRange, if_neg hn] at hr
    exact splitBuckets_fits _ _ _ _ _ _ r hr

omit hlen in
theorem finishRange_fits {currBound : Bound} {upper : ℕ} {o : List (Range Window)} {st : Answer φ}
    (hst : ∀ r ∈ st.out, r.payload.Fits) (ho : ∀ r ∈ o, r.payload.Fits) :
    ∀ r ∈ (P.finishRange currBound upper o st).1.out, r.payload.Fits := by
  unfold finishRange
  split
  · intro r hr
    rcases List.mem_append.mp hr with hr | hr
    · exact hst r hr
    · rw [List.mem_singleton.mp hr]
      trivial
  · intro r hr
    exact (List.mem_append.mp hr).elim (hst r) (ho r)

omit hlen in
theorem flush_fits (st : Answer φ) : ∀ r ∈ st.flush, r.payload.Fits := by
  intro r hr
  unfold Answer.flush at hr
  split at hr
  · rw [List.mem_singleton.mp hr]
    trivial
  · exact absurd hr List.not_mem_nil

theorem answer_fits {st : Answer φ} (r : Range φ) (hst : ∀ r ∈ st.out, r.payload.Fits) :
    ∀ r' ∈ (P.answer same st r).1.out, r'.payload.Fits := by
  have hnil : ∀ r ∈ ([] : List (Range Window)), r.payload.Fits := fun r hr => absurd hr List.not_mem_nil
  obtain ⟨bound, payload⟩ := r
  cases payload with
  | skip => exact finishRange_fits hst hnil
  | fingerprint f =>
    cases hsame : same f ⟨st.prevIndex, lowerBound P.items bound.item⟩ with
    | true =>
      rw [answer_same hsame]
      exact finishRange_fits hst hnil
    | false =>
      rw [answer_different hsame]
      refine finishRange_fits hst fun r hr => ?_
      exact (List.mem_append.mp hr).elim (flush_fits st r) (splitRange_fits hlen _ _ _ r)
  | idList ids =>
    cases hinit : P.isInitiator with
    | true =>
      rw [answer_report same st bound ids hinit]
      exact finishRange_fits hst hnil
    | false =>
      rw [answer_idList same st bound ids hinit rfl]
      refine finishRange_fits (fun r hr => ?_) hnil
      rcases List.mem_append.mp hr with hr | hr
      · exact (List.mem_append.mp hr).elim (hst r) (flush_fits st r)
      · rw [List.mem_singleton.mp hr]
        exact slice_fits hlen _ _

theorem answers_fits (q : List (Range φ)) {st : Answer φ} (hst : ∀ r ∈ st.out, r.payload.Fits) :
    ∀ r ∈ (P.answers same q st).out, r.payload.Fits := by
  induction q generalizing st with
  | nil => exact hst
  | cons r q ih =>
    have hstep : ∀ r' ∈ (P.answer same st r).1.out, r'.payload.Fits := answer_fits hlen r hst
    rw [answers]
    cases hans : P.answer same st r with
    | mk st' stop =>
      rw [hans] at hstep
      cases stop with
      | true => exact hstep
      | false => exact ih hstep

end

end Party

/-! ### Messages -/

/-- The ranges without what their fingerprints are over. -/
def outline {φ : Type} (rs : List (Range φ)) : List (Rbsr.Range Item ItemId) := abstract (fun _ => []) rs

/-- What may be said of the ranges `rs` of a reply to the ranges `q`. -/
structure Covers (P : Party) (fp : ℕ → ℕ → Fingerprint) (q rs : List (Range Fingerprint)) : Prop where
  sorted : Range.Sorted rs
  tidy : Rbsr.Tidy (outline rs)
  settled : ∀ p, Rbsr.Skips bot (outline rs) p → Settled P (sameFp fp) bot q p

theorem skips_outline {fp : ℕ → ℕ → Fingerprint} {elems : Window → List Item} {rs : List (Range Window)} {l p : Item} :
    Rbsr.Skips l (outline (render fp rs)) p ↔ Rbsr.Skips l (abstract elems rs) p := by
  induction rs generalizing l with
  | nil => rfl
  | cons r rs ih =>
    obtain ⟨bound, payload⟩ := r
    refine or_congr ?_ ih
    cases payload <;> simp [Range.map, Payload.map, Payload.abstract]

theorem tidy_outline {fp : ℕ → ℕ → Fingerprint} {elems : Window → List Item} {rs : List (Range Window)} :
    Rbsr.Tidy (outline (render fp rs)) ↔ Rbsr.Tidy (abstract elems rs) := by
  have hskip : ∀ payload : Payload Window, (payload.map (windowFp fp)).abstract (fun _ => []) = .skip ↔
      payload.abstract elems = .skip := fun payload => by cases payload <;> simp [Payload.map, Payload.abstract]
  induction rs with
  | nil => rfl
  | cons r rs ih =>
    cases rs with
    | nil => exact not_congr (hskip r.payload)
    | cons r' rs => exact and_congr (not_congr (and_congr (hskip r.payload) (hskip r'.payload))) ih

section
variable {σ : Type} [StorageBase σ] {ne : Negentropy σ} {items : List Item} {fp : ℕ → ℕ → Fingerprint}

theorem covers_reply (hs : Presents ne.storage items fp) {q : List (Range Fingerprint)} (hq : Range.Sorted q)
    (hinf : ∀ r ∈ q, r.bound.item ≤ top) :
    Encodable 0 (((ne.party items).reply (sameFp fp) q).out) ∧
      Covers (ne.party items) fp q (render fp ((ne.party items).reply (sameFp fp) q).out) := by
  have hready : (ne.party items).Ready ({} : Party.Answer Fingerprint) := Party.ready_initial ne.limit_ok hs.sorted
  have hq' : Rbsr.Ascending bot (abstract (fun _ : Fingerprint => []) q) :=
    ascending_of_sorted (List.pairwise_cons.mpr ⟨fun x _ => Bound.zero_le x, hq⟩)
  obtain ⟨out, hout, hasc, htidy, hskips⟩ := @Party.answers_extend _ (ne.party items) hs.sorted (sameFp fp) {} hready
    le_rfl q hq' hinf (Bound.zero_le _)
  have hout : abstract (ne.party items).elems ((ne.party items).reply (sameFp fp) q).out = out := hout
  subst hout
  have hfits : ∀ r ∈ ((ne.party items).reply (sameFp fp) q).out, r.payload.Fits :=
    Party.answers_fits (show (ne.party items).items.length < 2 ^ 64 from hs.length_lt) q nofun
  refine ⟨encodable_of_ordered (l := bot) hasc.ordered hfits, sorted_render fp hasc, tidy_outline.mpr htidy, fun p hp => ?_⟩
  rcases hskips p (skips_outline.mp hp) with ⟨hlo, hhi⟩ | h
  · exact absurd (hlo.trans_lt hhi) (lt_irrefl _)
  · exact h

/-- The replies to an accepted query whose bounds ascend up to infinity: well formed, and skipped
only where the query was settled. Without ranges, an initiator is done. -/
theorem replies_cover (hs : Presents ne.storage items fp) {query : Bytes} (hq : Range.Sorted (readMessage query).1)
    (hinf : ∀ r ∈ (readMessage query).1, r.bound.item ≤ top) :
    (∀ m ne', reconcile query ne = .ok m ne' →
      ∃ rs, m = message rs ∧ readMessage m = (rs, []) ∧ Covers (ne.party items) fp (readMessage query).1 rs) ∧
    (∀ m haveIds needIds ne', reconcileHaveNeed query ne = .ok (m, haveIds, needIds) ne' →
      ∃ rs, m = (if rs = [] then none else some (message rs)) ∧ readMessage (message rs) = (rs, []) ∧
        Covers (ne.party items) fp (readMessage query).1 rs) := by
  obtain ⟨henc, hcovers⟩ := covers_reply hs hq hinf
  have hread := readMessage_message (henc.render fp)
  refine ⟨fun m ne' h => ?_, fun m haveIds needIds ne' h => ⟨_, reconcileHaveNeed_ok hs hq h, hread, hcovers⟩⟩
  obtain rfl := reconcile_ok hs hq h
  exact ⟨_, rfl, hread, hcovers⟩

end

section
local instance coverageSha256 : Sha256 := SHA256.real

/-- Everything before the timestamp 1 is skipped, and no ids are said to be behind it. -/
def skippingQuery : Bytes := PROTOCOL_VERSION :: [2, 0, 0, 0, 0, 2, 0]

theorem replies_cover_skip :
    ∃ rs, PROTOCOL_VERSION :: [2, 0, 0, 0, 0, 2, 1] ++ (sampleItem 1 0).id.bytes = message rs ∧
      readMessage (PROTOCOL_VERSION :: [2, 0, 0, 0, 0, 2, 1] ++ (sampleItem 1 0).id.bytes) = (rs, []) ∧
      Covers (onlyItem.party [sampleItem 1 0]) (windowFingerprint [sampleItem 1 0]) (readMessage skippingQuery).1 rs :=
  (replies_cover (show Presents onlyItem.storage [sampleItem 1 0] (windowFingerprint [sampleItem 1 0]) from
    Storage.Vector.presents rfl (by decide) (by decide))
    (show Range.Sorted (readMessage skippingQuery).1 by unfold Range.Sorted; decide +kernel) (by decide +kernel)).1 _ _ rfl

end

end NE
