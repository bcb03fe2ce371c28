import Negentropy.Coverage

/-! The lists of ids that a party sends. Each one is about all items from where its range starts to
its bound, also when the limit cuts it short: then it ends at the first item left out. -/

namespace NE

open Sorted Stateful Negentropy

/-- Every list of ids is that of the items from where its range starts to its bound. -/
def CompleteRanges (items : List Item) : Item → List (Range Fingerprint) → Prop
  | _, [] => True
  | l, r :: rs =>
      (∀ ids, r.payload = .idList ids → ids = (within items l r.bound.item).map Item.id) ∧
        CompleteRanges items r.bound.item rs

theorem completeRanges_render {items : List Item} (fp : ℕ → ℕ → Fingerprint) {elems : Window → List Item} {l : Item}
    {rs : List (Range Window)} (h : Rbsr.Listed items Item.id l (abstract elems rs)) :
    CompleteRanges items l (render fp rs) := by
  induction rs generalizing l with
  | nil => trivial
  | cons r rs ih =>
    obtain ⟨bound, payload⟩ := r
    cases payload with
    | skip => exact ⟨nofun, ih h⟩
    | fingerprint w => exact ⟨nofun, ih h⟩
    | idList ids =>
      refine ⟨?_, ih h.2⟩
      rintro _ ⟨⟩
      exact h.1

/-- A message of fingerprints has no lists of ids, whatever its bounds. -/
theorem completeRanges_of_fingerprints {items : List Item} {l : Item} {rs : List (Range Fingerprint)}
    (h : ∀ r ∈ rs, ∃ f, r.payload = .fingerprint f) : CompleteRanges items l rs := by
  induction rs generalizing l with
  | nil => trivial
  | cons r rs ih =>
    refine ⟨fun ids hids => ?_, ih fun r' hr' => h r' (List.mem_cons_of_mem _ hr')⟩
    obtain ⟨f, hf⟩ := h r List.mem_cons_self
    rw [hf] at hids
    cases hids

/-! ### Messages that are read from another timestamp on -/

theorem readBound_shifted (last last' : UInt64) (b : Bound) (rest : Bytes) :
    ∃ b', readBound last (boundBytes last' b ++ rest) = .ok (b', rest) := by
  have hlen : (UInt64.ofNat b.idLen).toNat = b.idPrefix.length := by
    rw [b.idPrefix_length, UInt64.toNat_ofNat_of_lt' (lt_of_le_of_lt b.idLen_le (by decide))]
  have hmake : ∀ timestamp, ∃ b', Bound.make timestamp b.idPrefix = .ok b' := fun timestamp =>
    ⟨_, dif_pos (b.idPrefix_length.trans_le b.idLen_le)⟩
  simp only [readBound, boundBytes, List.append_assoc, decodeVarInt_encodeVarInt, bind, Except.bind, hlen,
    getBytes_append]
  obtain ⟨b', hb'⟩ := hmake _
  exact ⟨b', by rw [hb']; rfl⟩

theorem readRanges_shifted {rounds : ℕ} {last last' : UInt64} {rs : List (Range Fingerprint)}
    (hrs : ∀ r ∈ rs, ∃ f, r.payload = .fingerprint f) (hr : (rangesBytes last' rs).length ≤ rounds) :
    (∀ r ∈ (readRanges rounds last (rangesBytes last' rs)).1, ∃ f, r.payload = .fingerprint f) ∧
      (readRanges rounds last (rangesBytes last' rs)).2 = [] := by
  induction rs generalizing rounds last last' with
  | nil => cases rounds <;> exact ⟨nofun, rfl⟩
  | cons r rs ih =>
    obtain ⟨f, hf⟩ := hrs r List.mem_cons_self
    have hpos := List.length_pos_iff.mpr (boundBytes_ne_nil last' r.bound)
    have hne : rangesBytes last' (r :: rs) ≠ [] := by
      simp [rangesBytes, boundBytes_ne_nil]
    obtain ⟨b, hb⟩ := readBound_shifted last last' r.bound
      (payloadBytes r.payload ++ rangesBytes r.bound.item.timestamp rs)
    have hread : readRange last (rangesBytes last' (r :: rs)) =
        .ok (⟨b, .fingerprint f⟩, rangesBytes r.bound.item.timestamp rs) := by
      have hfits : (Payload.fingerprint f).Fits := trivial
      rw [hf] at hb
      simp only [readRange, rangesBytes, List.append_assoc, hf, hb, readPayload_payloadBytes hfits, bind, Except.bind,
        pure, Except.pure]
    simp only [rangesBytes, List.length_append] at hr
    cases rounds with
    | zero => omega
    | succ rounds =>
      obtain ⟨h1, h2⟩ := @ih rounds b.item.timestamp r.bound.item.timestamp (fun r' hr' => hrs r' (List.mem_cons_of_mem _ hr'))
        (by omega)
      rw [readRanges, if_neg hne, hread]
      refine ⟨fun r' hr' => ?_, h2⟩
      rcases List.mem_cons.mp hr' with rfl | hr'
      · exact ⟨f, rfl⟩
      · exact h1 r' hr'

/-! ### The reply to a list of ids -/

namespace Party

variable {φ : Type} {P : Party}

/-- The limit ends the message within these ranges. -/
def cut (P : Party) (same : φ → Window → Bool) : List (Range φ) → Answer φ → Bool
  | [], _ => false
  | r :: q, st =>
      match P.answer same st r with
      | (_, true) => true
      | (st, false) => cut P same q st

theorem answers_append {same : φ → Window → Bool} {q q' : List (Range φ)} {st : Answer φ}
    (h : P.cut same q st = false) : P.answers same (q ++ q') st = P.answers same q' (P.answers same q st) := by
  induction q generalizing st with
  | nil => rfl
  | cons r q ih =>
    rw [List.cons_append, answers, answers]
    rw [cut] at h
    cases hans : P.answer same st r with
    | mk st' stop =>
      rw [hans] at h
      cases stop with
      | true => cases h
      | false => exact ih h

/-- Between two ranges of a query the party is ready for the next one. -/
theorem answers_ready (hsorted : P.items.Pairwise (· < ·)) {same : φ → Window → Bool} {q : List (Range φ)}
    {st : Answer φ} (hst : P.Ready st) (hreach : st.reached P ≤ st.prevBound.item)
    (hq : Rbsr.Ascending st.prevBound.item (outline q)) (h : P.cut same q st = false) :
    P.Ready (P.answers same q st) ∧
      (P.answers same q st).prevBound.item = Rbsr.endOf st.prevBound.item (outline q) := by
  induction q generalizing st with
  | nil => exact ⟨hst, rfl⟩
  | cons r q ih =>
    obtain ⟨hle, hq⟩ := hq
    have hext : P.Extends same st r (P.answer same st r) := answer_extends hsorted hst hreach r hle
    rw [answers]
    rw [cut] at h
    cases hans : P.answer same st r with
    | mk st' stop =>
      rw [hans] at hext h
      cases hext with
      | quiet _ hout hready hbound =>
        have hreach' : st'.reached P ≤ st'.prevBound.item := by
          rw [hbound, Answer.reached, hout]
          exact hreach.trans hle
        obtain ⟨h1, h2⟩ := ih hready hreach' (by rwa [hbound]) h
        exact ⟨h1, by rw [h2, hbound]; rfl⟩
      | more _ _ _ hskip hready hbound =>
        obtain ⟨h1, h2⟩ := ih hready (hready.written hskip).le (by rwa [hbound]) h
        exact ⟨h1, by rw [h2, hbound]; rfl⟩
      | last _ _ _ _ _ => cases h

theorem finishRange_out (P : Party) (currBound : Bound) (upper : ℕ) (o : List (Range Window)) (st : Answer φ) :
    ∃ more, (P.finishRange currBound upper o st).1.out = st.out ++ more := by
  unfold finishRange
  split
  · exact ⟨_, rfl⟩
  · exact ⟨_, rfl⟩

theorem answer_out (P : Party) (same : φ → Window → Bool) (st : Answer φ) (r : Range φ) :
    ∃ more, (P.answer same st r).1.out = st.out ++ more := by
  obtain ⟨bound, payload⟩ := r
  cases payload with
  | skip => exact finishRange_out P _ _ _ { st with skip := true }
  | fingerprint f =>
    cases hsame : same f ⟨st.prevIndex, lowerBound P.items bound.item⟩ with
    | true =>
      rw [answer_same hsame]
      exact finishRange_out P _ _ _ { st with skip := true, compared := _ }
    | false =>
      rw [answer_different hsame]
      exact finishRange_out P _ _ _ { st with skip := false, compared := _ }
  | idList ids =>
    cases hinit : P.isInitiator with
    | true =>
      rw [answer_report same st bound ids hinit]
      exact finishRange_out P _ _ _ { st with skip := true, haveIds := _, needIds := _ }
    | false =>
      rw [answer_idList same st bound ids hinit rfl]
      obtain ⟨more, hmore⟩ := finishRange_out P bound (P.answerEnd (lowerBound P.items bound.item) st) []
        { st with skip := false, out := st.out ++ st.flush ++ _ }
      exact ⟨_, hmore.trans (by rw [List.append_assoc, List.append_assoc])⟩

/-- What is written stays. -/
theorem answers_out (P : Party) (same : φ → Window → Bool) (q : List (Range φ)) (st : Answer φ) :
    ∃ more, (P.answers same q st).out = st.out ++ more := by
  induction q generalizing st with
  | nil => exact ⟨[], (List.append_nil _).symm⟩
  | cons r q ih =>
    have hstep := answer_out P same st r
    rw [answers]
    cases hans : P.answer same st r with
    | mk st' stop =>
      rw [hans] at hstep
      cases stop with
      | true => exact hstep
      | false =>
        obtain ⟨more, hmore⟩ := hstep
        obtain ⟨more', hmore'⟩ := ih st'
        exact ⟨more ++ more', by rw [hmore', hmore, List.append_assoc]⟩

theorem item_mem {i : ℕ} (hi : i < P.items.length) : P.item i ∈ P.items := by
  rw [item, List.getD_eq_getElem?_getD, List.getElem?_eq_getElem hi, Option.getD_some]
  exact List.getElem_mem hi

/-- Where a list of ids is cut: at an item of the range, with some before it. -/
theorem endBound_cut (hsorted : P.items.Pairwise (· < ·)) {st : Answer φ} (hst : P.Ready st) {bound : Bound}
    (hle : st.prevBound.item ≤ bound.item)
    (hcut : P.answerEnd (lowerBound P.items bound.item) st < lowerBound P.items bound.item) :
    let u := P.endBound bound (P.answerEnd (lowerBound P.items bound.item) st)
    within P.items st.prevBound.item u.item ≠ [] ∧
      ∃ x ∈ P.items, u = Bound.ofItem x ∧ st.prevBound.item < x ∧ x < bound.item := by
  have hlen := hcut.trans_le (lowerBound_le_length P.items bound.item)
  have hitem : P.endBound bound (P.answerEnd (lowerBound P.items bound.item) st) =
      Bound.ofItem (P.item (P.answerEnd (lowerBound P.items bound.item) st)) := if_pos hcut
  have hlt : P.item (P.answerEnd (lowerBound P.items bound.item) st) < bound.item := by
    rw [← not_le, ← lowerBound_le_item_iff hsorted hlen]
    exact hcut.not_ge
  obtain ⟨-, -, -, hend | hne⟩ := endBound_between hsorted hst hle
  · rw [hitem] at hend
    exact absurd hlt (not_lt_of_ge hend.ge)
  · obtain ⟨y, hy⟩ := List.exists_mem_of_ne_nil _ hne
    obtain ⟨-, hly, hyu⟩ := mem_within.mp hy
    rw [hitem] at hyu
    exact ⟨hne, _, item_mem hlen, hitem, hly.trans_lt hyu, hlt⟩

/-- A list of ids that is received is answered with all ids of its range, or with those before some
item of it, and nothing behind. -/
theorem answer_ids (hsorted : P.items.Pairwise (· < ·)) (same : φ → Window → Bool) {st : Answer φ} (hst : P.Ready st)
    (hinit : P.isInitiator = false) {bound : Bound} (hle : st.prevBound.item ≤ bound.item) (theirs : List ItemId)
    (q : List (Range φ)) :
    ∃ u ids post, (P.answers same (⟨bound, .idList theirs⟩ :: q) st).out = st.out ++ st.flush ++ ⟨u, .idList ids⟩ :: post ∧
      ids = (within P.items st.prevBound.item u.item).map Item.id ∧
      (u = bound ∨ ids ≠ [] ∧ (∃ x ∈ P.items, u = Bound.ofItem x ∧ st.prevBound.item < x ∧ x < bound.item) ∧
        ∃ upper, post = [P.remaining upper]) := by
  obtain ⟨hindex, hlu, -, -⟩ := endBound_between hsorted hst hle
  have hl : st.prevIndex ≤ lowerBound P.items bound.item := hst.prevIndex ▸ lowerBound_mono hsorted hle
  have hcut := endBound_cut hsorted hst hle
  have hans := answer_idList same st bound theirs hinit rfl
  set stop := P.answerEnd (lowerBound P.items bound.item) st with hstop
  set u := P.endBound bound stop with hu
  have hids : (slice P.items st.prevIndex stop).map Item.id = (within P.items st.prevBound.item u.item).map Item.id := by
    rw [← slice_lowerBound hsorted hlu, hindex, ← hst.prevIndex]
  rw [hids, finishRange, List.append_nil] at hans
  rw [answers]
  cases hex : P.exceeded (messageSize (st.out ++ st.flush ++
      [(⟨u, .idList ((within P.items st.prevBound.item u.item).map Item.id)⟩ : Range Window)])) with
  | true =>
    rw [if_pos hex] at hans
    rw [hans]
    refine ⟨u, _, [P.remaining stop], by rw [List.append_assoc]; rfl, rfl, ?_⟩
    by_cases hlt : stop < lowerBound P.items bound.item
    · obtain ⟨hne, hx⟩ := hcut hlt
      exact .inr ⟨fun hnil => hne (List.map_eq_nil_iff.mp hnil), hx, stop, rfl⟩
    · exact .inl (if_neg hlt)
  | false =>
    rw [if_neg (by rw [hex]; exact Bool.false_ne_true)] at hans
    obtain ⟨-, hend⟩ := answer_continues hl hans
    rw [hans]
    obtain ⟨more, hmore⟩ := answers_out P same q _
    refine ⟨u, _, more, by rw [hmore, List.append_assoc]; rfl, rfl, .inl (if_neg ?_)⟩
    have hend : stop = lowerBound P.items bound.item := hend
    omega

end Party

/-! ### Messages -/

/-- Every list of ids in the message is complete. -/
def CompleteMessage (items : List Item) (m : Bytes) : Prop :=
  (readMessage m).2 = [] ∧ CompleteRanges items bot (readMessage m).1

/-- The lower end of what follows these ranges. -/
def endOf {φ : Type} (rs : List (Range φ)) : Item := Rbsr.endOf bot (outline rs)

section
variable {σ : Type} [StorageBase σ] {ne : Negentropy σ} {items : List Item} {fp : ℕ → ℕ → Fingerprint}

theorem splitBuckets_only (P : Party) (upper : ℕ) (upperBound : Bound) (itemsPerBucket bucketsWithExtra remaining curr : ℕ) :
    ∀ r ∈ P.splitBuckets upper upperBound itemsPerBucket bucketsWithExtra remaining curr, ∃ w, r.payload = .fingerprint w := by
  induction remaining generalizing curr with
  | zero => exact fun r hr => absurd hr List.not_mem_nil
  | succ remaining ih =>
    intro r hr
    rcases List.mem_cons.mp hr with rfl | hr
    · exact ⟨_, rfl⟩
    · exact ih _ r hr

/-- Also on an object that has encoded bounds before. -/
theorem completeMessage_initiate (hs : Presents ne.storage items fp) {m : Bytes} {ne' : Negentropy σ}
    (hts : ∀ x ∈ items, x.timestamp < MAX_U64) (h : initiate ne = .ok m ne') : CompleteMessage items m := by
  obtain rfl := initiate_ok hs.toReads h
  have htop := lt_top_of_timestamp ne hts
  by_cases hfew : items.length < buckets * 2
  · have hsingle : (ne.party items).initial =
        [⟨Bound.ofTimestamp MAX_U64, .idList ((slice items 0 items.length).map Item.id)⟩] := if_pos hfew
    have hlisted := completeRanges_render fp ((ne.party items).initial_split hs.sorted htop).listed
    have hread := readMessage_message (((ne.party items).initial_encodable hs.sorted htop hs.length_lt).render fp)
    rw [message, hsingle] at hread
    rw [hsingle] at hlisted ⊢
    simp only [render_cons, render_nil, rangesBytes, Range.map, boundBytes_infinity _ 0] at hread hlisted ⊢
    rw [CompleteMessage, hread]
    exact ⟨rfl, hlisted⟩
  · have hbuckets : (ne.party items).initial = (ne.party items).splitBuckets items.length (Bound.ofTimestamp MAX_U64)
        (items.length / buckets) (items.length % buckets) buckets 0 := if_neg hfew
    have honly : ∀ r ∈ render fp (ne.party items).initial, ∃ f, r.payload = .fingerprint f := by
      intro r hr
      obtain ⟨r', hr', rfl⟩ := List.mem_map.mp hr
      rw [hbuckets] at hr'
      obtain ⟨w, hw⟩ := splitBuckets_only _ _ _ _ _ _ _ r' hr'
      exact ⟨windowFp fp w, by rw [Range.map, hw]; rfl⟩
    obtain ⟨h1, h2⟩ := @readRanges_shifted _ 0 ne.lastTimestampOut _ honly le_rfl
    rw [CompleteMessage, readMessage, if_pos rfl]
    exact ⟨h2, completeRanges_of_fingerprints h1⟩

theorem completeMessage_reply (hs : Presents ne.storage items fp) (hts : ∀ x ∈ items, x.timestamp < MAX_U64)
    {q : List (Range Fingerprint)} (hq : Range.Sorted q) :
    CompleteMessage items (message (render fp ((ne.party items).reply (sameFp fp) q).out)) := by
  have htop := lt_top_of_timestamp ne hts
  have henc := (ne.party items).reply_encodable ne.limit_ok hs.sorted htop hs.length_lt (sameFp fp) hq
  have hq' : Rbsr.Ascending bot (abstract (fun _ : Fingerprint => []) q) :=
    ascending_of_sorted (List.pairwise_cons.mpr ⟨fun x _ => Bound.zero_le x, hq⟩)
  obtain ⟨c, -, hrep⟩ := (ne.party items).reply_replies ne.limit_ok hs.sorted htop (fun _ => []) (sameFp fp) hq'
  rw [CompleteMessage, readMessage_message (henc.render _)]
  exact ⟨rfl, completeRanges_render fp hrep.listed⟩

/-- How a list of ids answers one that was received for what is between `l` and `bound`. -/
structure AnswersIds (items : List Item) (l : Item) (bound u : Bound) (ids : List ItemId) (post : List (Range Fingerprint)) :
    Prop where
  complete : ids = (within items l u.item).map Item.id
  cut : u = bound ∨ ids ≠ [] ∧ (∃ x ∈ items, u = Bound.ofItem x ∧ l < x ∧ x < bound.item) ∧
    ∃ f, post = [⟨Bound.infinity, .fingerprint f⟩]

/-- The answer to a list of ids, unless the limit has ended the message before it. -/
theorem reply_answersIds (hs : Presents ne.storage items fp) (hinit : ne.isInitiator = false)
    {before after : List (Range Fingerprint)} {bound : Bound} {theirs : List ItemId}
    (hq : Range.Sorted (before ++ ⟨bound, .idList theirs⟩ :: after))
    (hcut : (ne.party items).cut (sameFp fp) before {} = false) :
    ∃ u ids pre post, render fp ((ne.party items).reply (sameFp fp) (before ++ ⟨bound, .idList theirs⟩ :: after)).out =
        pre ++ ⟨u, .idList ids⟩ :: post ∧
      endOf pre = endOf before ∧ AnswersIds items (endOf before) bound u ids post := by
  have hready : (ne.party items).Ready ({} : Party.Answer Fingerprint) := Party.ready_initial ne.limit_ok hs.sorted
  have hq' : Rbsr.Ascending bot (outline (before ++ ⟨bound, .idList theirs⟩ :: after)) :=
    ascending_of_sorted (List.pairwise_cons.mpr ⟨fun x _ => Bound.zero_le x, hq⟩)
  rw [outline, abstract_append, Rbsr.ascending_append] at hq'
  obtain ⟨hbefore, hle, -⟩ := hq'
  obtain ⟨hst, hprev⟩ := Party.answers_ready hs.sorted hready le_rfl hbefore hcut
  set st := (ne.party items).answers (sameFp fp) before {} with hdef
  have hprev : st.prevBound.item = endOf before := hprev
  have hle : st.prevBound.item ≤ bound.item := hprev ▸ hle
  obtain ⟨u, ids, post, hout, hids, hu⟩ := Party.answer_ids hs.sorted (sameFp fp) hst hinit hle theirs after
  rw [hprev] at hids hu
  refine ⟨u, ids, render fp (st.out ++ st.flush), render fp post, ?_, ?_, hids, hu.imp_right ?_⟩
  · rw [Party.reply, Party.answers_append hcut, ← hdef, hout, render_append, render_cons]
    rfl
  · rw [endOf, outline, abstract_render (ne.party items).elems, abstract_append, Rbsr.endOf_append, hst.flush.endOf_eq, hprev]
  · rintro ⟨hne, hx, upper, rfl⟩
    exact ⟨hne, hx, _, rfl⟩

/-- Every list of ids sent is complete, in the first message and in the replies to accepted queries.
A server answers a list with all ids of its range or, if the limit cuts it, with some, up
to the item at which the range that ends the message starts. -/
theorem id_lists_complete (hs : Presents ne.storage items fp) (hts : ∀ x ∈ items, x.timestamp < MAX_U64) :
    (∀ m ne', initiate ne = .ok m ne' → CompleteMessage items m) ∧
    (∀ query m ne', Range.Sorted (readMessage query).1 → reconcile query ne = .ok m ne' →
      CompleteMessage items m ∧
        ∀ before bound theirs after, (readMessage query).1 = before ++ ⟨bound, .idList theirs⟩ :: after →
          (ne.party items).cut (sameFp fp) before {} = false →
          ∃ u ids pre post, (readMessage m).1 = pre ++ ⟨u, .idList ids⟩ :: post ∧ endOf pre = endOf before ∧
            AnswersIds items (endOf before) bound u ids post) ∧
    (∀ query m haveIds needIds ne', Range.Sorted (readMessage query).1 →
      reconcileHaveNeed query ne = .ok (some m, haveIds, needIds) ne' → CompleteMessage items m) := by
  refine ⟨fun m ne' h => completeMessage_initiate hs hts h, fun query m ne' hq h => ?_,
    fun query m haveIds needIds ne' hq h => ?_⟩
  · have hinit : ne.isInitiator = false := by
      by_contra hinit
      rw [reconcile] at h
      obtain ⟨_, _, hget, h⟩ := bind_eq_ok.mp h
      obtain ⟨rfl, rfl⟩ := get_eq_ok.mp hget
      rw [if_pos (Bool.not_eq_false _ ▸ hinit)] at h
      exact throw_ne_ok h
    obtain rfl := reconcile_ok hs hq h
    refine ⟨completeMessage_reply hs hts hq, fun before bound theirs after hsplit hcut => ?_⟩
    have henc := (ne.party items).reply_encodable ne.limit_ok hs.sorted (lt_top_of_timestamp ne hts) hs.length_lt
      (sameFp fp) hq
    rw [readMessage_message (henc.render fp)]
    rw [hsplit] at hq ⊢
    exact reply_answersIds hs hinit hq hcut
  · have hout := reconcileHaveNeed_ok hs hq h
    dsimp only at hout
    split at hout
    · cases hout
    · obtain rfl := Option.some.inj hout
      exact completeMessage_reply hs hts hq

end

section
local instance idListsSha256 : Sha256 := SHA256.real

/-- A list of one id, for everything. -/
def idsQuery : List (Range Fingerprint) := [⟨Bound.infinity, .idList [(sampleItem 1 0).id]⟩]

/-- The ids of a reply do not all fit, and a fingerprint follows them. -/
theorem id_lists_complete_cut :
    ((cutServer.party cutServer.storage.items).reply (sameFp (windowFingerprint cutServer.storage.items)) idsQuery).out.length = 2 ∧
    ∃ m ne', reconcile (message idsQuery) cutServer = .ok m ne' ∧ CompleteMessage cutServer.storage.items m ∧
      ∃ u ids pre post, (readMessage m).1 = pre ++ ⟨u, .idList ids⟩ :: post ∧ endOf pre = bot ∧
        AnswersIds cutServer.storage.items bot Bound.infinity u ids post := by
  have henc : Encodable 0 idsQuery := ⟨by decide, show 1 < 2 ^ 64 by decide, trivial⟩
  have hsorted : Range.Sorted idsQuery := List.pairwise_singleton _ _
  obtain ⟨i, o, hreply⟩ := reconcile_message cutServer_presents rfl henc hsorted
  have hread := readMessage_message henc
  obtain ⟨hcomplete, hanswers⟩ := (id_lists_complete cutServer_presents cutServer_timestamps).2.1 _ _ _
    (by rw [hread]; exact hsorted) hreply
  exact ⟨by decide +kernel, _, _, hreply, hcomplete, hanswers [] _ _ [] (congrArg Prod.fst hread) rfl⟩

end

end NE
