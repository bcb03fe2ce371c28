import Negentropy.Messages

/-! What a party replies, as a function on ranges: a fingerprint it sends is named by the
window of positions it is over, and `same` says which received fingerprints equal that
of a window. The methods of `negentropy.h` compute this function. -/

namespace NE

open Sorted

/-- The positions `begin_ .. end_ - 1` of a party's items. -/
structure Window where
  begin_ : ℕ
  end_ : ℕ
  deriving DecidableEq

/-- What a reply depends on, besides the message and the fingerprints. -/
structure Party where
  items : List Item
  frameSizeLimit : ℕ
  isInitiator : Bool

/-- The number of bytes of a payload. -/
def Payload.size {φ : Type} : Payload φ → ℕ
  | .skip => 1
  | .fingerprint _ => 1 + FINGERPRINT_SIZE
  | .idList ids => 1 + (encodeVarInt (UInt64.ofNat ids.length)).length + ID_SIZE * ids.length

def rangesSize {φ : Type} : UInt64 → List (Range φ) → ℕ
  | _, [] => 0
  | last, r :: rs => (boundBytes last r.bound).length + r.payload.size + rangesSize r.bound.item.timestamp rs

theorem rangesSize_append {φ : Type} (last : UInt64) (rs rs' : List (Range φ)) :
    rangesSize last (rs ++ rs') = rangesSize last rs + rangesSize (lastTimestamp last rs) rs' := by
  induction rs generalizing last with
  | nil => simp [rangesSize, lastTimestamp]
  | cons r rs ih =>
    simp only [List.cons_append, rangesSize, lastTimestamp, ih]
    omega

namespace Party

def exceeded (P : Party) (n : ℕ) : Bool := P.frameSizeLimit != 0 && decide (n > P.frameSizeLimit - 200)

/-- The number of bytes of a message. -/
def messageSize {φ : Type} (rs : List (Range φ)) : ℕ := 1 + rangesSize 0 rs

theorem messageSize_append {φ : Type} (rs rs' : List (Range φ)) :
    messageSize (rs ++ rs') = messageSize rs + rangesSize (lastTimestamp 0 rs) rs' := by
  rw [messageSize, messageSize, rangesSize_append, Nat.add_assoc]

def item (P : Party) (i : ℕ) : Item := P.items.getD i {}

/-! ### Splitting -/

def splitBuckets (P : Party) (upper : ℕ) (upperBound : Bound) (itemsPerBucket bucketsWithExtra : ℕ) :
    ℕ → ℕ → List (Range Window)
  | 0, _ => []
  | remaining + 1, curr =>
      let i := Negentropy.buckets - (remaining + 1)
      let next := curr + (itemsPerBucket + if i < bucketsWithExtra then 1 else 0)
      let nextBound :=
        if next = upper then upperBound
        else Negentropy.getMinimalBound (P.item (next - 1)) (P.item next)
      ⟨nextBound, .fingerprint ⟨curr, next⟩⟩ ::
        splitBuckets P upper upperBound itemsPerBucket bucketsWithExtra remaining next

def splitRange (P : Party) (lower upper : ℕ) (upperBound : Bound) : List (Range Window) :=
  let numElems := upper - lower
  if numElems < Negentropy.buckets * 2 then
    [⟨upperBound, .idList ((slice P.items lower upper).map Item.id)⟩]
  else
    splitBuckets P upper upperBound (numElems / Negentropy.buckets) (numElems % Negentropy.buckets)
      Negentropy.buckets lower

/-- What the remaining buckets still cover, and the place where the next one ends. -/
theorem bucket_step {upper itemsPerBucket bucketsWithExtra remaining curr : ℕ} (hr : remaining + 1 ≤ Negentropy.buckets)
    (h : curr + (remaining + 1) * itemsPerBucket + (bucketsWithExtra - (Negentropy.buckets - (remaining + 1))) = upper) :
    let next := curr + (itemsPerBucket + if Negentropy.buckets - (remaining + 1) < bucketsWithExtra then 1 else 0)
    next + remaining * itemsPerBucket + (bucketsWithExtra - (Negentropy.buckets - remaining)) = upper := by
  rw [Nat.succ_mul] at h
  simp only
  split <;> omega

/-! ### Replying -/

/-- What the loop has written, and what it carries along. `compared` records every comparison
of fingerprints. -/
structure Answer (φ : Type) where
  out : List (Range Window) := []
  prevBound : Bound := Bound.zero
  prevIndex : ℕ := 0
  skip : Bool := false
  haveIds : List ItemId := []
  needIds : List ItemId := []
  compared : List (φ × Window × Bool) := []

section
variable {φ : Type}

/-- The pending skip range. -/
def Answer.flush (st : Answer φ) : List (Range Window) :=
  if st.skip then [⟨st.prevBound, .skip⟩] else []

/-- The range to infinity that ends a cut message. -/
def remaining (P : Party) (upper : ℕ) : Range Window :=
  ⟨Bound.ofTimestamp MAX_U64, .fingerprint ⟨upper, P.items.length⟩⟩

def finishRange (P : Party) (currBound : Bound) (upper : ℕ) (o : List (Range Window)) (st : Answer φ) :
    Answer φ × Bool :=
  if P.exceeded (messageSize (st.out ++ o)) then ({ st with out := st.out ++ [P.remaining upper] }, true)
  else ({ st with out := st.out ++ o, prevIndex := upper, prevBound := currBound }, false)

/-- One item, with the ids found missing on the other side and the other side's ids left. -/
def compareStep (st : List ItemId × List ItemId) (item : Item) : List ItemId × List ItemId :=
  if item.id ∉ st.2 then (st.1 ++ [item.id], st.2) else (st.1, st.2.erase item.id)

/-- What the initiator has and the other party's list lacks, and the other way round. -/
def compare (theirIds : List ItemId) (own : List Item) : List ItemId × List ItemId :=
  own.foldl compareStep ([], theirIds.foldl Negentropy.insertElem [])

/-- What was found before stays in front. -/
theorem foldl_compareStep (own : List Item) (haveIds theirElems : List ItemId) :
    own.foldl compareStep (haveIds, theirElems) =
      (haveIds ++ (own.foldl compareStep ([], theirElems)).1,
        (own.foldl compareStep ([], theirElems)).2) := by
  induction own generalizing haveIds theirElems with
  | nil => simp
  | cons x own ih =>
    by_cases h : x.id ∉ theirElems
    · simp only [List.foldl_cons, compareStep, h, not_false_eq_true, if_true, List.nil_append]
      rw [ih (haveIds ++ [x.id]), ih [x.id], List.append_assoc]
    · simp only [List.foldl_cons, compareStep, h, if_false]
      rw [ih haveIds]

/-- How many of the `n` ids left to send are sent, after `sent` of them. -/
def sentIds (P : Party) (written : ℕ) : ℕ → ℕ → ℕ
  | sent, 0 => sent
  | sent, n + 1 => if P.exceeded (written + ID_SIZE * sent) then sent else sentIds P written (sent + 1) n

/-- The position where the reply to a list of ids stops. -/
def answerEnd (P : Party) (upper : ℕ) (st : Answer φ) : ℕ :=
  st.prevIndex + P.sentIds (messageSize st.out) 0 (upper - st.prevIndex)

/-- One iteration of the loop. -/
def answer (P : Party) (same : φ → Window → Bool) (st : Answer φ) (r : Range φ) : Answer φ × Bool :=
  let lower := st.prevIndex
  let upper := lowerBound P.items r.bound.item
  match r.payload with
  | .skip => P.finishRange r.bound upper [] { st with skip := true }
  | .fingerprint f =>
      let compared := st.compared ++ [(f, ⟨lower, upper⟩, same f ⟨lower, upper⟩)]
      if same f ⟨lower, upper⟩ then P.finishRange r.bound upper [] { st with skip := true, compared }
      else
        P.finishRange r.bound upper (st.flush ++ P.splitRange lower upper r.bound)
          { st with skip := false, compared }
  | .idList ids =>
      if P.isInitiator then
        let (haveIds, needIds) := compare ids (slice P.items lower upper)
        P.finishRange r.bound upper []
          { st with skip := true, haveIds := st.haveIds ++ haveIds, needIds := st.needIds ++ needIds }
      else
        let stop := P.answerEnd upper st
        let endBound := if stop < upper then Bound.ofItem (P.item stop) else r.bound
        P.finishRange r.bound stop []
          { st with
            skip := false
            out := st.out ++ st.flush ++ [⟨endBound, .idList ((slice P.items lower stop).map Item.id)⟩] }

theorem answer_same {P : Party} {same : φ → Window → Bool} {st : Answer φ} {bound : Bound} {f : φ}
    (h : same f ⟨st.prevIndex, lowerBound P.items bound.item⟩ = true) :
    P.answer same st ⟨bound, .fingerprint f⟩ =
      P.finishRange bound (lowerBound P.items bound.item) []
        { st with
          skip := true
          compared := st.compared ++ [(f, ⟨st.prevIndex, lowerBound P.items bound.item⟩, true)] } := by
  simp only [answer, h, if_true]

theorem answer_different {P : Party} {same : φ → Window → Bool} {st : Answer φ} {bound : Bound} {f : φ}
    (h : same f ⟨st.prevIndex, lowerBound P.items bound.item⟩ = false) :
    P.answer same st ⟨bound, .fingerprint f⟩ =
      P.finishRange bound (lowerBound P.items bound.item)
        (st.flush ++ P.splitRange st.prevIndex (lowerBound P.items bound.item) bound)
        { st with
          skip := false
          compared := st.compared ++ [(f, ⟨st.prevIndex, lowerBound P.items bound.item⟩, false)] } := by
  simp only [answer, h, Bool.false_eq_true, if_false]

theorem answer_report {P : Party} (same : φ → Window → Bool) (st : Answer φ) (bound : Bound) (ids : List ItemId)
    (hinit : P.isInitiator = true) :
    P.answer same st ⟨bound, .idList ids⟩ =
      P.finishRange bound (lowerBound P.items bound.item) []
        { st with
          skip := true
          haveIds := st.haveIds ++ (compare ids (slice P.items st.prevIndex (lowerBound P.items bound.item))).1
          needIds := st.needIds ++ (compare ids (slice P.items st.prevIndex (lowerBound P.items bound.item))).2 } := by
  simp only [answer, hinit, if_true]

/-- The bound that is sent with a list of ids that stops at `stop`. -/
def endBound (P : Party) (bound : Bound) (stop : ℕ) : Bound :=
  if stop < lowerBound P.items bound.item then Bound.ofItem (P.item stop) else bound

theorem answer_idList {P : Party} (same : φ → Window → Bool) (st : Answer φ) (bound : Bound) (ids : List ItemId)
    (hinit : P.isInitiator = false) {stop : ℕ} (hstop : P.answerEnd (lowerBound P.items bound.item) st = stop) :
    P.answer same st ⟨bound, .idList ids⟩ =
      P.finishRange bound stop []
        { st with
          skip := false
          out := st.out ++ st.flush ++
            [⟨P.endBound bound stop, .idList ((slice P.items st.prevIndex stop).map Item.id)⟩] } := by
  simp only [answer, hinit, Bool.false_eq_true, if_false, hstop, endBound]

def answers (P : Party) (same : φ → Window → Bool) : List (Range φ) → Answer φ → Answer φ
  | [], st => st
  | r :: rs, st =>
      match P.answer same st r with
      | (st, true) => st
      | (st, false) => answers P same rs st

/-- The reply to a message. -/
def reply (P : Party) (same : φ → Window → Bool) (message : List (Range φ)) : Answer φ :=
  P.answers same message {}

/-- The first message. -/
def initial (P : Party) : List (Range Window) := P.splitRange 0 P.items.length (Bound.ofTimestamp MAX_U64)

theorem sentIds_le (P : Party) (written n sent : ℕ) :
    sent ≤ P.sentIds written sent n ∧ P.sentIds written sent n ≤ sent + n := by
  induction n generalizing sent with
  | zero => simp [sentIds]
  | succ n ih =>
    unfold sentIds
    split
    · omega
    · have := ih (sent + 1)
      omega

/-- Not all ids are sent only when the limit is exceeded. -/
theorem exceeded_of_sentIds_lt {P : Party} {written n sent : ℕ} (h : P.sentIds written sent n < sent + n) :
    P.exceeded (written + ID_SIZE * P.sentIds written sent n) = true := by
  induction n generalizing sent with
  | zero => simp [sentIds] at h
  | succ n ih =>
    unfold sentIds at h ⊢
    split
    · next hex => exact hex
    · next hex =>
      rw [if_neg hex] at h
      exact ih (by omega)

theorem exceeded_mono {P : Party} {n m : ℕ} (h : n ≤ m) (hn : P.exceeded n = true) : P.exceeded m = true := by
  simp only [exceeded, Bool.and_eq_true, bne_iff_ne, decide_eq_true_eq] at hn ⊢
  exact ⟨hn.1, by omega⟩

theorem finishRange_continues {P : Party} {currBound : Bound} {upper : ℕ} {o : List (Range Window)}
    {st st' : Answer φ} (h : P.finishRange currBound upper o st = (st', false)) :
    P.exceeded (messageSize (st.out ++ o)) = false ∧
      st' = { st with out := st.out ++ o, prevIndex := upper, prevBound := currBound } := by
  unfold finishRange at h
  split at h
  · cases h
  · next hex =>
    cases h
    exact ⟨by simpa using hex, rfl⟩

/-- What an iteration that does not end the loop passes on. -/
theorem answer_continues {P : Party} {same : φ → Window → Bool} {st st' : Answer φ} {r : Range φ}
    (hl : st.prevIndex ≤ lowerBound P.items r.bound.item) (h : P.answer same st r = (st', false)) :
    st'.prevBound = r.bound ∧ st'.prevIndex = lowerBound P.items r.bound.item := by
  obtain ⟨bound, payload⟩ := r
  cases payload with
  | skip =>
    obtain ⟨-, rfl⟩ := finishRange_continues h
    exact ⟨rfl, rfl⟩
  | fingerprint f =>
    cases hsame : same f ⟨st.prevIndex, lowerBound P.items bound.item⟩ with
    | true =>
      rw [answer_same hsame] at h
      obtain ⟨-, rfl⟩ := finishRange_continues h
      exact ⟨rfl, rfl⟩
    | false =>
      rw [answer_different hsame] at h
      obtain ⟨-, rfl⟩ := finishRange_continues h
      exact ⟨rfl, rfl⟩
  | idList ids =>
    cases hinit : P.isInitiator with
    | true =>
      rw [answer_report same st bound ids hinit] at h
      obtain ⟨-, rfl⟩ := finishRange_continues h
      exact ⟨rfl, rfl⟩
    | false =>
      rw [answer_idList same st bound ids hinit rfl] at h
      obtain ⟨hex, rfl⟩ := finishRange_continues h
      refine ⟨rfl, ?_⟩
      have hk := sentIds_le P (messageSize st.out) (lowerBound P.items bound.item - st.prevIndex) 0
      by_contra hne
      simp only [answerEnd] at hne hex hl
      have hcut := exceeded_of_sentIds_lt (show P.sentIds (messageSize st.out) 0
        (lowerBound P.items bound.item - st.prevIndex) < 0 + (lowerBound P.items bound.item - st.prevIndex) by omega)
      have hu := lowerBound_le_length P.items bound.item
      refine Bool.false_ne_true (hex.symm.trans (exceeded_mono ?_ hcut))
      simp only [List.append_nil, messageSize_append, rangesSize, Payload.size, List.length_map]
      rw [slice_length _ (by omega), Nat.add_sub_cancel_left]
      omega

/-! ### Recorded comparisons -/

theorem finishRange_compared (P : Party) (currBound : Bound) (upper : ℕ) (o : List (Range Window)) (st : Answer φ) :
    (P.finishRange currBound upper o st).1.compared = st.compared := by
  unfold finishRange
  split <;> rfl

/-- What is recorded is whether the fingerprints were the same. -/
theorem answer_compared {P : Party} {same : φ → Window → Bool} {st : Answer φ} {r : Range φ} :
    ∀ x ∈ (P.answer same st r).1.compared, x ∈ st.compared ∨ x.2.2 = same x.1 x.2.1 := by
  intro x hx
  obtain ⟨bound, payload⟩ := r
  cases payload with
  | skip =>
    unfold answer at hx
    rw [finishRange_compared] at hx
    exact .inl hx
  | fingerprint f =>
    have hadd : x ∈ st.compared ++ [(f, (⟨st.prevIndex, lowerBound P.items bound.item⟩ : Window),
        same f ⟨st.prevIndex, lowerBound P.items bound.item⟩)] := by
      cases hsame : same f ⟨st.prevIndex, lowerBound P.items bound.item⟩ with
      | true => rwa [answer_same hsame, finishRange_compared] at hx
      | false => rwa [answer_different hsame, finishRange_compared] at hx
    rcases List.mem_append.mp hadd with hx | hx
    · exact .inl hx
    · rw [List.mem_singleton.mp hx]
      exact .inr rfl
  | idList ids =>
    cases hinit : P.isInitiator with
    | true =>
      rw [answer_report same st bound ids hinit, finishRange_compared] at hx
      exact .inl hx
    | false =>
      rw [answer_idList same st bound ids hinit rfl, finishRange_compared] at hx
      exact .inl hx

theorem answers_compared {P : Party} {same : φ → Window → Bool} (q : List (Range φ)) (st : Answer φ) :
    ∀ x ∈ (P.answers same q st).compared, x ∈ st.compared ∨ x.2.2 = same x.1 x.2.1 := by
  induction q generalizing st with
  | nil => exact fun x hx => .inl hx
  | cons r q ih =>
    intro x hx
    rw [answers] at hx
    have hstep : ∀ x ∈ (P.answer same st r).1.compared, x ∈ st.compared ∨ x.2.2 = same x.1 x.2.1 := answer_compared
    cases hans : P.answer same st r with
    | mk st' stop =>
      rw [hans] at hx hstep
      cases stop with
      | true => exact hstep x hx
      | false => exact (ih st' x hx).elim (hstep x) .inr

theorem reply_compared (P : Party) (same : φ → Window → Bool) (q : List (Range φ)) :
    ∀ x ∈ (P.reply same q).compared, x.2.2 = same x.1 x.2.1 := by
  intro x hx
  exact (answers_compared q {} x hx).resolve_left List.not_mem_nil

theorem subset_answer_compared {P : Party} {same : φ → Window → Bool} {st : Answer φ} {r : Range φ} :
    st.compared ⊆ (P.answer same st r).1.compared := by
  intro x hx
  unfold answer
  split
  · rwa [finishRange_compared]
  · dsimp only
    split <;> rw [finishRange_compared] <;> exact List.mem_append_left _ hx
  · split
    · rwa [finishRange_compared]
    · rwa [finishRange_compared]

theorem subset_answers_compared {P : Party} {same : φ → Window → Bool} (q : List (Range φ)) (st : Answer φ) :
    st.compared ⊆ (P.answers same q st).compared := by
  induction q generalizing st with
  | nil => exact fun x hx => hx
  | cons r q ih =>
    have hstep : st.compared ⊆ (P.answer same st r).1.compared := subset_answer_compared
    rw [answers]
    cases hans : P.answer same st r with
    | mk st' stop =>
      rw [hans] at hstep
      cases stop with
      | true => exact hstep
      | false => exact fun x hx => ih st' (hstep hx)

/-- A reply depends on the fingerprints it compares only. -/
theorem answers_congr {P : Party} {same same' : φ → Window → Bool} {q : List (Range φ)} {st : Answer φ}
    (h : ∀ x ∈ (P.answers same' q st).compared, same x.1 x.2.1 = x.2.2) : P.answers same q st = P.answers same' q st := by
  induction q generalizing st with
  | nil => rfl
  | cons r q ih =>
    have hsub : (P.answer same' st r).1.compared ⊆ (P.answers same' (r :: q) st).compared := by
      rw [answers]
      cases hans : P.answer same' st r with
      | mk st' stop =>
        cases stop with
        | true => exact fun x hx => hx
        | false => exact subset_answers_compared q st'
    have hr : P.answer same st r = P.answer same' st r := by
      obtain ⟨bound, payload⟩ := r
      cases payload with
      | skip => rfl
      | idList ids => rfl
      | fingerprint f =>
        have hmem : (f, (⟨st.prevIndex, lowerBound P.items bound.item⟩ : Window),
            same' f ⟨st.prevIndex, lowerBound P.items bound.item⟩) ∈
            (P.answer same' st ⟨bound, .fingerprint f⟩).1.compared := by
          unfold answer
          dsimp only
          split <;> rw [finishRange_compared] <;> simp
        have heq := h _ (hsub hmem)
        simp only at heq
        simp only [answer, heq]
    rw [answers, answers, hr]
    rw [answers] at h
    cases hans : P.answer same' st r with
    | mk st' stop =>
      rw [hans] at h
      cases stop with
      | true => rfl
      | false => exact ih h

theorem reply_congr {P : Party} {same same' : φ → Window → Bool} {q : List (Range φ)}
    (h : ∀ x ∈ (P.reply same' q).compared, same x.1 x.2.1 = x.2.2) : P.reply same q = P.reply same' q := answers_congr h

/-! ### Dropped splits -/

/-- The range is a fingerprint that differs from the party's own, and what it would be split
into exceeds the frame size limit and is dropped. -/
def dropsSplit (P : Party) (same : φ → Window → Bool) (st : Answer φ) (r : Range φ) : Bool :=
  let upper := lowerBound P.items r.bound.item
  match r.payload with
  | .fingerprint f =>
      !same f ⟨st.prevIndex, upper⟩ &&
        P.exceeded (messageSize (st.out ++ (st.flush ++ P.splitRange st.prevIndex upper r.bound)))
  | _ => false

/-- The state and the range where the loop drops a split, if it does. -/
def dropped (P : Party) (same : φ → Window → Bool) : List (Range φ) → Answer φ → Option (Answer φ × Range φ)
  | [], _ => none
  | r :: rs, st =>
      if P.dropsSplit same st r then some (st, r)
      else
        match P.answer same st r with
        | (_, true) => none
        | (st, false) => dropped P same rs st

end

end Party

end NE
