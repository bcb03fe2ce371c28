import Negentropy.Js.Writing
import Negentropy.Session

/-! Parties of few items with small timestamps put no large numbers into their messages, so that both readers read
them alike. -/

namespace NE.Js

open Sorted

/-! ### What is written is small -/

/-- Both the digits of a varint and the number they stand for. -/
theorem readNat_digits (rounds : ℕ) (n : UInt64) (hn : n.toNat < 128 ^ rounds) (rest : Bytes) :
    readNat 0 ((NE.varIntDigits rounds n).reverse.map (· ||| 0x80) ++ rest) = readNat n.toNat rest := by
  induction rounds generalizing n rest with
  | zero =>
    have h0 : n.toNat = 0 := by simpa using hn
    rw [h0]
    rfl
  | succ rounds ih =>
    unfold NE.varIntDigits
    split
    · next h =>
      subst h
      rfl
    · have hn' : (n >>> 7).toNat < 128 ^ rounds := by
        rw [toNat_shiftRight7]
        rw [Nat.pow_succ] at hn
        omega
      obtain ⟨-, hcont, -, hdigit⟩ := digit_bits n _ rfl
      have hlow : ((n &&& 0x7F).toUInt8 ||| 0x80).toNat % 128 = n.toNat % 128 := by
        have hand : ((n &&& 0x7F).toUInt8 ||| 0x80).toNat % 128 = (((n &&& 0x7F).toUInt8 ||| 0x80) &&& 0x7F).toNat := by
          rw [UInt8.toNat_and]
          exact (Nat.and_two_pow_sub_one_eq_mod _ 7).symm
        rw [hand, hdigit, toNat_low7]
      have hvalue : 128 * (n >>> 7).toNat + n.toNat % 128 = n.toNat := by
        rw [toNat_shiftRight7]
        omega
      rw [List.reverse_cons, List.map_append, List.append_assoc, ih _ hn', List.map_cons, List.map_nil,
        List.singleton_append, readNat]
      rw [if_neg hcont, hlow, hvalue]

theorem readNat_encodeVarInt (n : UInt64) (rest : Bytes) : readNat 0 (NE.encodeVarInt n ++ rest) = some (n.toNat, rest) := by
  by_cases hn : n = 0
  · subst hn
    rfl
  · have hlt := n.toNat_lt
    obtain ⟨hlast, -, -, -⟩ := digit_bits n _ rfl
    have hlow : (n &&& 0x7F).toUInt8.toNat % 128 = n.toNat % 128 := by
      rw [toNat_low7]
      omega
    have hvalue : 128 * (n >>> 7).toNat + n.toNat % 128 = n.toNat := by
      rw [toNat_shiftRight7]
      omega
    rw [NE.encodeVarInt_eq hn, List.append_assoc, readNat_digits 9 _ (by rw [toNat_shiftRight7]; omega),
      List.singleton_append, readNat]
    rw [if_pos hlast, hlow, hvalue]

theorem smallVarint_encodeVarInt {n : UInt64} (hn : n.toNat < 2 ^ 31) (rest : Bytes) (k : ℕ → Bytes → Bool) :
    smallVarint (NE.encodeVarInt n ++ rest) k = k n.toNat rest := by
  rw [smallVarint, readNat_encodeVarInt]
  dsimp only
  rw [decide_eq_true hn, Bool.true_and]

theorem smallBound_boundBytes {last : UInt64} {b : NE.Bound} (hle : last ≤ b.item.timestamp)
    (hb : SmallTimestamp b.item.timestamp) (rest : Bytes) (k : Option ℕ → Bytes → Bool) :
    smallBound (finite last) (boundBytes last b ++ rest) k = k (finite b.item.timestamp) rest := by
  have hidLen := b.idLen_le
  have hid : (UInt64.ofNat b.idLen).toNat = b.idLen := UInt64.toNat_ofNat_of_lt' (lt_of_le_of_lt hidLen (by decide))
  have hsize : ID_SIZE = 32 := rfl
  -- the number on the wire, and the timestamp made of it
  obtain ⟨hwire, hts, hall⟩ :
      (if b.item.timestamp = MAX_U64 then 0 else b.item.timestamp - last + 1 : UInt64).toNat < 2 ^ 31 ∧
        advance (finite last) (if b.item.timestamp = MAX_U64 then 0 else b.item.timestamp - last + 1 : UInt64).toNat =
          finite b.item.timestamp ∧ (finite b.item.timestamp).all (fun t => decide (t < 2 ^ 31 - 1)) = true := by
    by_cases hmax : b.item.timestamp = MAX_U64
    · rw [if_pos hmax, hmax, finite_max]
      refine ⟨by decide, ?_, rfl⟩
      cases finite last <;> rfl
    · have hsmall := hb hmax
      have hnat := UInt64.le_iff_toNat_le.mp hle
      have hlast : last ≠ MAX_U64 := by
        rintro rfl
        have : MAX_U64.toNat = 2 ^ 64 - 1 := rfl
        omega
      have hdelta : (b.item.timestamp - last + 1).toNat = b.item.timestamp.toNat - last.toNat + 1 := by
        have hone : (1 : UInt64).toNat = 1 := rfl
        rw [UInt64.toNat_add, UInt64.toNat_sub_of_le _ _ hle]
        omega
      rw [if_neg hmax, hdelta, finite_of_ne hmax, finite_of_ne hlast]
      refine ⟨by omega, ?_, decide_eq_true hsmall⟩
      rw [advance, Nat.add_sub_cancel' hnat]
  unfold smallBound boundBytes
  rw [List.append_assoc, List.append_assoc, smallVarint_encodeVarInt hwire, hts, hall, Bool.true_and,
    smallVarint_encodeVarInt (by rw [hid]; omega), hid]
  have hshort : ¬ (b.idPrefix ++ rest).length < b.idLen := by
    rw [List.length_append, b.idPrefix_length]
    omega
  rw [decide_eq_false hshort, decide_eq_false (not_lt.mpr hidLen), Bool.false_or, Bool.false_or,
    List.drop_left' b.idPrefix_length]

/-- There are no large numbers in the range. -/
structure Small {φ : Type} (r : NE.Range φ) : Prop where
  timestamp : SmallTimestamp r.bound.item.timestamp
  ids : ∀ ids, r.payload = .idList ids → ids.length < 2 ^ 31

theorem smallRanges_rangesBytes (rounds : ℕ) {last : UInt64} {rs : List (NE.Range NE.Fingerprint)} (henc : Encodable last rs)
    (hrs : ∀ r ∈ rs, Small r) : smallRanges rounds (finite last) (rangesBytes last rs) = true := by
  induction rounds generalizing last rs with
  | zero => rfl
  | succ rounds ih =>
    cases rs with
    | nil => rfl
    | cons r rs =>
      obtain ⟨hle, -, hrest⟩ := henc
      obtain ⟨hts, hids⟩ := hrs r List.mem_cons_self
      have htail := ih hrest fun r hr => hrs r (List.mem_cons_of_mem _ hr)
      obtain ⟨bound, payload⟩ := r
      rw [smallRanges, rangesBytes, List.append_assoc, smallBound_boundBytes hle hts]
      refine Bool.or_eq_true_iff.mpr (.inr ?_)
      cases payload with
      | skip =>
        rw [payloadBytes, smallVarint_encodeVarInt (by decide), if_pos (by decide)]
        exact htail
      | fingerprint f =>
        rw [payloadBytes, List.append_assoc, smallVarint_encodeVarInt (by decide), if_neg (by decide), if_pos (by decide),
          List.drop_left' f.length_eq]
        exact Bool.or_eq_true_iff.mpr (.inr htail)
      | idList ids =>
        have hlen := hids ids rfl
        have hnat : (UInt64.ofNat ids.length).toNat = ids.length := UInt64.toNat_ofNat_of_lt' (hlen.trans (by decide))
        rw [payloadBytes, List.append_assoc, List.append_assoc, smallVarint_encodeVarInt (by decide), if_neg (by decide),
          if_neg (by decide), if_pos (by decide), smallVarint_encodeVarInt (by rwa [hnat]), hnat,
          List.drop_left' (idBytes_length ids)]
        exact Bool.or_eq_true_iff.mpr (.inr htail)

theorem smallQuery_message {rs : List (NE.Range NE.Fingerprint)} (henc : Encodable 0 rs) (hrs : ∀ r ∈ rs, Small r) :
    smallQuery (NE.message rs) = true :=
  Bool.or_eq_true_iff.mpr (.inr (smallRanges_rangesBytes (NE.message rs).length henc hrs))

theorem Small.map {φ ψ : Type} {r : NE.Range φ} (h : Small r) (f : φ → ψ) : Small (r.map f) := by
  refine ⟨h.timestamp, fun ids hids => ?_⟩
  obtain ⟨bound, payload⟩ := r
  cases payload with
  | skip => cases hids
  | fingerprint x => cases hids
  | idList xs =>
    obtain rfl : xs = ids := Payload.idList.inj hids
    exact h.ids xs rfl

/-! ### Parties -/

/-- Few items with small timestamps. -/
structure SmallItems (items : List NE.Item) : Prop where
  length_lt : items.length < 2 ^ 31
  timestamps : ∀ x ∈ items, x.timestamp.toNat < 2 ^ 31 - 1

section
variable {P : Party} (hP : SmallItems P.items)
include hP

theorem SmallItems.item (i : ℕ) : SmallTimestamp (P.item i).timestamp := by
  intro _
  unfold Party.item
  rw [List.getD_eq_getElem?_getD]
  cases h : P.items[i]? with
  | none => exact Nat.zero_lt_succ _
  | some x => exact hP.timestamps x (List.mem_of_getElem? h)

theorem SmallItems.list (bound : NE.Bound) (hbound : SmallTimestamp bound.item.timestamp) (b e : ℕ) :
    Small (⟨bound, .idList ((slice P.items b e).map NE.Item.id)⟩ : NE.Range Window) := by
  refine ⟨hbound, fun ids hids => ?_⟩
  cases hids
  have hlen : (slice P.items b e).length ≤ P.items.length :=
    ((List.take_sublist _ _).trans (List.drop_sublist _ _)).length_le
  rw [List.length_map]
  exact hlen.trans_lt hP.length_lt

omit hP in
theorem small_fingerprint {bound : NE.Bound} (hbound : SmallTimestamp bound.item.timestamp) (w : Window) :
    Small (⟨bound, .fingerprint w⟩ : NE.Range Window) :=
  ⟨hbound, fun ids hids => by cases hids⟩

theorem small_splitBuckets {upper : ℕ} {upperBound : NE.Bound} (hupper : SmallTimestamp upperBound.item.timestamp)
    (itemsPerBucket bucketsWithExtra remaining curr : ℕ) :
    ∀ r ∈ P.splitBuckets upper upperBound itemsPerBucket bucketsWithExtra remaining curr, Small r := by
  induction remaining generalizing curr with
  | zero => exact fun r hr => absurd hr List.not_mem_nil
  | succ remaining ih =>
    intro r hr
    unfold Party.splitBuckets at hr
    dsimp only at hr
    rcases List.mem_cons.mp hr with rfl | hr
    · refine small_fingerprint ?_ _
      set next := curr + (itemsPerBucket + if NE.Negentropy.buckets - (remaining + 1) < bucketsWithExtra then 1 else 0)
      by_cases hlast : next = upper
      · rw [if_pos hlast]
        exact hupper
      · rw [if_neg hlast]
        unfold SmallTimestamp
        rw [Recorded.minimalBound_timestamp]
        exact hP.item _
    · exact ih _ r hr

theorem small_splitRange (lower upper : ℕ) {upperBound : NE.Bound} (hupper : SmallTimestamp upperBound.item.timestamp) :
    ∀ r ∈ P.splitRange lower upper upperBound, Small r := by
  intro r hr
  unfold Party.splitRange at hr
  dsimp only at hr
  split at hr
  · rw [List.mem_singleton.mp hr]
    exact hP.list _ hupper _ _
  · exact small_splitBuckets hP hupper _ _ _ _ r hr

/-- So far there are no large numbers in the reply. -/
structure SmallAnswer {φ : Type} (st : Party.Answer φ) : Prop where
  out : ∀ r ∈ st.out, Small r
  prevBound : SmallTimestamp st.prevBound.item.timestamp

omit hP in
theorem SmallAnswer.flush {φ : Type} {st : Party.Answer φ} (h : SmallAnswer st) : ∀ r ∈ st.flush, Small r := by
  intro r hr
  unfold Party.Answer.flush at hr
  split at hr
  · rw [List.mem_singleton.mp hr]
    exact ⟨h.prevBound, fun ids hids => by cases hids⟩
  · cases hr

omit hP in
theorem SmallAnswer.finishRange {φ : Type} {st : Party.Answer φ} (h : SmallAnswer st) {bound : NE.Bound}
    (hbound : SmallTimestamp bound.item.timestamp) (upper : ℕ) {o : List (NE.Range Window)} (ho : ∀ r ∈ o, Small r) :
    SmallAnswer (P.finishRange bound upper o st).1 := by
  unfold Party.finishRange
  split
  · refine ⟨fun r hr => ?_, h.prevBound⟩
    rcases List.mem_append.mp hr with hr | hr
    · exact h.out r hr
    · rw [List.mem_singleton.mp hr]
      exact small_fingerprint (fun h => absurd rfl h) _
  · exact ⟨fun r hr => (List.mem_append.mp hr).elim (h.out r) (ho r), hbound⟩

/-- One iteration: the reply gets no large numbers from a message without. -/
theorem SmallAnswer.answer {φ : Type} {same : φ → Window → Bool} {st : Party.Answer φ} (h : SmallAnswer st) {r : NE.Range φ}
    (hr : SmallTimestamp r.bound.item.timestamp) : SmallAnswer (P.answer same st r).1 := by
  obtain ⟨bound, payload⟩ := r
  have hnone : ∀ r ∈ ([] : List (NE.Range Window)), Small r := fun r hr => absurd hr List.not_mem_nil
  cases payload with
  | skip =>
    have hst : SmallAnswer { st with skip := true } := ⟨h.out, h.prevBound⟩
    exact hst.finishRange hr _ hnone
  | fingerprint f =>
    cases hsame : same f ⟨st.prevIndex, lowerBound P.items bound.item⟩ with
    | true =>
      rw [Party.answer_same hsame]
      refine finishRange ?_ hr _ hnone
      exact ⟨h.out, h.prevBound⟩
    | false =>
      rw [Party.answer_different hsame]
      refine finishRange ?_ hr _ fun r hr' => ?_
      · exact ⟨h.out, h.prevBound⟩
      · exact (List.mem_append.mp hr').elim (h.flush r) (small_splitRange hP _ _ hr r)
  | idList ids =>
    cases hinit : P.isInitiator with
    | true =>
      rw [Party.answer_report same st bound ids hinit]
      refine finishRange ?_ hr _ hnone
      exact ⟨h.out, h.prevBound⟩
    | false =>
      rw [Party.answer_idList same st bound ids hinit rfl]
      refine finishRange ?_ hr _ hnone
      refine ⟨fun r hr' => ?_, h.prevBound⟩
      rcases List.mem_append.mp hr' with hr' | hr'
      · exact (List.mem_append.mp hr').elim (h.out r) (h.flush r)
      · rw [List.mem_singleton.mp hr']
        refine hP.list _ ?_ _ _
        unfold Party.endBound
        split
        · exact hP.item _
        · exact hr

theorem SmallAnswer.answers {φ : Type} {same : φ → Window → Bool} {q : List (NE.Range φ)}
    (hq : ∀ r ∈ q, SmallTimestamp r.bound.item.timestamp) {st : Party.Answer φ} (h : SmallAnswer st) :
    SmallAnswer (P.answers same q st) := by
  induction q generalizing st with
  | nil => exact h
  | cons r q ih =>
    have hstep : SmallAnswer (P.answer same st r).1 := h.answer hP (hq r List.mem_cons_self)
    rw [Party.answers]
    cases hans : P.answer same st r with
    | mk st' stop =>
      rw [hans] at hstep
      cases stop with
      | true => exact hstep
      | false => exact ih (fun r hr => hq r (List.mem_cons_of_mem _ hr)) hstep

theorem small_reply {φ : Type} (same : φ → Window → Bool) {q : List (NE.Range φ)}
    (hq : ∀ r ∈ q, SmallTimestamp r.bound.item.timestamp) : ∀ r ∈ (P.reply same q).out, Small r :=
  have hempty : SmallAnswer ({} : Party.Answer φ) := ⟨fun _ hr => absurd hr List.not_mem_nil, fun _ => Nat.zero_lt_succ _⟩
  (hempty.answers hP hq).out

theorem small_initial : ∀ r ∈ P.initial, Small r := small_splitRange hP _ _ fun h => absurd rfl h

end

/-! ### Exchanges -/

section
variable {X : Pairing} (hC : SmallItems X.client.items) (hS : SmallItems X.server.items)
include hC hS

/-- No message of an exchange has large numbers in it. -/
theorem small_after (n : ℕ) :
    (∀ r ∈ (X.after n).message, Small r) ∧ ∀ r ∈ (X.atServer (X.after n).message).out, Small r := by
  have hserver : ∀ m : List (NE.Range Window), (∀ r ∈ m, Small r) → ∀ r ∈ (X.atServer m).out, Small r := fun m hm =>
    small_reply hS _ fun _ hr => (hm _ hr).timestamp
  induction n with
  | zero =>
    have hfirst : ∀ r ∈ (X.after 0).message, Small r := small_initial hC
    exact ⟨hfirst, hserver _ hfirst⟩
  | succ n ih =>
    have hnext : ∀ r ∈ (X.after (n + 1)).message, Small r := small_reply hC _ fun r hr => (ih.2 r hr).timestamp
    exact ⟨hnext, hserver _ hnext⟩

end

end NE.Js
