import Negentropy.Lib.Stateful
import Negentropy.Protocol

/-! Messages as lists of ranges: how they are written and read, and that what is written is
read back. The methods of `negentropy.h` that code bounds are these functions on the
timestamps kept in the object. -/

namespace NE

/-- The payload of a range, with `φ` for what stands for a fingerprint. -/
inductive Payload (φ : Type) where
  | skip
  | fingerprint (f : φ)
  | idList (ids : List ItemId)
  deriving DecidableEq

structure Range (φ : Type) where
  bound : Bound
  payload : Payload φ
  deriving DecidableEq

def Payload.map {φ ψ : Type} (f : φ → ψ) : Payload φ → Payload ψ
  | .skip => .skip
  | .fingerprint x => .fingerprint (f x)
  | .idList ids => .idList ids

def Range.map {φ ψ : Type} (f : φ → ψ) (r : Range φ) : Range ψ := ⟨r.bound, r.payload.map f⟩

/-! ### Writing -/

/-- The timestamp is sent as the difference to the last one; 0 is reserved for infinity. -/
def boundBytes (last : UInt64) (bound : Bound) : Bytes :=
  encodeVarInt (if bound.item.timestamp = MAX_U64 then 0 else bound.item.timestamp - last + 1) ++
    encodeVarInt (UInt64.ofNat bound.idLen) ++ bound.idPrefix

/-- A timestamp of at most ten bytes, a length byte, and an id. -/
theorem boundBytes_length (last : UInt64) (bound : Bound) : (boundBytes last bound).length ≤ 43 := by
  have h1 := encodeVarInt_length (if bound.item.timestamp = MAX_U64 then 0 else bound.item.timestamp - last + 1)
  have hle : bound.idLen ≤ 32 := bound.idLen_le
  have h2 : (encodeVarInt (UInt64.ofNat bound.idLen)).length = 1 := by
    apply encodeVarInt_length_one
    rw [UInt64.toNat_ofNat_of_lt' (lt_of_le_of_lt hle (by decide))]
    omega
  rw [boundBytes, List.length_append, List.length_append, h2, bound.idPrefix_length]
  omega

/-- Infinity is encoded the same way wherever it stands. -/
theorem boundBytes_infinity (last last' : UInt64) :
    boundBytes last (Bound.ofTimestamp MAX_U64) = boundBytes last' (Bound.ofTimestamp MAX_U64) := by
  simp only [boundBytes, Bound.ofTimestamp_timestamp, if_true]

def idBytes (ids : List ItemId) : Bytes := ids.flatMap ItemId.bytes

theorem idBytes_length (ids : List ItemId) : (idBytes ids).length = ID_SIZE * ids.length := by
  induction ids with
  | nil => rfl
  | cons id ids ih =>
    have := id.length_eq
    simp only [idBytes, List.flatMap_cons, List.length_append, List.length_cons] at ih ⊢
    rw [ih, this, Nat.mul_succ, Nat.add_comm]

def payloadBytes : Payload Fingerprint → Bytes
  | .skip => encodeVarInt Mode.skip.toU64
  | .fingerprint f => encodeVarInt Mode.fingerprint.toU64 ++ f.buf
  | .idList ids =>
      encodeVarInt Mode.idList.toU64 ++ encodeVarInt (UInt64.ofNat ids.length) ++ idBytes ids

def rangesBytes : UInt64 → List (Range Fingerprint) → Bytes
  | _, [] => []
  | last, r :: rs => boundBytes last r.bound ++ payloadBytes r.payload ++ rangesBytes r.bound.item.timestamp rs

/-- The timestamp that the next bound is relative to. -/
def lastTimestamp {φ : Type} : UInt64 → List (Range φ) → UInt64
  | last, [] => last
  | _, r :: rs => lastTimestamp r.bound.item.timestamp rs

theorem rangesBytes_append (last : UInt64) (rs rs' : List (Range Fingerprint)) :
    rangesBytes last (rs ++ rs') = rangesBytes last rs ++ rangesBytes (lastTimestamp last rs) rs' := by
  induction rs generalizing last with
  | nil => rfl
  | cons r rs ih => simp [rangesBytes, lastTimestamp, ih]

theorem lastTimestamp_append {φ : Type} (last : UInt64) (rs rs' : List (Range φ)) :
    lastTimestamp last (rs ++ rs') = lastTimestamp (lastTimestamp last rs) rs' := by
  induction rs generalizing last with
  | nil => rfl
  | cons r rs ih => exact ih _

@[simp] theorem lastTimestamp_map {φ ψ : Type} (f : φ → ψ) (last : UInt64) (rs : List (Range φ)) :
    lastTimestamp last (rs.map (Range.map f)) = lastTimestamp last rs := by
  induction rs generalizing last with
  | nil => rfl
  | cons r rs ih => exact ih _

/-! ### Reading -/

def readBound (last : UInt64) (encoded : Bytes) : Except Err (Bound × Bytes) := do
  let (timestamp, encoded) ← decodeVarInt encoded
  let timestamp := if timestamp = 0 then MAX_U64 else timestamp - 1
  let timestamp := timestamp + last
  let timestamp := if timestamp < last then MAX_U64 else timestamp
  let (len, encoded) ← decodeVarInt encoded
  let (id, encoded) ← getBytes encoded len.toNat
  return (← Bound.make timestamp id, encoded)

/-- `getBytes(query, FINGERPRINT_SIZE)`. -/
def readFingerprint (encoded : Bytes) : Except Err (Fingerprint × Bytes) :=
  if h : encoded.length < FINGERPRINT_SIZE then .error (.err "parse ends prematurely")
  else .ok (⟨encoded.take FINGERPRINT_SIZE, by simp; omega⟩, encoded.drop FINGERPRINT_SIZE)

def readPayload (encoded : Bytes) : Except Err (Payload Fingerprint × Bytes) := do
  let (mode, encoded) ← decodeVarInt encoded
  match Mode.ofU64 mode with
  | some .skip => return (.skip, encoded)
  | some .fingerprint =>
      let (f, encoded) ← readFingerprint encoded
      return (.fingerprint f, encoded)
  | some .idList =>
      let (numIds, encoded) ← decodeVarInt encoded
      let (ids, encoded) ← Negentropy.getIds numIds.toNat encoded
      return (.idList ids, encoded)
  | none => throw (.err "unexpected mode")

def readRange (last : UInt64) (encoded : Bytes) : Except Err (Range Fingerprint × Bytes) := do
  let (bound, encoded) ← readBound last encoded
  let (payload, encoded) ← readPayload encoded
  return (⟨bound, payload⟩, encoded)

/-- The ranges up to the first one that cannot be read, and the bytes that are left. -/
def readRanges : ℕ → UInt64 → Bytes → List (Range Fingerprint) × Bytes
  | 0, _, encoded => ([], encoded)
  | rounds + 1, last, encoded =>
      if encoded = [] then ([], encoded)
      else
        match readRange last encoded with
        | .ok (r, rest) =>
            let (rs, rest) := readRanges rounds r.bound.item.timestamp rest
            (r :: rs, rest)
        | .error _ => ([], encoded)

theorem getIds_length {n : ℕ} {encoded rest : Bytes} {ids : List ItemId}
    (h : Negentropy.getIds n encoded = .ok (ids, rest)) : rest.length ≤ encoded.length := by
  induction n generalizing encoded ids with
  | zero =>
    cases h
    exact le_rfl
  | succ n ih =>
    simp only [Negentropy.getIds, Stateful.except_bind_eq_ok] at h
    obtain ⟨⟨e, encoded'⟩, he, ⟨es, rest'⟩, hes, heq⟩ := h
    cases heq
    refine (ih hes).trans ?_
    unfold Negentropy.getId at he
    split at he
    · cases he
    · cases he
      simp

theorem readBound_length {last : UInt64} {encoded rest : Bytes} {b : Bound}
    (h : readBound last encoded = .ok (b, rest)) : rest.length < encoded.length := by
  simp only [readBound, Stateful.except_bind_eq_ok] at h
  obtain ⟨⟨t, e1⟩, h1, ⟨len, e2⟩, h2, ⟨id, e3⟩, h3, b, -, heq⟩ := h
  cases heq
  have h1 := decodeVarInt_length h1
  have h2 := decodeVarInt_length h2
  have h3 := congrArg List.length (getBytes_ok h3).1
  simp only [List.length_append] at h1 h2 h3 ⊢
  omega

theorem readPayload_length {encoded rest : Bytes} {pl : Payload Fingerprint}
    (h : readPayload encoded = .ok (pl, rest)) : rest.length ≤ encoded.length := by
  simp only [readPayload, Stateful.except_bind_eq_ok] at h
  obtain ⟨⟨mode, e1⟩, h1, h⟩ := h
  have h1 := decodeVarInt_length h1
  split at h
  · cases h
    exact h1.le
  · simp only [Stateful.except_bind_eq_ok] at h
    obtain ⟨⟨f, e2⟩, hf, heq⟩ := h
    cases heq
    unfold readFingerprint at hf
    split at hf
    · cases hf
    · cases hf
      simp only [List.length_drop]
      omega
  · simp only [Stateful.except_bind_eq_ok] at h
    obtain ⟨⟨n, e2⟩, hn, ⟨ids, e3⟩, hids, heq⟩ := h
    cases heq
    exact (getIds_length hids).trans ((decodeVarInt_length hn).le.trans h1.le)
  · cases h

/-- Reading a range uses at least a byte. -/
theorem readRange_length {last : UInt64} {encoded rest : Bytes} {r : Range Fingerprint}
    (h : readRange last encoded = .ok (r, rest)) : rest.length < encoded.length := by
  simp only [readRange, Stateful.except_bind_eq_ok] at h
  obtain ⟨⟨bound, e1⟩, hb, ⟨payload, e2⟩, hp, heq⟩ := h
  cases heq
  exact (readPayload_length hp).trans_lt (readBound_length hb)

/-! ### The round trip -/

/-- The difference that is sent, and what is made of it. -/
theorem timestamp_round_trip {last t : UInt64} (h : last ≤ t) :
    (let wire := if t = MAX_U64 then 0 else t - last + 1
     let timestamp := (if wire = 0 then MAX_U64 else wire - 1) + last
     if timestamp < last then MAX_U64 else timestamp) = t := by
  have hlt := t.toNat_lt
  have hle : last.toNat ≤ t.toNat := UInt64.le_iff_toNat_le.mp h
  by_cases hmax : t = MAX_U64
  · subst hmax
    simp only [if_true]
    split
    · rfl
    · next hge =>
      apply UInt64.toNat_inj.mp
      have hM : MAX_U64.toNat = 2 ^ 64 - 1 := rfl
      simp only [UInt64.lt_iff_toNat_lt, UInt64.toNat_add, hM] at hge ⊢
      omega
  · have hne : t.toNat ≠ 2 ^ 64 - 1 := fun h => hmax (UInt64.toNat_inj.mp h)
    have hsub : (t - last).toNat = t.toNat - last.toNat := UInt64.toNat_sub_of_le _ _ h
    have hwire : t - last + 1 ≠ 0 := by
      intro h0
      have := congrArg UInt64.toNat h0
      simp only [UInt64.toNat_add, hsub, UInt64.reduceToNat] at this
      omega
    have hback : t - last + 1 - 1 + last = t := by simp
    simp only [hmax, if_false, hwire, hback]
    rw [if_neg (UInt64.not_lt.mpr h)]

theorem readBound_boundBytes {last : UInt64} {b : Bound} (h : last ≤ b.item.timestamp) (rest : Bytes) :
    readBound last (boundBytes last b ++ rest) = .ok (b, rest) := by
  have hlen : (UInt64.ofNat b.idLen).toNat = b.idPrefix.length := by
    have := b.idLen_le
    rw [b.idPrefix_length, UInt64.toNat_ofNat_of_lt']
    exact lt_of_le_of_lt this (by decide)
  simp only [readBound, boundBytes, List.append_assoc, decodeVarInt_encodeVarInt, bind, Except.bind, hlen,
    getBytes_append]
  have := timestamp_round_trip h
  simp only at this
  rw [this, b.make_idPrefix]
  rfl

theorem getIds_idBytes (ids : List ItemId) (rest : Bytes) :
    Negentropy.getIds ids.length (idBytes ids ++ rest) = .ok (ids, rest) := by
  induction ids with
  | nil => rfl
  | cons id ids ih =>
    have hlen := id.length_eq
    have hid : Negentropy.getId (idBytes (id :: ids) ++ rest) = .ok (id, idBytes ids ++ rest) := by
      have hnot : ¬ (idBytes (id :: ids) ++ rest).length < ID_SIZE := by
        simp [idBytes, hlen]
      rw [Negentropy.getId, dif_neg hnot]
      congr 2
      · apply ItemId.ext
        simp [idBytes, ← hlen]
      · simp [idBytes, ← hlen]
    simp only [List.length_cons, Negentropy.getIds, hid, ih, bind, Except.bind, pure, Except.pure]

theorem readFingerprint_buf (f : Fingerprint) (rest : Bytes) :
    readFingerprint (f.buf ++ rest) = .ok (f, rest) := by
  have hlen := f.length_eq
  have hnot : ¬ (f.buf ++ rest).length < FINGERPRINT_SIZE := by
    simp [hlen]
  rw [readFingerprint, dif_neg hnot]
  congr 2
  · apply Fingerprint.ext
    simp [← hlen]
  · simp [← hlen]

/-- A list of identifiers has a length of 64 bits. -/
def Payload.Fits {φ : Type} : Payload φ → Prop
  | .idList ids => ids.length < 2 ^ 64
  | _ => True

theorem readPayload_payloadBytes {pl : Payload Fingerprint} (h : pl.Fits) (rest : Bytes) :
    readPayload (payloadBytes pl ++ rest) = .ok (pl, rest) := by
  cases pl with
  | skip => simp [readPayload, payloadBytes, decodeVarInt_encodeVarInt, bind, Except.bind, pure, Except.pure]
  | fingerprint f =>
    simp [readPayload, payloadBytes, decodeVarInt_encodeVarInt, readFingerprint_buf, bind, Except.bind, pure,
      Except.pure]
  | idList ids =>
    have hlen : (UInt64.ofNat ids.length).toNat = ids.length := UInt64.toNat_ofNat_of_lt' h
    simp [readPayload, payloadBytes, decodeVarInt_encodeVarInt, getIds_idBytes, hlen, bind, Except.bind, pure,
      Except.pure]

/-- A list of ranges whose timestamps do not decrease, from `last` on. -/
def Encodable {φ : Type} : UInt64 → List (Range φ) → Prop
  | _, [] => True
  | last, r :: rs => last ≤ r.bound.item.timestamp ∧ r.payload.Fits ∧ Encodable r.bound.item.timestamp rs

theorem boundBytes_ne_nil (last : UInt64) (b : Bound) : boundBytes last b ≠ [] := by
  intro h
  simp only [boundBytes, List.append_eq_nil_iff] at h
  have := decodeVarInt_encodeVarInt
    (if b.item.timestamp = MAX_U64 then 0 else b.item.timestamp - last + 1) []
  rw [h.1.1] at this
  cases this

/-- What is written is read back. -/
theorem readRanges_rangesBytes {rounds : ℕ} {last : UInt64} {rs : List (Range Fingerprint)}
    (h : Encodable last rs) (hr : (rangesBytes last rs).length ≤ rounds) :
    readRanges rounds last (rangesBytes last rs) = (rs, []) := by
  induction rounds generalizing last rs with
  | zero =>
    cases rs with
    | nil => rfl
    | cons r rs =>
      have := List.length_pos_iff.mpr (boundBytes_ne_nil last r.bound)
      simp only [rangesBytes, List.length_append] at hr
      omega
  | succ rounds ih =>
    cases rs with
    | nil => rfl
    | cons r rs =>
      have hne : rangesBytes last (r :: rs) ≠ [] := by simp [rangesBytes, boundBytes_ne_nil]
      have hpos := List.length_pos_iff.mpr (boundBytes_ne_nil last r.bound)
      have hread : readRange last (rangesBytes last (r :: rs)) =
          .ok (r, rangesBytes r.bound.item.timestamp rs) := by
        simp only [readRange, rangesBytes, List.append_assoc, readBound_boundBytes h.1,
          readPayload_payloadBytes h.2.1, bind, Except.bind, pure, Except.pure]
      simp only [rangesBytes, List.length_append] at hr
      rw [readRanges, if_neg hne, hread]
      simp only [ih h.2.2 (by omega)]

/-! ### The methods -/

section
variable {σ : Type}

/-- The object with its two timestamps replaced. -/
def Negentropy.at (ne : Negentropy σ) (lastTimestampIn lastTimestampOut : UInt64) : Negentropy σ :=
  { ne with lastTimestampIn, lastTimestampOut }

open Stateful Negentropy

theorem call_eq_ok {α : Type} {x : Except Err α} {ne ne' : Negentropy σ} {a : α} :
    call x ne = .ok a ne' ↔ x = .ok a ∧ ne = ne' := by
  cases x with
  | ok b => simp [call, pure_eq_ok]
  | error e => simp [call, throw_apply]

theorem encodeBound_eq (ne : Negentropy σ) (i o : UInt64) (b : Bound) :
    encodeBound b (ne.at i o) = .ok (boundBytes o b) (ne.at i b.item.timestamp) := by
  by_cases h : b.item.timestamp = MAX_U64
  · simp [encodeBound, encodeTimestampOut, boundBytes, h, Negentropy.at, bind, EStateM.bind, modify_apply, pure, EStateM.pure]
  · simp [encodeBound, encodeTimestampOut, boundBytes, h, Negentropy.at, bind, EStateM.bind, modify_apply, pure, EStateM.pure, get_apply]

theorem make_timestamp {t : UInt64} {id : Bytes} {b : Bound} (h : Bound.make t id = .ok b) :
    b.item.timestamp = t := by
  unfold Bound.make at h
  split at h <;> cases h
  rfl

theorem decodeBound_eq_ok {ne : Negentropy σ} {i o : UInt64} {encoded rest : Bytes} {b : Bound}
    {ne' : Negentropy σ} :
    decodeBound encoded (ne.at i o) = .ok (b, rest) ne' ↔
      readBound i encoded = .ok (b, rest) ∧ ne' = ne.at b.item.timestamp o := by
  simp only [decodeBound, decodeTimestampIn, readBound, bind_eq_ok, call_eq_ok, except_bind_eq_ok, pure_eq_ok,
    get_eq_ok, modify_eq_ok]
  constructor
  · rintro ⟨-, -, ⟨⟨v, e1⟩, -, ⟨h1, rfl⟩, -, -, ⟨rfl, rfl⟩, -, -, rfl, rfl, rfl⟩, ⟨len, e2⟩, -, ⟨h2, rfl⟩,
      ⟨id, e3⟩, -, ⟨h3, rfl⟩, b', -, ⟨h4, rfl⟩, heq, rfl⟩
    cases heq
    refine ⟨⟨_, h1, _, h2, _, h3, _, h4, rfl⟩, ?_⟩
    rw [make_timestamp h4]
    rfl
  · rintro ⟨⟨⟨v, e1⟩, h1, ⟨len, e2⟩, h2, ⟨id, e3⟩, h3, b', h4, heq⟩, rfl⟩
    cases heq
    refine ⟨_, _, ⟨_, _, ⟨h1, rfl⟩, _, _, ⟨rfl, rfl⟩, (), _, rfl, rfl, rfl⟩, _, _, ⟨h2, rfl⟩, _, _, ⟨h3, rfl⟩,
      _, _, ⟨h4, rfl⟩, rfl, ?_⟩
    rw [make_timestamp h4]
    rfl

end

end NE
