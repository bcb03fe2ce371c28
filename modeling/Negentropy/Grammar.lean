import Negentropy.Calls
import Negentropy.Sha256
import Negentropy.Storage.Vector

/-! The grammar of messages, and what the parser makes of it. A number on the wire has any
size; the parser keeps its low 64 bits, and the low 32 bits of a mode. -/

namespace NE

open Sorted Stateful Negentropy

/-! ### The grammar -/

/-- The value of some digits to the base 128, most significant first, behind the value `n`. -/
def digitsValue (n : ℕ) (bs : Bytes) : ℕ := bs.foldl (fun n b => 128 * n + b.toNat % 128) n

/-- `Varint := <Digit+128>* <Digit>`, with its value. -/
structure Varint (bs : Bytes) (n : ℕ) : Prop where
  digits : ∃ ds d, bs = ds ++ [d] ∧ (∀ b ∈ ds, 128 ≤ b.toNat) ∧ d.toNat < 128
  value : n = digitsValue 0 bs

/-- What a number on the wire may stand for: `number v n` and `mode v n` say that the value `v`
stands for `n`. -/
structure Reading where
  number : ℕ → ℕ → Prop
  mode : ℕ → ℕ → Prop

/-- Numbers stand for themselves, and have 64 bits. -/
def Reading.exact : Reading where
  number v n := v < 2 ^ 64 ∧ n = v
  mode v n := v < 2 ^ 64 ∧ n = v

/-- Numbers are cut down to the widths of `uint64_t` and of `Mode`. -/
def Reading.machine : Reading where
  number v n := n = v % 2 ^ 64
  mode v n := n = v % 2 ^ 32

/-- `Bound := <encodedTimestamp (Varint)> <length (Varint)> <idPrefix (Byte)>*` -/
inductive BoundText (R : Reading) : Bytes → Prop where
  | mk {ts len idPrefix : Bytes} {v t w l : ℕ} : Varint ts v → R.number v t → Varint len w → R.number w l → l ≤ ID_SIZE →
      idPrefix.length = l → BoundText R (ts ++ (len ++ idPrefix))

/-- The payload of each mode. -/
inductive PayloadText (R : Reading) : ℕ → Bytes → Prop where
  | skip : PayloadText R 0 []
  | fingerprint {f : Bytes} : f.length = FINGERPRINT_SIZE → PayloadText R 1 f
  | idList {count ids : Bytes} {v n : ℕ} : Varint count v → R.number v n → ids.length = ID_SIZE * n →
      PayloadText R 2 (count ++ ids)

/-- `Range := <upperBound (Bound)> <mode (Varint)> <payload (Skip | Fingerprint | IdList)>` -/
inductive RangeText (R : Reading) : Bytes → Prop where
  | mk {bound mode payload : Bytes} {v m : ℕ} : BoundText R bound → Varint mode v → R.mode v m → PayloadText R m payload →
      RangeText R (bound ++ (mode ++ payload))

inductive RangesText (R : Reading) : Bytes → Prop where
  | nil : RangesText R []
  | cons {r rs : Bytes} : RangeText R r → RangesText R rs → RangesText R (r ++ rs)

/-- `Message := <protocolVersion (Byte)> <Range>*`, where a party that did not initiate takes the
versions it does not speak, whatever follows. -/
def MessageText (R : Reading) (isInitiator : Bool) (q : Bytes) : Prop :=
  (isInitiator = false ∧ ∃ version rest, q = version :: rest ∧ 0x60 ≤ version ∧ version ≤ 0x6F ∧ version ≠ PROTOCOL_VERSION) ∨
    ∃ rest, q = PROTOCOL_VERSION :: rest ∧ RangesText R rest

/-- A range that only reads as one because a number in it is cut down. -/
def CutRange (r : Bytes) : Prop := RangeText .machine r ∧ ¬ RangeText .exact r

/-- A message with such a range in it. -/
def CutMessage (q : Bytes) : Prop :=
  ∃ before r after, q = PROTOCOL_VERSION :: (before ++ (r ++ after)) ∧ RangesText .machine before ∧ CutRange r ∧
    RangesText .machine after

/-! ### Varints -/

theorem toNat_ofNat (v : ℕ) : (UInt64.ofNat v).toNat = v % 2 ^ 64 := UInt64.toNat_ofNat'

theorem digitsValue_mod (n : ℕ) (bs : Bytes) : digitsValue (n % 2 ^ 64) bs % 2 ^ 64 = digitsValue n bs % 2 ^ 64 := by
  induction bs generalizing n with
  | nil => simp [digitsValue]
  | cons b bs ih =>
    have hstep : ∀ k, digitsValue k (b :: bs) = digitsValue (128 * k + b.toNat % 128) bs := fun _ => rfl
    rw [hstep, hstep, ← ih (128 * n + _), ← ih (128 * (n % 2 ^ 64) + _)]
    congr 2
    omega

/-- One digit of the decoder's loop. -/
theorem shift_digit (res : UInt64) (b : UInt8) :
    ((res <<< 7) ||| (b &&& 0x7F).toUInt64).toNat = (128 * res.toNat + b.toNat % 128) % 2 ^ 64 := by
  have hlow : (b &&& 0x7F).toNat = b.toNat % 128 := by
    rw [UInt8.toNat_and]
    exact Nat.and_two_pow_sub_one_eq_mod b.toNat 7
  have h7 : (7 : UInt64).toNat % 64 = 7 := rfl
  have hres := res.toNat_lt
  have hshift : res.toNat * 2 ^ 7 % 2 ^ 64 = 2 ^ 7 * (res.toNat % 2 ^ 57) := by omega
  rw [UInt64.toNat_or, UInt64.toNat_shiftLeft, UInt8.toNat_toUInt64, hlow, h7, Nat.shiftLeft_eq, hshift,
    ← Nat.two_pow_add_eq_or_of_lt (by omega)]
  omega

theorem flag_eq_zero_iff (b : UInt8) : b &&& 0x80 = 0 ↔ b.toNat < 128 := by
  have key : ∀ i : Fin 256, UInt8.ofNat i.val &&& 0x80 = 0 ↔ i.val < 128 := by decide +kernel
  simpa using key ⟨b.toNat, b.toNat_lt⟩

theorem decodeVarIntFrom_digitsValue (ds : Bytes) (d : UInt8) (hds : ∀ b ∈ ds, 128 ≤ b.toNat) (hd : d.toNat < 128)
    (rest : Bytes) (res : UInt64) :
    decodeVarIntFrom res (ds ++ d :: rest) = .ok (UInt64.ofNat (digitsValue res.toNat (ds ++ [d])), rest) := by
  induction ds generalizing res with
  | nil =>
    rw [List.nil_append, decodeVarIntFrom, if_pos ((flag_eq_zero_iff d).mpr hd)]
    congr 2
    apply UInt64.toNat_inj.mp
    rw [shift_digit, toNat_ofNat]
    rfl
  | cons b ds ih =>
    have hb : ¬ b &&& 0x80 = 0 := by
      rw [flag_eq_zero_iff]
      exact not_lt.mpr (hds b List.mem_cons_self)
    rw [List.cons_append, decodeVarIntFrom, if_neg hb, ih fun x hx => hds x (List.mem_cons_of_mem _ hx)]
    congr 2
    apply UInt64.toNat_inj.mp
    rw [shift_digit, toNat_ofNat, toNat_ofNat]
    exact digitsValue_mod _ _

theorem decodeVarInt_varint {bs : Bytes} {n : ℕ} (h : Varint bs n) (rest : Bytes) :
    decodeVarInt (bs ++ rest) = .ok (UInt64.ofNat n, rest) := by
  obtain ⟨⟨ds, d, rfl, hds, hd⟩, rfl⟩ := h
  rw [List.append_assoc, List.singleton_append]
  exact decodeVarIntFrom_digitsValue ds d hds hd rest 0

/-- What the decoder reads is a varint. -/
theorem varint_of_decodeVarIntFrom {res n : UInt64} {encoded rest : Bytes}
    (h : decodeVarIntFrom res encoded = .ok (n, rest)) :
    ∃ ds d, encoded = ds ++ d :: rest ∧ (∀ b ∈ ds, 128 ≤ b.toNat) ∧ d.toNat < 128 := by
  induction encoded generalizing res with
  | nil => cases h
  | cons b encoded ih =>
    simp only [decodeVarIntFrom] at h
    split at h
    · next hflag =>
      cases h
      exact ⟨[], b, rfl, by simp, (flag_eq_zero_iff b).mp hflag⟩
    · next hflag =>
      obtain ⟨ds, d, rfl, hds, hd⟩ := ih h
      refine ⟨b :: ds, d, rfl, ?_, hd⟩
      rw [flag_eq_zero_iff, not_lt] at hflag
      exact List.forall_mem_cons.mpr ⟨hflag, hds⟩

theorem varint_of_decodeVarInt {n : UInt64} {encoded rest : Bytes} (h : decodeVarInt encoded = .ok (n, rest)) :
    ∃ bs v, encoded = bs ++ rest ∧ Varint bs v ∧ n = UInt64.ofNat v := by
  obtain ⟨ds, d, rfl, hds, hd⟩ := varint_of_decodeVarIntFrom h
  have hvarint : Varint (ds ++ [d]) (digitsValue 0 (ds ++ [d])) := ⟨⟨ds, d, rfl, hds, hd⟩, rfl⟩
  have hdec := decodeVarInt_varint hvarint rest
  rw [List.append_assoc, List.singleton_append, h] at hdec
  injection hdec with hdec
  exact ⟨_, _, by simp, hvarint, congrArg Prod.fst hdec⟩

/-! ### Ranges -/

theorem mode_ofNat (v : ℕ) :
    Mode.ofU64 (UInt64.ofNat v) =
      if v % 2 ^ 32 = 0 then some .skip else if v % 2 ^ 32 = 1 then some .fingerprint
      else if v % 2 ^ 32 = 2 then some .idList else none := by
  have htoNat : (UInt64.ofNat v).toUInt32.toNat = v % 2 ^ 32 := by
    rw [UInt64.toNat_toUInt32, toNat_ofNat]
    omega
  unfold Mode.ofU64
  split
  · next h => rw [← htoNat, h]; rfl
  · next h => rw [← htoNat, h]; rfl
  · next h => rw [← htoNat, h]; rfl
  · next h0 h1 h2 =>
    have hne : ∀ k : ℕ, (UInt32.ofNat k ≠ (UInt64.ofNat v).toUInt32) → v % 2 ^ 32 ≠ k := by
      rintro k hk rfl
      rw [← htoNat, UInt32.ofNat_toNat] at hk
      exact hk rfl
    rw [if_neg (hne 0 fun h => h0 h.symm), if_neg (hne 1 fun h => h1 h.symm), if_neg (hne 2 fun h => h2 h.symm)]

theorem getBytes_of_length {xs rest : Bytes} {n : ℕ} (h : xs.length = n) : getBytes (xs ++ rest) n = .ok (xs, rest) :=
  h ▸ getBytes_append xs rest

theorem readBound_text (last : UInt64) {b : Bytes} (h : BoundText .machine b) (rest : Bytes) :
    ∃ bound, readBound last (b ++ rest) = .ok (bound, rest) := by
  obtain @⟨ts, len, idPrefix, v, t, w, l, hts, -, hlen, hl, hle, hid⟩ := h
  have hmake : ∀ timestamp, Bound.make timestamp idPrefix = .ok (Bound.ofPrefix timestamp idPrefix (hid.trans_le hle)) :=
    fun timestamp => dif_pos _
  have hw : (UInt64.ofNat w).toNat = l := by rw [toNat_ofNat]; exact hl.symm
  simp only [readBound, List.append_assoc, decodeVarInt_varint hts, decodeVarInt_varint hlen, hw, getBytes_of_length hid,
    hmake, bind, Except.bind, pure, Except.pure]
  exact ⟨_, rfl⟩

theorem text_of_readBound {last : UInt64} {encoded rest : Bytes} {bound : Bound}
    (h : readBound last encoded = .ok (bound, rest)) : ∃ b, encoded = b ++ rest ∧ BoundText .machine b := by
  simp only [readBound, except_bind_eq_ok] at h
  obtain ⟨⟨tv, e1⟩, h1, ⟨lv, e2⟩, h2, ⟨id, e3⟩, h3, b, hmake, heq⟩ := h
  cases heq
  obtain ⟨ts, v, rfl, hts, rfl⟩ := varint_of_decodeVarInt h1
  obtain ⟨len, w, hlen, hlen', rfl⟩ := varint_of_decodeVarInt h2
  obtain ⟨hid, hidlen⟩ := getBytes_ok h3
  dsimp only at hlen hid hidlen
  have hle : id.length ≤ ID_SIZE := by
    by_contra hgt
    simp [Bound.make, hgt] at hmake
  rw [toNat_ofNat] at hidlen
  exact ⟨ts ++ (len ++ id), by simp [hlen, hid], .mk hts rfl hlen' rfl (hidlen ▸ hle) hidlen⟩

theorem getIds_of_length {n : ℕ} {xs : Bytes} (h : xs.length = ID_SIZE * n) (rest : Bytes) :
    ∃ ids, getIds n (xs ++ rest) = .ok (ids, rest) := by
  induction n generalizing xs with
  | zero =>
    obtain rfl : xs = [] := List.length_eq_zero_iff.mp h
    exact ⟨[], rfl⟩
  | succ n ih =>
    rw [Nat.mul_succ] at h
    obtain ⟨ids, hids⟩ := @ih (xs.drop ID_SIZE) (by simp; omega)
    have hnot : ¬ (xs ++ rest).length < ID_SIZE := by simp; omega
    have hdrop : (xs ++ rest).drop ID_SIZE = xs.drop ID_SIZE ++ rest := List.drop_append_of_le_length (by omega)
    simp only [getIds, getId, dif_neg hnot, hdrop, hids, bind, Except.bind, pure, Except.pure]
    exact ⟨_, rfl⟩

theorem length_of_getIds {n : ℕ} {encoded rest : Bytes} {ids : List ItemId} (h : getIds n encoded = .ok (ids, rest)) :
    ∃ xs, encoded = xs ++ rest ∧ xs.length = ID_SIZE * n := by
  induction n generalizing encoded ids with
  | zero =>
    cases h
    exact ⟨[], rfl, rfl⟩
  | succ n ih =>
    simp only [getIds, except_bind_eq_ok] at h
    obtain ⟨⟨e, encoded'⟩, he, ⟨es, rest'⟩, hes, heq⟩ := h
    cases heq
    obtain ⟨xs, hxs, hlen⟩ := ih hes
    unfold getId at he
    split at he
    · cases he
    · next hnot =>
      cases he
      refine ⟨encoded.take ID_SIZE ++ xs, ?_, ?_⟩
      · rw [List.append_assoc, ← hxs, List.take_append_drop]
      · rw [List.length_append, hlen, List.length_take, Nat.mul_succ]
        omega

theorem readRange_text (last : UInt64) {r : Bytes} (h : RangeText .machine r) (rest : Bytes) :
    ∃ range, readRange last (r ++ rest) = .ok (range, rest) := by
  obtain @⟨bound, mode, payload, v, m, hbound, hmode, hm, hpayload⟩ := h
  obtain ⟨b, hb⟩ := readBound_text last hbound (mode ++ (payload ++ rest))
  have hm : m = v % 2 ^ 32 := hm
  suffices hp : ∃ pl, readPayload (mode ++ (payload ++ rest)) = .ok (pl, rest) by
    obtain ⟨pl, hp⟩ := hp
    exact ⟨⟨b, pl⟩, by simp [readRange, hb, hp, bind, Except.bind, pure, Except.pure]⟩
  simp only [readPayload, decodeVarInt_varint hmode, mode_ofNat, ← hm, bind, Except.bind]
  cases hpayload with
  | skip => exact ⟨.skip, rfl⟩
  | fingerprint hf =>
    have hnot : ¬ (payload ++ rest).length < FINGERPRINT_SIZE := by simp [hf]
    have hdrop : (payload ++ rest).drop FINGERPRINT_SIZE = rest := by rw [← hf, List.drop_left]
    rw [if_neg Nat.one_ne_zero, if_pos rfl]
    simp only [readFingerprint, dif_neg hnot, hdrop]
    exact ⟨_, rfl⟩
  | @idList count ids v' n hcount hn hids =>
    have hn' : (UInt64.ofNat v').toNat = n := by rw [toNat_ofNat]; exact hn.symm
    obtain ⟨es, hes⟩ := getIds_of_length hids rest
    rw [if_neg (by decide), if_neg (by decide), if_pos rfl]
    simp only [List.append_assoc, decodeVarInt_varint hcount, hn', hes]
    exact ⟨_, rfl⟩

theorem text_of_readRange {last : UInt64} {encoded rest : Bytes} {range : Range Fingerprint}
    (h : readRange last encoded = .ok (range, rest)) : ∃ r, encoded = r ++ rest ∧ RangeText .machine r := by
  simp only [readRange, except_bind_eq_ok] at h
  obtain ⟨⟨bound, e1⟩, hb, ⟨payload, e2⟩, hp, heq⟩ := h
  cases heq
  obtain ⟨b, rfl, hbound⟩ := text_of_readBound hb
  simp only [readPayload, except_bind_eq_ok] at hp
  obtain ⟨⟨mv, e3⟩, hmode, hp⟩ := hp
  obtain ⟨mode, v, rfl, hmode', rfl⟩ := varint_of_decodeVarInt hmode
  suffices hpl : ∃ p, e3 = p ++ e2 ∧ PayloadText .machine (v % 2 ^ 32) p by
    obtain ⟨p, rfl, hpl⟩ := hpl
    exact ⟨b ++ (mode ++ p), by simp, .mk hbound hmode' rfl hpl⟩
  simp only [mode_ofNat] at hp
  by_cases h0 : v % 2 ^ 32 = 0
  · rw [if_pos h0] at hp
    cases hp
    rw [h0]
    exact ⟨[], rfl, .skip⟩
  · rw [if_neg h0] at hp
    by_cases h1 : v % 2 ^ 32 = 1
    · rw [if_pos h1] at hp
      simp only [except_bind_eq_ok] at hp
      obtain ⟨⟨f, e4⟩, hf, heq⟩ := hp
      cases heq
      obtain ⟨hsplit, hlen⟩ := getBytes_ok (getBytes_of_readFingerprint hf)
      rw [h1]
      exact ⟨f.buf, hsplit, .fingerprint hlen⟩
    · rw [if_neg h1] at hp
      by_cases h2 : v % 2 ^ 32 = 2
      · rw [if_pos h2] at hp
        simp only [except_bind_eq_ok] at hp
        obtain ⟨⟨nv, e4⟩, hn, ⟨ids, e5⟩, hids, heq⟩ := hp
        cases heq
        obtain ⟨count, w, rfl, hcount, rfl⟩ := varint_of_decodeVarInt hn
        obtain ⟨xs, hxs, hlen⟩ := length_of_getIds hids
        dsimp only at hxs hlen
        rw [toNat_ofNat] at hlen
        rw [h2]
        exact ⟨count ++ xs, by simp [hxs], .idList hcount rfl hlen⟩
      · rw [if_neg h2] at hp
        cases hp

/-- The reader takes all of what is ranges, and nothing else. -/
theorem readRanges_eq_nil_iff {rounds : ℕ} (last : UInt64) {encoded : Bytes} (hlen : encoded.length ≤ rounds) :
    (readRanges rounds last encoded).2 = [] ↔ RangesText .machine encoded := by
  induction rounds generalizing last encoded with
  | zero =>
    obtain rfl : encoded = [] := List.length_eq_zero_iff.mp (Nat.le_zero.mp hlen)
    exact ⟨fun _ => .nil, fun _ => rfl⟩
  | succ rounds ih =>
    rw [readRanges]
    by_cases hnil : encoded = []
    · subst hnil
      exact ⟨fun _ => .nil, fun _ => rfl⟩
    · rw [if_neg hnil]
      cases hread : readRange last encoded with
      | error e =>
        refine ⟨fun h => absurd h hnil, fun h => ?_⟩
        cases h with
        | nil => exact absurd rfl hnil
        | cons hr _ =>
          obtain ⟨range, hok⟩ := readRange_text last hr _
          rw [hread] at hok
          cases hok
      | ok p =>
        obtain ⟨range, rest⟩ := p
        have hshort := readRange_length hread
        have hrec := @ih range.bound.item.timestamp rest (by omega)
        constructor
        · intro h
          obtain ⟨r, rfl, hr⟩ := text_of_readRange hread
          exact .cons hr (hrec.mp h)
        · intro h
          cases h with
          | nil => exact absurd rfl hnil
          | cons hr hrs =>
            obtain ⟨range', hok⟩ := readRange_text last hr _
            rw [hread] at hok
            cases hok
            exact hrec.mpr hrs

/-! ### The loop takes what the reader takes -/

/-- A search that starts inside the storage ends there. -/
def Searches {σ : Type} [StorageBase σ] (s : σ) (n : ℕ) : Prop :=
  ∀ b bound, b ≤ n → ∃ i, b ≤ i ∧ i ≤ n ∧ StorageBase.findLowerBound s b n bound = .ok i

section
variable {σ : Type} [StorageBase σ] {ne : Negentropy σ} {items : List Item} {fp : ℕ → ℕ → Fingerprint}

omit [StorageBase σ] in
theorem doSkip_total (ne : Negentropy σ) (st : ReconcileState) (i o : UInt64) :
    ∃ st' bytes o', doSkip st (ne.at i o) = .ok (st', bytes) (ne.at i o') ∧ st'.query = st.query := by
  by_cases hskip : st.skip = true
  · have heq : (doSkip st : Method σ (ReconcileState × Bytes)) =
        (do
          let bound ← encodeBound st.prevBound
          return ({ st with skip := false }, bound ++ encodeVarInt Mode.skip.toU64)) := by rw [doSkip, if_pos hskip]
    rw [heq]
    exact ⟨_, _, _, bind_of_ok (encodeBound_eq ne i o _), rfl⟩
  · exact ⟨st, [], o, by rw [doSkip, if_neg hskip]; rfl, rfl⟩

/-- Without a limit the loop is never left early. -/
theorem finishRange_unlimited (hlim : ne.frameSizeLimit = 0) (size : ℕ) (currBound : Bound) (upper : ℕ) (o : Bytes)
    (st : ReconcileState) (i out : UInt64) :
    finishRange size currBound upper o st (ne.at i out) =
      .ok ({ st with fullOutput := st.fullOutput ++ o, prevIndex := upper, prevBound := currBound }, false) (ne.at i out) := by
  have hex : (ne.at i out).exceededFrameSizeLimit (st.fullOutput.length + o.length) = false := by
    simp [exceededFrameSizeLimit, Negentropy.at, hlim]
  have hget : (get : Method σ (Negentropy σ)) (ne.at i out) = .ok (ne.at i out) (ne.at i out) := rfl
  rw [finishRange]
  refine (bind_of_ok hget).trans ?_
  rw [hex, if_neg Bool.false_ne_true]
  rfl

omit [StorageBase σ] in
theorem respondIds_upper (hlim : ne.frameSizeLimit = 0) (fullOutput : Bytes) (own : List Item) (b : ℕ) (r : Response) :
    (iterateItems (respondIds ne fullOutput) own b r).upper = r.upper := by
  induction own generalizing b r with
  | nil => rfl
  | cons x own ih =>
    have hex : ∀ n, ne.exceededFrameSizeLimit n = false := fun n => by simp [exceededFrameSizeLimit, hlim]
    simp only [iterateItems, respondIds, hex, Bool.false_eq_true, if_false]
    exact ih _ _

/-- The computation ends a range of the loop: what is left to read is `rest`. -/
def Passes (ne : Negentropy σ) (n : ℕ) (last : UInt64) (rest : Bytes) (m : Method σ (ReconcileState × Bool))
    (s : Negentropy σ) : Prop :=
  ∃ st o, m s = .ok (st, false) (ne.at last o) ∧ st.query = rest ∧ st.prevIndex ≤ n

omit [StorageBase σ] in
theorem Passes.bind {α : Type} {n : ℕ} {last : UInt64} {rest : Bytes} {m : Method σ α} {s s' : Negentropy σ} {a : α}
    {f : α → Method σ (ReconcileState × Bool)} (h : m s = .ok a s') (hf : Passes ne n last rest (f a) s') :
    Passes ne n last rest (m >>= f) s := by
  obtain ⟨st, o, heq, hst⟩ := hf
  exact ⟨st, o, (bind_of_ok h).trans heq, hst⟩

theorem finishRange_passes (hlim : ne.frameSizeLimit = 0) {n upper : ℕ} (size : ℕ) (currBound : Bound) (hu : upper ≤ n)
    (bytes : Bytes) (st : ReconcileState) (i out : UInt64) :
    Passes ne n i st.query (finishRange size currBound upper bytes st) (ne.at i out) :=
  ⟨_, out, finishRange_unlimited hlim size currBound upper bytes st i out, rfl, hu⟩

theorem reconcileFingerprint_passes (hs : Reads ne.storage items fp) (hlim : ne.frameSizeLimit = 0) {lower upper : ℕ}
    (hl : lower ≤ upper) (hu : upper ≤ items.length) (bound : Bound) {st : ReconcileState} {f : Fingerprint}
    {rest : Bytes} (hf : readFingerprint st.query = .ok (f, rest)) (i o : UInt64) :
    Passes ne items.length i rest (reconcileFingerprint items.length bound lower upper st) (ne.at i o) := by
  have hbytes : call (getBytes st.query FINGERPRINT_SIZE) (ne.at i o) = .ok (f.buf, rest) (ne.at i o) :=
    call_eq_ok.mpr ⟨getBytes_of_readFingerprint hf, rfl⟩
  refine .bind hbytes (.bind (fingerprint_eq hs hl hu i o) ?_)
  by_cases hsame : f.buf = (fp lower upper).buf
  · simp only [ne_eq, hsame, not_true_eq_false, if_false]
    exact finishRange_passes hlim items.length bound hu [] { st with query := rest, skip := true } i o
  · obtain ⟨st', bytes, o', hskip, hquery⟩ := doSkip_total ne { st with query := rest } i o
    simp only [ne_eq, hsame, not_false_eq_true, if_true]
    refine .bind hskip (.bind (splitRange_eq hs hl hu bound i o') ?_)
    rw [← show st'.query = rest from hquery]
    exact finishRange_passes hlim items.length bound hu _ st' i _

theorem reconcileIdList_passes (hs : Reads ne.storage items fp) (hlim : ne.frameSizeLimit = 0) {lower upper : ℕ}
    (hl : lower ≤ upper) (hu : upper ≤ items.length) (bound : Bound) {st : ReconcileState} {numIds : UInt64}
    {ids : List ItemId} {query rest : Bytes} (hn : decodeVarInt st.query = .ok (numIds, query))
    (hids : getIds numIds.toNat query = .ok (ids, rest)) (i o : UInt64) :
    Passes ne items.length i rest (reconcileIdList items.length bound lower upper st) (ne.at i o) := by
  have hnum : call (decodeVarInt st.query) (ne.at i o) = .ok (numIds, query) (ne.at i o) := call_eq_ok.mpr ⟨hn, rfl⟩
  have hlist : call (getIds numIds.toNat query) (ne.at i o) = .ok (ids, rest) (ne.at i o) := call_eq_ok.mpr ⟨hids, rfl⟩
  have hget : (get : Method σ (Negentropy σ)) (ne.at i o) = .ok (ne.at i o) (ne.at i o) := rfl
  refine .bind hnum (.bind hlist (.bind hget ?_))
  by_cases hinit : (ne.at i o).isInitiator = true
  · rw [if_pos hinit]
    refine .bind (iterate_eq hs hl hu compareIds (st.haveIds, ids.foldl insertElem []) i o) ?_
    exact finishRange_passes hlim items.length bound hu [] _ i o
  · obtain ⟨st', bytes, o', hskip, hquery⟩ := doSkip_total ne { st with query := rest } i o
    have hiter := iterate_eq hs hl hu (respondIds (ne.at i o) st'.fullOutput) { endBound := bound, upper } i o'
    have hupper := respondIds_upper (show (ne.at i o).frameSizeLimit = 0 from hlim) st'.fullOutput (slice items lower upper) lower
      { endBound := bound, upper }
    rw [if_neg hinit]
    refine .bind hskip (.bind hiter (.bind (encodeBound_eq ne i o' _) ?_))
    rw [← show st'.query = rest from hquery]
    exact finishRange_passes hlim items.length bound ((congrArg (· ≤ items.length) hupper).mpr hu) [] _ i _

/-- An iteration goes through when the next range can be read. -/
theorem reconcileRange_passes (hs : Reads ne.storage items fp) (hf : Searches ne.storage items.length)
    (hlim : ne.frameSizeLimit = 0) {st : ReconcileState} (hp : st.prevIndex ≤ items.length) {i : UInt64}
    {r : Range Fingerprint} {rest : Bytes} (hread : readRange i st.query = .ok (r, rest)) (o : UInt64) :
    Passes ne items.length r.bound.item.timestamp rest (reconcileRange items.length st) (ne.at i o) := by
  simp only [readRange, readPayload, except_bind_eq_ok] at hread
  obtain ⟨⟨bound, encoded1⟩, hbound, ⟨payload, rest'⟩, ⟨⟨mode, encoded2⟩, hmode, hpayload⟩, heq⟩ := hread
  cases heq
  obtain ⟨upper, hl, hu, hfind⟩ := hf st.prevIndex bound hp
  dsimp only at hpayload
  have h1 : decodeBound st.query (ne.at i o) = .ok (bound, encoded1) (ne.at bound.item.timestamp o) :=
    decodeBound_eq_ok.mpr ⟨hbound, rfl⟩
  have h2 : call (decodeVarInt encoded1) (ne.at bound.item.timestamp o) = .ok (mode, encoded2) (ne.at bound.item.timestamp o) :=
    call_eq_ok.mpr ⟨hmode, rfl⟩
  have h3 : Negentropy.findLowerBound st.prevIndex items.length bound (ne.at bound.item.timestamp o) =
      .ok upper (ne.at bound.item.timestamp o) := by
    simp only [Negentropy.findLowerBound, bind_eq_ok, get_eq_ok, call_eq_ok]
    exact ⟨_, _, ⟨rfl, rfl⟩, hfind, rfl⟩
  refine .bind h1 (.bind h2 (.bind h3 ?_))
  cases hm : Mode.ofU64 mode with
  | none =>
    rw [hm] at hpayload
    cases hpayload
  | some m =>
    rw [hm] at hpayload
    cases m with
    | skip =>
      cases hpayload
      exact finishRange_passes hlim items.length bound hu [] { st with query := rest', skip := true } _ o
    | fingerprint =>
      simp only [except_bind_eq_ok] at hpayload
      obtain ⟨⟨f, rest''⟩, hf, heq⟩ := hpayload
      cases heq
      exact @reconcileFingerprint_passes _ _ ne items fp hs hlim _ _ hl hu bound { st with query := encoded2 } f _ hf _ o
    | idList =>
      simp only [except_bind_eq_ok] at hpayload
      obtain ⟨⟨numIds, encoded3⟩, hn, ⟨ids, rest''⟩, hids, heq⟩ := hpayload
      cases heq
      exact @reconcileIdList_passes _ _ ne items fp hs hlim _ _ hl hu bound { st with query := encoded2 } _ _ _ _ hn hids _ o

theorem reconcileLoop_total_iff (hs : Reads ne.storage items fp) (hf : Searches ne.storage items.length)
    (hlim : ne.frameSizeLimit = 0) :
    ∀ (rounds : ℕ) (st : ReconcileState) (i o : UInt64), st.query.length ≤ rounds → st.prevIndex ≤ items.length →
      ((∃ st' ne', reconcileLoop items.length rounds st (ne.at i o) = .ok st' ne') ↔ RangesText .machine st.query) := by
  intro rounds
  induction rounds with
  | zero =>
    intro st i o hlen _
    have hnil : st.query = [] := List.length_eq_zero_iff.mp (Nat.le_zero.mp hlen)
    rw [hnil]
    exact ⟨fun _ => .nil, fun _ => ⟨st, ne.at i o, rfl⟩⟩
  | succ rounds ih =>
    intro st i o hlen hp
    rw [reconcileLoop, ← readRanges_eq_nil_iff i hlen, readRanges]
    by_cases hnil : st.query = []
    · simp only [hnil, if_true, iff_true]
      exact ⟨st, ne.at i o, rfl⟩
    · rw [if_neg hnil, if_neg hnil]
      cases hread : readRange i st.query with
      | error e =>
        refine ⟨?_, fun h => absurd h hnil⟩
        rintro ⟨st', ne', h⟩
        obtain ⟨⟨st1, stop⟩, ne1, hstep, -⟩ := bind_eq_ok.mp h
        obtain ⟨r, rest, hr⟩ := readRange_of_reconcileRange hstep
        rw [hread] at hr
        cases hr
      | ok p =>
        obtain ⟨r, rest⟩ := p
        have hshort := readRange_length hread
        obtain ⟨st1, o1, hstep, hquery, hprev⟩ := reconcileRange_passes hs hf hlim hp hread o
        rw [bind_of_ok hstep]
        have hrest : st1.query.length ≤ rounds := by rw [hquery]; omega
        have hrec := ih st1 r.bound.item.timestamp o1 hrest hprev
        rw [← readRanges_eq_nil_iff r.bound.item.timestamp hrest, hquery] at hrec
        exact hrec

/-- `reconcile` returns for this role. -/
def Accepts (ne : Negentropy σ) (q : Bytes) : Prop :=
  if ne.isInitiator then ∃ out ne', Negentropy.reconcileHaveNeed q ne = .ok out ne'
  else ∃ out ne', Negentropy.reconcile q ne = .ok out ne'

omit [StorageBase σ] in
theorem ok_bind_iff {α β : Type} {m : Method σ α} {f : α → Method σ β} {s : Negentropy σ}
    (hf : ∀ a s', ∃ b s'', f a s' = .ok b s'') : (∃ b s', (m >>= f) s = .ok b s') ↔ ∃ a s', m s = .ok a s' := by
  constructor
  · rintro ⟨b, s', h⟩
    obtain ⟨a, s1, hm, -⟩ := bind_eq_ok.mp h
    exact ⟨a, s1, hm⟩
  · rintro ⟨a, s1, hm⟩
    obtain ⟨b, s'', hb⟩ := hf a s1
    exact ⟨b, s'', (bind_of_ok hm).trans hb⟩

theorem accepts_iff_reconcileAux {ne : Negentropy σ} (q : Bytes) :
    Accepts ne q ↔ ∃ out ne', reconcileAux q ne = .ok out ne' := by
  unfold Accepts Negentropy.reconcileHaveNeed Negentropy.reconcile
  have hget : (get : Method σ (Negentropy σ)) ne = .ok ne ne := rfl
  cases hinit : ne.isInitiator with
  | true =>
    simp only [if_true, bind_of_ok hget, hinit, not_true_eq_false, if_false]
    exact ok_bind_iff fun _ s' => ⟨_, s', rfl⟩
  | false =>
    simp only [Bool.false_eq_true, if_false, bind_of_ok hget, hinit]
    exact ok_bind_iff fun _ s' => ⟨_, s', rfl⟩

/-- The parser accepts the grammar in which numbers are cut down. -/
theorem accepts_iff (hs : Reads ne.storage items fp) (hf : Searches ne.storage items.length)
    (hlim : ne.frameSizeLimit = 0) (q : Bytes) : Accepts ne q ↔ MessageText .machine ne.isInitiator q := by
  rw [accepts_iff_reconcileAux]
  have hmod : (modify fun ne : Negentropy σ => { ne with lastTimestampIn := 0, lastTimestampOut := 0 } : Method σ Unit) ne =
      .ok () (ne.at 0 0) := rfl
  unfold reconcileAux
  rw [bind_of_ok hmod]
  cases q with
  | nil =>
    have hbyte : (call (getByte []) : Method σ (UInt8 × Bytes)) (ne.at 0 0) =
        .error (.err "parse ends prematurely") (ne.at 0 0) := rfl
    constructor
    · rintro ⟨out, ne', h⟩
      obtain ⟨_, _, hb, -⟩ := bind_eq_ok.mp h
      rw [hbyte] at hb
      cases hb
    · rintro (⟨-, _, _, h, -⟩ | ⟨_, h, -⟩) <;> cases h
  | cons version rest =>
    have hbyte : (call (getByte (version :: rest)) : Method σ (UInt8 × Bytes)) (ne.at 0 0) =
        .ok (version, rest) (ne.at 0 0) := rfl
    have hget : (get : Method σ (Negentropy σ)) (ne.at 0 0) = .ok (ne.at 0 0) (ne.at 0 0) := rfl
    rw [bind_of_ok hbyte]
    dsimp only
    by_cases hbad : version < 0x60 ∨ version > 0x6F
    · rw [if_pos hbad]
      constructor
      · rintro ⟨out, ne', h⟩
        cases h
      · rintro (⟨-, v, r, heq, hlo, hhi, -⟩ | ⟨r, heq, -⟩)
        · cases heq
          exact absurd hbad (not_or.mpr ⟨UInt8.not_lt.mpr hlo, UInt8.not_lt.mpr hhi⟩)
        · cases heq
          exact absurd hbad (by decide)
    · rw [if_neg hbad]
      obtain ⟨hlo, hhi⟩ := not_or.mp hbad
      by_cases hother : version ≠ PROTOCOL_VERSION
      · rw [if_pos hother, bind_of_ok hget]
        have hnot : ∀ r : Bytes, version :: rest ≠ PROTOCOL_VERSION :: r := fun r h => hother (by cases h; rfl)
        cases hinit : ne.isInitiator with
        | true =>
          rw [if_pos (show (ne.at 0 0).isInitiator = true from hinit)]
          constructor
          · rintro ⟨out, ne', h⟩
            cases h
          · rintro (⟨h, -⟩ | ⟨r, heq, -⟩)
            · cases h
            · exact absurd heq (hnot r)
        | false =>
          rw [if_neg (by rw [show (ne.at 0 0).isInitiator = false from hinit]; exact Bool.false_ne_true)]
          exact ⟨fun _ => .inl ⟨rfl, version, rest, rfl, UInt8.not_lt.mp hlo, UInt8.not_lt.mp hhi, hother⟩, fun _ => ⟨_, _, rfl⟩⟩
      · rw [if_neg hother]
        obtain rfl : version = PROTOCOL_VERSION := not_not.mp hother
        have hsize : Negentropy.storageSize (ne.at 0 0) = .ok items.length (ne.at 0 0) := storageSize_eq hs 0 0
        have hloop := reconcileLoop_total_iff hs hf hlim rest.length
          { query := rest, fullOutput := [PROTOCOL_VERSION] } 0 0 le_rfl (Nat.zero_le _)
        rw [bind_of_ok hsize]
        refine (ok_bind_iff fun st s' => ⟨_, s', rfl⟩).trans (hloop.trans ?_)
        constructor
        · exact fun h => .inr ⟨rest, rfl, h⟩
        · rintro (⟨-, v, r, heq, -, -, hv⟩ | ⟨r, heq, hr⟩)
          · cases heq
            exact absurd rfl hv
          · cases heq
            exact hr

end

/-! ### Where the two readings agree -/

theorem Reading.number_machine {v n : ℕ} (h : Reading.exact.number v n) : Reading.machine.number v n := by
  obtain ⟨hv, rfl⟩ := h
  exact (Nat.mod_eq_of_lt hv).symm

theorem BoundText.machine {b : Bytes} (h : BoundText .exact b) : BoundText .machine b := by
  obtain ⟨hts, hv, hlen, hl, hle, hid⟩ := h
  exact .mk hts (Reading.number_machine hv) hlen (Reading.number_machine hl) hle hid

theorem RangeText.machine {r : Bytes} (h : RangeText .exact r) : RangeText .machine r := by
  obtain @⟨bound, mode, payload, v, m, hbound, hmode, ⟨-, rfl⟩, hpayload⟩ := h
  have hsmall : m = m % 2 ^ 32 := by cases hpayload <;> rfl
  refine .mk hbound.machine hmode hsmall ?_
  cases hpayload with
  | skip => exact .skip
  | fingerprint hf => exact .fingerprint hf
  | idList hcount hn hids => exact .idList hcount (Reading.number_machine hn) hids

theorem RangesText.machine {rs : Bytes} (h : RangesText .exact rs) : RangesText .machine rs := by
  induction h with
  | nil => exact .nil
  | cons hr _ ih => exact .cons hr.machine ih

theorem MessageText.machine {isInitiator : Bool} {q : Bytes} (h : MessageText .exact isInitiator q) :
    MessageText .machine isInitiator q := by
  obtain h | ⟨rest, hq, hrest⟩ := h
  · exact .inl h
  · exact .inr ⟨rest, hq, hrest.machine⟩

/-- A text begins with one range at most. -/
theorem RangeText.unique {r r' rest rest' : Bytes} (hr : RangeText .machine r) (hr' : RangeText .machine r')
    (h : r ++ rest = r' ++ rest') : r = r' ∧ rest = rest' := by
  obtain ⟨range, hread⟩ := readRange_text 0 hr rest
  obtain ⟨range', hread'⟩ := readRange_text 0 hr' rest'
  rw [h, hread'] at hread
  cases hread
  exact ⟨List.append_cancel_right h, rfl⟩

theorem RangeText.ne_nil {r : Bytes} (hr : RangeText .machine r) : r ≠ [] := by
  rintro rfl
  obtain ⟨range, hread⟩ := readRange_text 0 hr []
  have := readRange_length hread
  simp at this

theorem RangesText.of_append {r rest : Bytes} (hr : RangeText .machine r) (h : RangesText .exact (r ++ rest)) :
    RangeText .exact r ∧ RangesText .exact rest := by
  generalize htext : r ++ rest = text at h
  cases h with
  | nil => exact absurd (List.append_eq_nil_iff.mp htext).1 hr.ne_nil
  | cons hr' hrs' =>
    obtain ⟨rfl, rfl⟩ := hr.unique hr'.machine htext
    exact ⟨hr', hrs'⟩

theorem RangesText.append {R : Reading} {rs rs' : Bytes} (hrs : RangesText R rs) (hrs' : RangesText R rs') :
    RangesText R (rs ++ rs') := by
  induction hrs with
  | nil => exact hrs'
  | cons hr₀ _ ih =>
    rw [List.append_assoc]
    exact .cons hr₀ ih

theorem RangesText.concat {R : Reading} {rs r : Bytes} (hrs : RangesText R rs) (hr : RangeText R r) :
    RangesText R (rs ++ r) := hrs.append (by simpa using RangesText.cons hr .nil)

theorem not_exact_of_cut {before r after : Bytes} (hbefore : RangesText .machine before) (hr : CutRange r) :
    ¬ RangesText .exact (before ++ (r ++ after)) := by
  intro h
  induction hbefore with
  | nil => exact hr.2 (RangesText.of_append hr.1 h).1
  | cons hr₀ _ ih =>
    rw [List.append_assoc] at h
    exact ih (RangesText.of_append hr₀ h).2

theorem exact_of_not_cut {rest : Bytes} (hrest : RangesText .machine rest) {before : Bytes}
    (hbefore : RangesText .machine before) (hcut : ¬ CutMessage (PROTOCOL_VERSION :: (before ++ rest))) :
    RangesText .exact rest := by
  induction hrest generalizing before with
  | nil => exact .nil
  | @cons r rs hr hrs ih =>
    by_cases hexact : RangeText .exact r
    · refine .cons hexact (ih (hbefore.concat hr) ?_)
      rwa [List.append_assoc]
    · exact absurd ⟨before, r, rs, rfl, hbefore, ⟨hr, hexact⟩, hrs⟩ hcut

/-- The two grammars differ on the messages with a range that is cut down. -/
theorem messageText_machine_iff (isInitiator : Bool) (q : Bytes) :
    (MessageText .machine isInitiator q ↔ MessageText .exact isInitiator q) ↔ ¬ CutMessage q := by
  constructor
  · rintro h ⟨before, r, after, rfl, hbefore, hr, hafter⟩
    have hmachine : RangesText .machine (before ++ (r ++ after)) := by
      rw [← List.append_assoc]
      exact hbefore.concat hr.1 |>.append hafter
    obtain ⟨-, v, rest, heq, -, -, hv⟩ | ⟨rest, heq, hrest⟩ := h.mp (.inr ⟨_, rfl, hmachine⟩)
    · cases heq
      exact hv rfl
    · cases heq
      exact not_exact_of_cut hbefore hr hrest
  · refine fun hcut => ⟨?_, MessageText.machine⟩
    rintro (h | ⟨rest, rfl, hrest⟩)
    · exact .inl h
    · exact .inr ⟨rest, rfl, exact_of_not_cut hrest .nil hcut⟩

/-! ### Vectors -/

section
open Storage
variable [Sha256]

/-- A vector searches between the positions it is given, sorted or not. -/
theorem Storage.Vector.searches {v : Vector} (h : v.isSealed = true) : Searches v v.items.length := by
  intro b bound hb
  have hle := lowerBound_le_length (slice v.items b v.items.length) bound.item
  rw [slice_length _ le_rfl] at hle
  refine ⟨b + lowerBound (slice v.items b v.items.length) bound.item, by omega, by omega, ?_⟩
  change v.findLowerBound b v.items.length bound = _
  rw [Vector.findLowerBound, Vector.checkSealed_ok h, Vector.checkBounds_eq, if_pos ⟨hb, le_rfl⟩]
  rfl

/-- Without a limit, a message is accepted exactly if it is in the grammar, unless a number in it
is cut down: a mode to 32 bits, any other to 64. -/
theorem accepts_grammar_iff (ne : Negentropy Vector) (hsealed : ne.storage.isSealed = true)
    (hlen : ne.storage.items.length < 2 ^ 64) (hlim : ne.frameSizeLimit = 0) (q : Bytes) :
    (Accepts ne q ↔ MessageText .exact ne.isInitiator q) ↔ ¬ CutMessage q := by
  rw [accepts_iff (Vector.reads hsealed hlen) (Vector.searches hsealed) hlim]
  exact messageText_machine_iff ne.isInitiator q

end

/-! ### A mode that is cut down to 0 -/

section
open Storage
local instance grammarSha256 : Sha256 := SHA256.real

/-- A server without items. -/
def emptyServer : Negentropy Vector := { storage := ⟨[], true⟩, frameSizeLimit := 0, limit_ok := limit_ok_none }

/-- A range up to the timestamp 0, in the mode `2 ^ 32`. -/
def cutText : Bytes := [1, 0, 0x90, 0x80, 0x80, 0x80, 0x00]

theorem cutText_not_exact : ¬ RangeText .exact cutText := by
  intro h
  generalize htext : cutText = r at h
  obtain @⟨bound, mode, payload, v, m, hbound, hmode, ⟨-, rfl⟩, hpayload⟩ := h
  obtain ⟨b, hread⟩ := readBound_text 0 hbound.machine (mode ++ payload)
  have hsmall : m < 3 := by cases hpayload <;> decide
  have hcut : readBound 0 cutText = .ok (Bound.ofTimestamp 0, [0x90, 0x80, 0x80, 0x80, 0x00]) := rfl
  rw [htext, hread] at hcut
  have hrest : mode ++ payload = [0x90, 0x80, 0x80, 0x80, 0x00] := by
    injection hcut with hcut
    exact congrArg Prod.snd hcut
  have hdecode := decodeVarInt_varint hmode payload
  have hlarge : decodeVarInt [0x90, 0x80, 0x80, 0x80, 0x00] = .ok (0x100000000, []) := rfl
  rw [hrest, hlarge] at hdecode
  injection hdecode with hdecode
  have hvalue := congrArg UInt64.toNat (congrArg Prod.fst hdecode)
  rw [toNat_ofNat, show (0x100000000 : UInt64).toNat = 4294967296 from rfl] at hvalue
  omega

/-- The mode `2 ^ 32` is taken for `Skip`, not refused as unexpected. -/
theorem accepts_cut_mode : Accepts emptyServer (PROTOCOL_VERSION :: cutText) ∧
    ¬ MessageText .exact emptyServer.isInitiator (PROTOCOL_VERSION :: cutText) := by
  have hreads := Vector.reads (v := ⟨[], true⟩) rfl (by decide)
  have htext : RangesText .machine cutText := (readRanges_eq_nil_iff 0 (show cutText.length ≤ 7 by decide)).mp rfl
  refine ⟨(accepts_iff hreads (Vector.searches rfl) rfl _).mpr (.inr ⟨_, rfl, htext⟩), ?_⟩
  have hrange : RangeText .machine cutText := by
    obtain ⟨r, hr, hrange⟩ := text_of_readRange (show readRange 0 cutText = .ok (⟨Bound.ofTimestamp 0, .skip⟩, []) from rfl)
    rwa [hr, List.append_nil]
  rintro (⟨-, v, rest, heq, -, -, hv⟩ | ⟨rest, heq, hrest⟩)
  · cases heq
    exact hv rfl
  · cases heq
    exact not_exact_of_cut .nil ⟨hrange, cutText_not_exact⟩ (show RangesText .exact ([] ++ (cutText ++ [])) by simpa using hrest)

/-- A server with three items. -/
def threeServer : Negentropy Vector := { storage := ⟨itemsAt [0, 1, 2], true⟩, frameSizeLimit := 0, limit_ok := limit_ok_none }

/-- A skip up to the timestamp 1, a fingerprint up to 2, and a list of one id. -/
def threeText : Bytes :=
  ([2, 0] ++ ([0] ++ [])) ++
    (([2, 0] ++ ([1] ++ List.replicate 16 0)) ++ (([0, 0] ++ ([2] ++ ([1] ++ (sampleItem 2 0).id.bytes))) ++ []))

theorem varint_digit {d : UInt8} (hd : d.toNat < 128) : Varint [d] d.toNat where
  digits := ⟨[], d, rfl, fun _ hb => absurd hb List.not_mem_nil, hd⟩
  value := (Nat.mod_eq_of_lt hd).symm.trans (Nat.zero_add _).symm

theorem boundText_digit {d : UInt8} (hd : d.toNat < 128) : BoundText .exact [d, 0] :=
  show BoundText .exact ([d] ++ ([0] ++ [])) from .mk (varint_digit hd) ⟨hd.trans (by decide), rfl⟩
    (varint_digit (d := 0) (by decide)) ⟨by decide, rfl⟩ (by decide) rfl

theorem threeText_exact : RangesText .exact threeText := by
  refine .cons (.mk (boundText_digit (by decide)) (varint_digit (d := 0) (by decide)) ⟨by decide, rfl⟩ .skip) ?_
  refine .cons (.mk (boundText_digit (by decide)) (varint_digit (d := 1) (by decide)) ⟨by decide, rfl⟩ (.fingerprint rfl)) ?_
  refine .cons (.mk (boundText_digit (by decide)) (varint_digit (d := 2) (by decide)) ⟨by decide, rfl⟩ ?_) .nil
  exact .idList (varint_digit (d := 1) (by decide)) ⟨by decide, rfl⟩ rfl

theorem accepts_grammar_three : Accepts threeServer (PROTOCOL_VERSION :: threeText) ∧
    MessageText .exact threeServer.isInitiator (PROTOCOL_VERSION :: threeText) ∧ ¬ CutMessage (PROTOCOL_VERSION :: threeText) := by
  have htext : MessageText .exact threeServer.isInitiator (PROTOCOL_VERSION :: threeText) := .inr ⟨_, rfl, threeText_exact⟩
  have haccepts : Accepts threeServer (PROTOCOL_VERSION :: threeText) :=
    (accepts_iff (Vector.reads (v := threeServer.storage) rfl (by decide)) (Vector.searches rfl) rfl _).mpr htext.machine
  exact ⟨haccepts, htext, (accepts_grammar_iff threeServer rfl (by decide) rfl _).mp (iff_of_true haccepts htext)⟩

end

end NE
