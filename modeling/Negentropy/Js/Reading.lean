import Negentropy.Bounds
import Negentropy.Js.Values

/-! The two readers side by side, on a message with small numbers in it. Both read the same
numbers, ids and bounds, or both throw. -/

namespace NE.Js

open Sorted Stateful

/-! ### Messages with small numbers -/

/-- A varint as the number it is, whatever its size. -/
def readNat (res : ℕ) : Bytes → Option (ℕ × Bytes)
  | [] => none
  | byte :: raw =>
      let res := 128 * res + byte.toNat % 128
      if byte &&& 128 = 0 then some (res, raw) else readNat res raw

/-- The varint in front is below `2 ^ 31`, and `k` holds of it and of what follows. -/
def smallVarint (raw : Bytes) (k : ℕ → Bytes → Bool) : Bool :=
  match readNat 0 raw with
  | none => true
  | some (n, raw) => decide (n < 2 ^ 31) && k n raw

/-- The timestamp that `n` stands for behind the last one; `none` is infinity. -/
def advance : Option ℕ → ℕ → Option ℕ
  | some last, n + 1 => some (last + n)
  | _, _ => none

/-- The numbers of the bound in front are small, and its timestamp if it is finite. -/
def smallBound (last : Option ℕ) (raw : Bytes) (k : Option ℕ → Bytes → Bool) : Bool :=
  smallVarint raw fun n raw =>
    (advance last n).all (fun timestamp => decide (timestamp < 2 ^ 31 - 1)) &&
      smallVarint raw fun len raw =>
        decide (raw.length < len) || decide (ID_SIZE < len) || k (advance last n) (raw.drop len)

/-- So are all the numbers and timestamps of the ranges, as far as they can be read. -/
def smallRanges : ℕ → Option ℕ → Bytes → Bool
  | 0, _, _ => true
  | rounds + 1, last, raw =>
      raw.isEmpty || smallBound last raw fun last raw => smallVarint raw fun mode raw =>
        if mode = 0 then smallRanges rounds last raw
        else if mode = 1 then
          decide (raw.length < FINGERPRINT_SIZE) || smallRanges rounds last (raw.drop FINGERPRINT_SIZE)
        else if mode = 2 then smallVarint raw fun numIds raw =>
          decide (raw.length < ID_SIZE * numIds) || smallRanges rounds last (raw.drop (ID_SIZE * numIds))
        else true

/-- A message of another version is not read any further. -/
def smallQuery (query : Bytes) : Bool :=
  query.head? != some PROTOCOL_VERSION || smallRanges query.length (some 0) (query.drop 1)

/-! ### Varints -/

/-- The decoder of C++ keeps the low 64 bits. -/
theorem decodeVarIntFrom_readNat (n : ℕ) (raw : Bytes) :
    (NE.decodeVarIntFrom (UInt64.ofNat n) raw).toOption = (readNat n raw).map fun p => (UInt64.ofNat p.1, p.2) := by
  induction raw generalizing n with
  | nil => rfl
  | cons byte raw ih =>
    have hstep : (UInt64.ofNat n <<< 7) ||| (byte &&& 0x7F).toUInt64 = UInt64.ofNat (128 * n + byte.toNat % 128) := by
      apply UInt64.toNat_inj.mp
      rw [shift_digit, UInt64.toNat_ofNat', UInt64.toNat_ofNat']
      omega
    unfold NE.decodeVarIntFrom readNat
    dsimp only
    rw [hstep]
    split
    · rfl
    · exact ih _

/-- The decoder of JavaScript keeps the low 32 bits, as a signed number. -/
theorem readInt32_readNat (raw : Bytes) : readInt32 0 raw = (readNat 0 raw).map fun p => (toInt32 p.1, p.2) := by
  have h := readInt32_eq 0 raw
  have h' := decodeVarIntFrom_readNat 0 raw
  rw [show UInt64.ofNat 0 = 0 from rfl] at h'
  rw [show toInt32 (0 : UInt64).toNat = 0 from rfl, h', Option.map_map] at h
  rw [h]
  congr 1
  funext p
  simp only [Function.comp, Prod.mk.injEq, and_true]
  apply Int32.toBitVec_inj.mp
  change BitVec.ofInt 32 _ = BitVec.ofInt 32 _
  apply BitVec.eq_of_toNat_eq
  rw [BitVec.toNat_ofInt, BitVec.toNat_ofInt, UInt64.toNat_ofNat']
  omega

theorem toInt_toInt32 {n : ℕ} (hn : n < 2 ^ 31) : (toInt32 n).toInt = n := by
  change (BitVec.ofInt 32 n).toInt = n
  rw [BitVec.toInt_ofInt]
  exact Int.bmod_eq_of_le (by omega) (by omega)

theorem readNat_length {res n : ℕ} {raw rest : Bytes} (h : readNat res raw = some (n, rest)) : rest.length < raw.length := by
  induction raw generalizing res with
  | nil => cases h
  | cons byte raw ih =>
    unfold readNat at h
    dsimp only at h
    split at h
    · cases h
      exact Nat.lt_succ_self _
    · exact (ih h).trans (Nat.lt_succ_self _)

/-! ### Twins -/

/-- The object and the message of a call in JavaScript, when the object in C++ is `ne` with the timestamps `i`
and `o`, and `unread` is left of the message. -/
structure Twin (input : Bytes) (ne : NE.Negentropy NE.Storage.Vector) (i o : UInt64) (unread : Bytes)
    (s : Run NegentropyStorageVector) : Prop where
  sound : Sound input s
  raw : s.query.raw = unread
  storage : s.ne.storage = ofVector ne.storage
  limit : s.ne.frameSizeLimit = ne.frameSizeLimit
  role : s.ne.isInitiator = ne.isInitiator
  lastIn : s.ne.lastTimestampIn = number i
  lastOut : s.ne.lastTimestampOut = number o

section
variable {input : Bytes} (hlt : input.length < 2 ^ 53) {ne : NE.Negentropy NE.Storage.Vector} {i o : UInt64} {unread : Bytes}
  {s : Run NegentropyStorageVector} (h : Twin input ne i o unread s)
include h

theorem Twin.length_eq : s.query.length = unread.length := by
  have hcounts : s.query.length = s.query.raw.length := h.sound.counts
  rw [hcounts, h.raw]

include hlt

/-- Bytes that are there. -/
theorem Twin.getBytes_ok {n : ℕ} (hn : n ≤ unread.length) :
    ∃ t, (getBytes n : Method NegentropyStorageVector Bytes) s = .ok (unread.take n) t ∧
      Twin input ne i o (unread.drop n) t := by
  have hlen := h.length_eq
  have hidx : WrappedBuffer.index unread (n : ℤ) = n := by
    rw [WrappedBuffer.index, if_neg (by omega), Int.toNat_natCast]
  have hraw : n ≤ s.query.raw.length := h.raw ▸ hn
  have hrec := h.sound.record hlt hraw
  rw [getBytes_eq, if_neg (by omega)]
  simp only [WrappedBuffer.shiftN, h.raw, hidx]
  rw [h.raw] at hrec
  exact ⟨_, rfl, hrec, rfl, h.storage, h.limit, h.role, h.lastIn, h.lastOut⟩

omit hlt in
/-- Bytes that are not. -/
theorem Twin.getBytes_error {n : ℕ} (hn : unread.length < n) :
    (getBytes n : Method NegentropyStorageVector Bytes) s = .error (.thrown (.error "parse ends prematurely")) s := by
  have hlen := h.length_eq
  rw [getBytes_eq, if_pos (by omega)]

/-- The varint in front. -/
theorem Twin.decodeVarInt {k : ℕ → Bytes → Bool} (hsmall : smallVarint unread k = true) :
    Lockstep (fun p n c t => n = p.1.toNat ∧ p.1.toNat < 2 ^ 31 ∧ k p.1.toNat p.2 = true ∧ p.2.length < unread.length ∧
        c = ne.at i o ∧ Twin input ne i o p.2 t)
      ((NE.call (NE.decodeVarInt unread) : NE.Method NE.Storage.Vector (UInt64 × Bytes)) (ne.at i o))
      ((decodeVarInt : Method NegentropyStorageVector ℤ) s) := by
  have hcpp := decodeVarIntFrom_readNat 0 unread
  rw [show UInt64.ofNat 0 = 0 from rfl, show NE.decodeVarIntFrom 0 unread = NE.decodeVarInt unread from rfl] at hcpp
  unfold smallVarint at hsmall
  rcases decodeVarInt_reads hlt h.sound with ⟨hnone, e, t, herr, -⟩ | ⟨v, t, hsome, hok, hsound, hne⟩
  · rw [h.raw, readInt32_readNat, Option.map_eq_none_iff] at hnone
    rw [hnone] at hcpp
    rw [herr]
    cases hdec : NE.decodeVarInt unread with
    | error e => exact .error
    | ok p =>
      rw [hdec] at hcpp
      cases hcpp
  · rw [h.raw, readInt32_readNat, Option.map_eq_some_iff] at hsome
    obtain ⟨⟨n, rest⟩, hread, heq⟩ := hsome
    obtain ⟨rfl, rfl⟩ := Prod.mk.inj heq
    rw [hread] at hcpp hsmall
    simp only [Bool.and_eq_true, decide_eq_true_eq] at hsmall
    have hn : (UInt64.ofNat n).toNat = n := by
      rw [UInt64.toNat_ofNat']
      omega
    rw [hok]
    cases hdec : NE.decodeVarInt unread with
    | error e =>
      rw [hdec] at hcpp
      cases hcpp
    | ok p =>
      rw [hdec] at hcpp
      obtain rfl : p = (UInt64.ofNat n, t.query.raw) := Option.some.inj hcpp
      refine .ok ⟨?_, ?_, ?_, readNat_length hread, rfl, hsound, rfl, ?_, ?_, ?_, ?_, ?_⟩
      · rw [hn]
        exact toInt_toInt32 hsmall.1
      · rw [hn]
        exact hsmall.1
      · rw [hn]
        exact hsmall.2
      all_goals rw [hne]
      · exact h.storage
      · exact h.limit
      · exact h.role
      · exact h.lastIn
      · exact h.lastOut

end

/-! ### Timestamps -/

/-- `none` is infinity. -/
def finite (t : UInt64) : Option ℕ := if t = MAX_U64 then none else some t.toNat

/-- Finite timestamps are small enough for 31 bits. -/
def SmallTimestamp (t : UInt64) : Prop := t ≠ MAX_U64 → t.toNat < 2 ^ 31 - 1

theorem finite_max : finite MAX_U64 = none := if_pos rfl

theorem finite_of_ne {t : UInt64} (h : t ≠ MAX_U64) : finite t = some t.toNat := if_neg h

theorem eq_max_of_le {t : UInt64} (h : 2 ^ 64 - 1 ≤ t.toNat) : t = MAX_U64 := by
  have hlt := t.toNat_lt
  apply UInt64.toNat_inj.mp
  change t.toNat = 2 ^ 64 - 1
  omega

/-- The timestamp that C++ reads. -/
def saturated (i v : UInt64) : UInt64 :=
  let timestamp := if v = 0 then MAX_U64 else v - 1
  let timestamp := timestamp + i
  if timestamp < i then MAX_U64 else timestamp

theorem saturated_max (v : UInt64) : saturated MAX_U64 v = MAX_U64 := by
  unfold saturated
  generalize (if v = 0 then MAX_U64 else v - 1) = delta
  dsimp only
  split
  · rfl
  · next h =>
    rw [UInt64.not_lt, UInt64.le_iff_toNat_le] at h
    exact eq_max_of_le h

theorem saturated_zero (i : UInt64) : saturated i 0 = MAX_U64 := by
  unfold saturated
  rw [if_pos rfl]
  dsimp only
  split
  · rfl
  · next h =>
    rw [UInt64.not_lt, UInt64.le_iff_toNat_le, UInt64.toNat_add] at h
    have hmax : MAX_U64.toNat = 2 ^ 64 - 1 := rfl
    have hlt := i.toNat_lt
    apply eq_max_of_le
    rw [UInt64.toNat_add]
    omega

theorem saturated_toNat {i v : UInt64} (hi : i.toNat < 2 ^ 31) (hv : v.toNat < 2 ^ 31) (h0 : v ≠ 0) :
    (saturated i v).toNat = i.toNat + (v.toNat - 1) := by
  have hpos : 1 ≤ v.toNat := Nat.one_le_iff_ne_zero.mpr fun h => h0 (UInt64.toNat_inj.mp h)
  have hsub : (v - 1).toNat = v.toNat - 1 := UInt64.toNat_sub_of_le _ _ (UInt64.le_iff_toNat_le.mpr hpos)
  have hadd : (v - 1 + i).toNat = v.toNat - 1 + i.toNat := by
    rw [UInt64.toNat_add, hsub]
    omega
  unfold saturated
  rw [if_neg h0]
  dsimp only
  rw [if_neg (by rw [UInt64.not_lt, UInt64.le_iff_toNat_le, hadd]; omega), hadd]
  omega

theorem finite_saturated {i v : UInt64} (hi : SmallTimestamp i) (hv : v.toNat < 2 ^ 31) :
    finite (saturated i v) = advance (finite i) v.toNat := by
  by_cases hmax : i = MAX_U64
  · subst hmax
    rw [saturated_max, finite_max]
    rfl
  · rw [finite_of_ne hmax]
    have hsmall := hi hmax
    by_cases h0 : v = 0
    · subst h0
      rw [saturated_zero, finite_max]
      rfl
    · have hnat := saturated_toNat (hsmall.trans (by decide)) hv h0
      obtain ⟨n, hn⟩ : ∃ n, v.toNat = n + 1 :=
        Nat.exists_eq_succ_of_ne_zero fun h => h0 (UInt64.toNat_inj.mp h)
      have hne : saturated i v ≠ MAX_U64 := by
        intro heq
        rw [heq, show MAX_U64.toNat = 2 ^ 64 - 1 from rfl] at hnat
        omega
      rw [finite_of_ne hne, hnat, hn]
      rfl

/-- The timestamp that JavaScript reads. -/
theorem number_saturated {i v : UInt64} (hi : SmallTimestamp i) (hv : v.toNat < 2 ^ 31) :
    let timestamp := if (v.toNat : ℤ) = 0 then MAX_VALUE else v.toNat - 1
    (if number i = MAX_VALUE ∨ timestamp = MAX_VALUE then MAX_VALUE else nearest (timestamp + number i)) =
      number (saturated i v) := by
  have hbig := lt_MAX_VALUE
  by_cases hmax : i = MAX_U64
  · subst hmax
    dsimp only
    rw [saturated_max, number_max, if_pos (.inl rfl)]
  · have hsmall := hi hmax
    by_cases h0 : v = 0
    · subst h0
      dsimp only
      rw [saturated_zero, number_max, if_pos (.inr (if_pos rfl))]
    · have hnat := saturated_toNat (hsmall.trans (by decide)) hv h0
      have hpos : v.toNat ≠ 0 := fun h => h0 (UInt64.toNat_inj.mp h)
      have hne : saturated i v ≠ MAX_U64 := by
        intro heq
        rw [heq, show MAX_U64.toNat = 2 ^ 64 - 1 from rfl] at hnat
        omega
      have hdelta : (if (v.toNat : ℤ) = 0 then MAX_VALUE else v.toNat - 1) = v.toNat - 1 := if_neg (by omega)
      dsimp only
      rw [hdelta, number_of_ne hmax, number_of_ne hne, if_neg (by omega), nearest_eq (by omega), hnat]
      omega

/-! ### Bounds and ids -/

section
variable {input : Bytes} (hlt : input.length < 2 ^ 53) {ne : NE.Negentropy NE.Storage.Vector} {i o : UInt64} {unread : Bytes}
  {s : Run NegentropyStorageVector} (h : Twin input ne i o unread s)
include hlt h

theorem Twin.decodeTimestampIn (hi : SmallTimestamp i) {k : Option ℕ → Bytes → Bool}
    (hsmall : (smallVarint unread fun n raw =>
      (advance (finite i) n).all (fun timestamp => decide (timestamp < 2 ^ 31 - 1)) && k (advance (finite i) n) raw) = true) :
    Lockstep (fun p x c t => x = number p.1 ∧ i ≤ p.1 ∧ SmallTimestamp p.1 ∧ k (finite p.1) p.2 = true ∧
        p.2.length < unread.length ∧ c = ne.at p.1 o ∧ Twin input ne p.1 o p.2 t)
      ((NE.Negentropy.decodeTimestampIn unread : NE.Method NE.Storage.Vector (UInt64 × Bytes)) (ne.at i o))
      ((Negentropy.decodeTimestampIn : Method NegentropyStorageVector ℤ) s) := by
  unfold NE.Negentropy.decodeTimestampIn Negentropy.decodeTimestampIn
  refine (h.decodeVarInt hlt hsmall).bind fun p n c t hread => ?_
  obtain ⟨rfl, hn, hk, hlen, rfl, ht⟩ := hread
  obtain ⟨v, rest⟩ := p
  dsimp only at hn hk hlen ht ⊢
  have hnum := number_saturated hi hn
  have hfin := finite_saturated hi hn
  rw [← hfin] at hk
  simp only [Bool.and_eq_true] at hk
  have hget : (get : Method NegentropyStorageVector (Run NegentropyStorageVector)) t = .ok t t := rfl
  have hdone : ∀ x, x = number (saturated i v) → Lockstep
      (fun p x c t => x = number p.1 ∧ i ≤ p.1 ∧ SmallTimestamp p.1 ∧ k (finite p.1) p.2 = true ∧
        p.2.length < unread.length ∧ c = ne.at p.1 o ∧ Twin input ne p.1 o p.2 t)
      (EStateM.Result.ok (saturated i v, rest) (ne.at (saturated i v) o) : EStateM.Result Err _ _)
      (EStateM.Result.ok x { t with ne := { t.ne with lastTimestampIn := x } } : EStateM.Result Stop _ _) := by
    intro x hx
    refine .ok ⟨hx, le_saturate i _, fun hne => ?_, hk.2, hlen, rfl, ⟨ht.sound.unread, ht.sound.counts, ht.sound.exact⟩,
      ht.raw, ht.storage, ht.limit, ht.role, hx, ht.lastOut⟩
    have hall := hk.1
    rw [finite_of_ne hne, Option.all_some, decide_eq_true_eq] at hall
    exact hall
  rw [bind_of_ok hget, ht.lastIn]
  dsimp only at hnum ⊢
  generalize (if (v.toNat : ℤ) = 0 then MAX_VALUE else v.toNat - 1) = delta at hnum ⊢
  change Lockstep _ (EStateM.Result.ok (saturated i v, rest) (ne.at (saturated i v) o)) _
  split
  · next hmax =>
    rw [if_pos hmax] at hnum
    exact hdone _ hnum
  · next hmax =>
    rw [if_neg hmax] at hnum
    exact hdone _ hnum

theorem Twin.decodeBound (hi : SmallTimestamp i) {k : Option ℕ → Bytes → Bool}
    (hsmall : smallBound (finite i) unread k = true) :
    Lockstep (fun p b c t => b = ofBound p.1 ∧ i ≤ p.1.item.timestamp ∧ SmallTimestamp p.1.item.timestamp ∧
        k (finite p.1.item.timestamp) p.2 = true ∧ p.2.length < unread.length ∧ c = ne.at p.1.item.timestamp o ∧
        Twin input ne p.1.item.timestamp o p.2 t)
      ((NE.Negentropy.decodeBound unread : NE.Method NE.Storage.Vector (NE.Bound × Bytes)) (ne.at i o))
      ((Negentropy.decodeBound : Method NegentropyStorageVector Bound) s) := by
  unfold NE.Negentropy.decodeBound Negentropy.decodeBound
  refine (h.decodeTimestampIn hlt hi (k := fun last raw => smallVarint raw fun len raw =>
        decide (raw.length < len) || decide (ID_SIZE < len) || k last (raw.drop len)) hsmall).bind fun p x c t hread => ?_
  obtain ⟨rfl, hle, hts, hk, hlen, rfl, ht⟩ := hread
  refine (ht.decodeVarInt hlt hk).bind fun q len c t hread => ?_
  obtain ⟨rfl, hn, hk, hlen', rfl, ht⟩ := hread
  obtain ⟨timestamp, rest⟩ := p
  obtain ⟨len, rest'⟩ := q
  dsimp only at hn hk hlen hlen' ht hle hts ⊢
  simp only [Bool.or_eq_true, decide_eq_true_eq] at hk
  have hcpp : NE.getBytes rest' len.toNat = if rest'.length < len.toNat then .error (.err "parse ends prematurely")
      else .ok (rest'.take len.toNat, rest'.drop len.toNat) := rfl
  by_cases hlong : ID_SIZE < len.toNat
  · -- both throw, C++ when it makes a bound of what it has read
    rw [if_pos (by omega)]
    by_cases hshort : rest'.length < len.toNat
    · rw [hcpp, if_pos hshort]
      exact .error
    · have hmake : Bound.make timestamp (rest'.take len.toNat) = .error (.err "bad id size for Bound") := by
        refine dif_neg ?_
        rw [List.length_take]
        omega
      rw [hcpp, if_neg hshort]
      have hcall : (NE.call (.ok (rest'.take len.toNat, rest'.drop len.toNat)) : NE.Method NE.Storage.Vector (Bytes × Bytes))
          (ne.at timestamp o) = .ok (rest'.take len.toNat, rest'.drop len.toNat) (ne.at timestamp o) := rfl
      rw [bind_of_ok hcall]
      dsimp only
      rw [hmake]
      exact .error
  · rw [if_neg (by omega)]
    by_cases hshort : rest'.length < len.toNat
    · rw [hcpp, if_pos hshort, bind_of_error (ht.getBytes_error hshort)]
      exact .error
    · have hle' : len.toNat ≤ rest'.length := not_lt.mp hshort
      have hlen32 : (rest'.take len.toNat).length ≤ ID_SIZE := by
        rw [List.length_take]
        omega
      have hmake : Bound.make timestamp (rest'.take len.toNat) = .ok (Bound.ofPrefix timestamp (rest'.take len.toNat) hlen32) :=
        dif_pos hlen32
      obtain ⟨t', hget, ht'⟩ := ht.getBytes_ok hlt hle'
      have hcall : (NE.call (.ok (rest'.take len.toNat, rest'.drop len.toNat)) : NE.Method NE.Storage.Vector (Bytes × Bytes))
          (ne.at timestamp o) = .ok (rest'.take len.toNat, rest'.drop len.toNat) (ne.at timestamp o) := rfl
      rw [hcpp, if_neg hshort, bind_of_ok hcall, bind_of_ok hget]
      dsimp only
      rw [hmake]
      refine .ok ⟨(ofBound_ofPrefix _ _ _).symm, hle, hts, ?_, ?_, rfl, ht'⟩
      · rcases hk with (h | h) | h
        · omega
        · omega
        · exact h
      · rw [List.length_drop]
        omega

omit hlt h in
theorem call_bind {σ α β : Type} (x : Except Err α) (f : α → Except Err β) :
    (NE.call (x >>= f) : NE.Method σ β) = NE.call x >>= fun a => NE.call (f a) := by
  cases x with
  | ok a => exact (pure_bind a fun a => NE.call (f a)).symm
  | error e =>
    funext s
    rfl

theorem Twin.getIds (n : ℕ) :
    Lockstep (fun p ids c t => ids = p.1.map ItemId.bytes ∧ ID_SIZE * n ≤ unread.length ∧
        p.2 = unread.drop (ID_SIZE * n) ∧ c = ne.at i o ∧ Twin input ne i o p.2 t)
      ((NE.call (NE.Negentropy.getIds n unread) : NE.Method NE.Storage.Vector (List ItemId × Bytes)) (ne.at i o))
      ((Negentropy.getIds n : Method NegentropyStorageVector (List Bytes)) s) := by
  induction n generalizing unread s with
  | zero => exact .ok ⟨rfl, Nat.zero_le _, rfl, rfl, h⟩
  | succ n ih =>
    unfold NE.Negentropy.getIds Negentropy.getIds
    rw [call_bind]
    by_cases hshort : unread.length < ID_SIZE
    · have hid : NE.Negentropy.getId unread = .error (.err "parse ends prematurely") := dif_pos hshort
      rw [hid, bind_of_error (h.getBytes_error hshort)]
      exact .error
    · have hle : ID_SIZE ≤ unread.length := not_lt.mp hshort
      have hid : NE.Negentropy.getId unread = .ok (⟨unread.take ID_SIZE, by simp; omega⟩, unread.drop ID_SIZE) := dif_neg hshort
      obtain ⟨t, hget, ht⟩ := h.getBytes_ok hlt hle
      have hcall : (NE.call (.ok (⟨unread.take ID_SIZE, by simp; omega⟩, unread.drop ID_SIZE)) :
          NE.Method NE.Storage.Vector (ItemId × Bytes)) (ne.at i o) =
          .ok (⟨unread.take ID_SIZE, by simp; omega⟩, unread.drop ID_SIZE) (ne.at i o) := rfl
      rw [hid, bind_of_ok hcall, bind_of_ok hget]
      dsimp only
      rw [call_bind]
      refine (ih ht).bind fun p ids c t hids => ?_
      obtain ⟨rfl, hn, hrest, rfl, ht⟩ := hids
      rw [List.length_drop] at hn
      refine .ok ⟨rfl, ?_, ?_, rfl, ht⟩
      · rw [Nat.mul_succ]
        omega
      · dsimp only
        rw [hrest, List.drop_drop, Nat.mul_succ, Nat.add_comm]

end

end NE.Js
