import Negentropy.Lib.Lockstep
import Negentropy.Js.Protocol

/-! How the parser of `Negentropy.js` gets through a message. As long as no id length is negative
as a 32-bit number, every byte is taken once and the main loop ends with the message. -/

namespace NE.Js

open Stateful Negentropy

/-! ### Exact accounting -/

/-- The length says how many bytes there are. -/
def WrappedBuffer.Counts (b : WrappedBuffer) : Prop := b.length = b.raw.length

/-- The call has removed exactly as many bytes as it was asked for, all of them present. -/
structure Shift.Exact (c : Shift) : Prop where
  nonneg : 0 ≤ c.n
  before : c.before.Counts
  removed : ∃ bytes : Bytes, c.before.raw = bytes ++ c.after.raw ∧ bytes.length = c.n
  after : c.after.Counts

/-- The parser has made progress through `input`, in a call that was given a number of rounds. -/
structure Progresses {σ α : Type} (input : Bytes) (rounds : ℕ) (r : EStateM.Result Stop (Run σ) α) : Prop where
  exact : ∀ c ∈ (endState r).shifts, c.Exact
  unread : ∀ b ∈ (endState r).heads, b.raw <:+ input ∧ b.Counts
  decreasing : ((endState r).heads.map (·.length)).Pairwise (· > ·)
  few : (endState r).heads.length ≤ input.length
  ends : input.length < rounds → ∀ s, r ≠ .error .running s

/-! ### The varints of a message -/

/-- What `decodeVarInt` makes of the bytes in front, and the bytes behind them. -/
def readInt32 (res : Int32) : Bytes → Option (Int32 × Bytes)
  | [] => none
  | byte :: raw =>
      let res := pushDigit res (some byte)
      if byte &&& 128 = 0 then some (res, raw) else readInt32 res raw

/-- The id length of the bound in front: the number after the timestamp. -/
def idLength (raw : Bytes) : Option Int32 := do
  let (_, raw) ← readInt32 0 raw
  let (len, _) ← readInt32 0 raw
  return len

/-- The branch that `len > ID_SIZE` lets pass. -/
def NegativeLength (raw : Bytes) : Prop := ∃ len, idLength raw = some len ∧ len.toInt < 0

theorem readInt32_length {res v : Int32} {raw rest : Bytes} (h : readInt32 res raw = some (v, rest)) :
    rest <:+ raw ∧ rest.length < raw.length := by
  induction raw generalizing res with
  | nil => cases h
  | cons byte raw ih =>
    simp only [readInt32] at h
    split at h
    · cases h
      exact ⟨List.suffix_cons _ _, by simp⟩
    · obtain ⟨hsuf, hlt⟩ := ih h
      exact ⟨hsuf.trans (List.suffix_cons _ _), by simp; omega⟩

/-! ### How the readers move -/

section
variable {σ : Type}

/-- The logs have grown, no iteration has begun, and nothing is put back on the message. -/
structure Later (s t : Run σ) : Prop where
  shifts : s.shifts <+: t.shifts
  heads : t.heads = s.heads
  raw : t.query.raw <:+ s.query.raw

theorem Later.refl (s : Run σ) : Later s s := ⟨List.prefix_rfl, rfl, List.suffix_rfl⟩

theorem Later.trans {s t u : Run σ} (h : Later s t) (h' : Later t u) : Later s u :=
  ⟨h.shifts.trans h'.shifts, h'.heads.trans h.heads, h'.raw.trans h.raw⟩

/-- Everything has been exact so far. -/
structure Sound (input : Bytes) (s : Run σ) : Prop where
  unread : s.query.raw <:+ input
  counts : s.query.Counts
  exact : ∀ c ∈ s.shifts, c.Exact

theorem Later.record (s : Run σ) (n : ℤ) (k : ℕ) (len : ℤ) : Later s (s.record n ⟨s.query.raw.drop k, len⟩) :=
  ⟨List.prefix_append _ _, rfl, List.drop_suffix _ _⟩

/-- A call that is asked for bytes that are there is exact. -/
theorem Sound.record {input : Bytes} (hlt : input.length < 2 ^ 53) {s : Run σ} (hs : Sound input s) {k : ℕ}
    (hk : k ≤ s.query.raw.length) :
    Sound input (s.record k ⟨s.query.raw.drop k, nearest (s.query.length - k)⟩) := by
  have hle := hs.unread.length_le
  have hcounts : WrappedBuffer.Counts ⟨s.query.raw.drop k, nearest (s.query.length - k)⟩ := by
    have hlen : s.query.length = s.query.raw.length := hs.counts
    change nearest (s.query.length - k) = (s.query.raw.drop k).length
    have hsmall : ((s.query.raw.length : ℤ) - k).natAbs < 2 ^ 53 := by omega
    rw [hlen, nearest_eq hsmall, List.length_drop]
    omega
  refine ⟨(List.drop_suffix _ _).trans hs.unread, hcounts, fun c hc => ?_⟩
  rcases List.mem_append.mp hc with hc | hc
  · exact hs.exact c hc
  · obtain rfl := List.mem_singleton.mp hc
    exact ⟨Int.natCast_nonneg k, hs.counts,
      ⟨s.query.raw.take k, (List.take_append_drop k _).symm, by simp [hk]⟩, hcounts⟩

/-- One round of the varint loop. -/
theorem decodeVarIntFrom_succ (rounds : ℕ) (res : Int32) (s : Run σ) :
    decodeVarIntFrom (rounds + 1) res s =
      if s.query.length = 0 then .error (.thrown (.error "parse ends prematurely")) s
      else
        let byte := s.query.raw.head?
        let t := s.record 1 ⟨s.query.raw.drop 1, nearest (s.query.length - 1)⟩
        if byte.getD 0 &&& 128 = 0 then .ok (pushDigit res byte).toInt t
        else decodeVarIntFrom rounds (pushDigit res byte) t := by
  have hget : (get : Method σ (Run σ)) s = .ok s s := rfl
  have hshift : (shift : Method σ (Option UInt8)) s =
      .ok s.query.raw.head? (s.record 1 ⟨s.query.raw.drop 1, nearest (s.query.length - 1)⟩) := rfl
  rw [decodeVarIntFrom, bind_of_ok hget]
  split
  · rfl
  · rw [bind_of_ok hshift]
    dsimp only
    split <;> rfl

/-- The loop ends: a round without a byte is the last. -/
theorem decodeVarIntFrom_later (rounds : ℕ) (res : Int32) (s : Run σ) (h : s.query.raw.length < rounds) :
    Later s (endState (decodeVarIntFrom rounds res s)) ∧
      ∀ e t, decodeVarIntFrom rounds res s = .error e t → e ≠ .running := by
  induction rounds generalizing res s with
  | zero => omega
  | succ rounds ih =>
    rw [decodeVarIntFrom_succ]
    split
    · exact ⟨Later.refl s, fun e t he => by cases he; simp⟩
    · dsimp only
      split
      · exact ⟨Later.record s 1 1 _, fun e t he => by cases he⟩
      · next hflag =>
        cases hraw : s.query.raw with
        | nil =>
          rw [hraw] at hflag
          exact absurd rfl hflag
        | cons byte raw =>
          have hrec := Later.record s 1 1 (nearest (s.query.length - 1))
          rw [hraw] at h hrec
          obtain ⟨hlater, hne⟩ := ih (pushDigit res (some byte))
            (s.record 1 ⟨raw, nearest (s.query.length - 1)⟩) (Nat.lt_of_succ_lt_succ h)
          exact ⟨hrec.trans hlater, hne⟩

/-- What it reads when everything has been exact. -/
theorem decodeVarIntFrom_sound {input : Bytes} (hlt : input.length < 2 ^ 53) (rounds : ℕ) (res : Int32) (s : Run σ)
    (hs : Sound input s) (h : s.query.raw.length < rounds) :
    Sound input (endState (decodeVarIntFrom rounds res s)) ∧
    match readInt32 res s.query.raw with
    | none => ∃ e t, decodeVarIntFrom rounds res s = .error e t
    | some (v, rest) => ∃ t, decodeVarIntFrom rounds res s = .ok v.toInt t ∧ t.query.raw = rest ∧ t.ne = s.ne := by
  induction rounds generalizing res s with
  | zero => omega
  | succ rounds ih =>
    have hcounts : s.query.length = s.query.raw.length := hs.counts
    rw [decodeVarIntFrom_succ]
    cases hraw : s.query.raw with
    | nil =>
      rw [hraw] at hcounts
      rw [if_pos (show s.query.length = 0 from hcounts)]
      exact ⟨hs, _, _, rfl⟩
    | cons byte raw =>
      have hrec := hs.record hlt (k := 1) (by rw [hraw]; simp)
      rw [hraw, Int.ofNat_one] at hrec
      rw [hraw] at hcounts h
      have hpos : s.query.length ≠ 0 := by
        rw [hcounts, List.length_cons]
        omega
      rw [if_neg hpos]
      dsimp only [readInt32, List.head?_cons, Option.getD_some]
      by_cases hflag : byte &&& 128 = 0
      · rw [if_pos hflag, if_pos hflag]
        exact ⟨hrec, _, rfl, rfl, rfl⟩
      · rw [if_neg hflag, if_neg hflag]
        exact ih _ _ hrec (Nat.lt_of_succ_lt_succ h)

/-! ### Calls that leave the message alone -/

/-- Only the object has changed. -/
structure Quiet (s t : Run σ) : Prop where
  query : t.query = s.query
  shifts : t.shifts = s.shifts
  heads : t.heads = s.heads

def NotRunning (e : Stop) : Prop := e ≠ .running

/-- The call returns or throws, and the message is what it was. -/
def Still {α : Type} (m : Method σ α) : Prop := Moves Quiet NotRunning m

theorem Quiet.refl (s : Run σ) : Quiet s s := ⟨rfl, rfl, rfl⟩

theorem Quiet.trans {s t u : Run σ} (h : Quiet s t) (h' : Quiet t u) : Quiet s u :=
  ⟨h'.query.trans h.query, h'.shifts.trans h.shifts, h'.heads.trans h.heads⟩

section
variable {α β : Type}

theorem Still.bind {m : Method σ α} {f : α → Method σ β} (hm : Still m) (hf : ∀ a, Still (f a)) : Still (m >>= f) :=
  Moves.bind (fun _ _ _ => Quiet.trans) hm hf

theorem Still.pure (a : α) : Still (Pure.pure a : Method σ α) := Moves.pure Quiet.refl a

theorem Still.get : Still (MonadState.get : Method σ (Run σ)) := Moves.get Quiet.refl

theorem Still.update {g : Run σ → Run σ} (hg : ∀ s, Quiet s (g s)) (a : α) :
    Still (do modify g; Pure.pure a : Method σ α) :=
  Still.bind (Moves.modify hg) fun _ => .pure a

theorem Still.call (x : Except Thrown α) : Still (call x : Method σ α) := by
  cases x with
  | ok a => exact Still.pure a
  | error e => exact Moves.throw Quiet.refl (by simp [NotRunning])

theorem Still.encodeTimestampOut (timestamp : ℤ) : Still (encodeTimestampOut timestamp : Method σ Bytes) := by
  unfold Negentropy.encodeTimestampOut
  split
  · exact Still.update (by intro s; exact ⟨rfl, rfl, rfl⟩) _
  · exact Still.get.bind fun _ => Still.update (by intro s; exact ⟨rfl, rfl, rfl⟩) _

theorem Still.encodeBound (key : Bound) : Still (encodeBound key : Method σ Bytes) := by
  unfold Negentropy.encodeBound
  exact (Still.encodeTimestampOut _).bind fun _ => .pure _

variable [Storage σ]

theorem Still.fingerprint (b e : ℕ) : Still (fingerprint b e : Method σ Bytes) := by
  unfold Negentropy.fingerprint
  exact Still.get.bind fun _ => .call _

theorem Still.iterate (b e : ℕ) (cb : α → Item → ℕ → α × Bool) (st : α) : Still (iterate b e cb st : Method σ α) := by
  unfold Negentropy.iterate
  exact Still.get.bind fun _ => .call _

theorem Still.splitBuckets (upper : ℕ) (upperBound : Bound) (itemsPerBucket bucketsWithExtra remaining curr : ℕ) :
    Still (splitBuckets upper upperBound itemsPerBucket bucketsWithExtra remaining curr : Method σ Bytes) := by
  induction remaining generalizing curr with
  | zero => exact .pure _
  | succ remaining ih =>
    unfold Negentropy.splitBuckets
    dsimp only
    generalize itemsPerBucket + (if buckets - (remaining + 1) < bucketsWithExtra then 1 else 0) = bucketSize
    refine (Still.fingerprint _ _).bind fun _ => ?_
    split
    · exact (Still.pure _).bind fun _ => (Still.encodeBound _).bind fun _ => (ih _).bind fun _ => .pure _
    · exact (Still.iterate _ _ _ _).bind fun _ => (Still.call _).bind fun _ =>
        (Still.encodeBound _).bind fun _ => (ih _).bind fun _ => .pure _

theorem Still.splitRange (lower upper : ℕ) (upperBound : Bound) :
    Still (splitRange lower upper upperBound : Method σ Bytes) := by
  unfold Negentropy.splitRange
  dsimp only
  split
  · exact (Still.encodeBound _).bind fun _ => (Still.iterate _ _ _ _).bind fun _ => .pure _
  · exact Still.splitBuckets _ _ _ _ _ _

omit [Storage σ] in
theorem Still.doSkip (st : ReconcileState) : Still (doSkip st : Method σ (ReconcileState × Bytes)) := by
  unfold Negentropy.doSkip
  split
  · exact (Still.encodeBound _).bind fun _ => .pure _
  · exact .pure _

theorem Still.finishRange (size : ℕ) (currBound : Bound) (upper : ℕ) (o : Bytes) (st : ReconcileState) :
    Still (finishRange size currBound upper o st : Method σ (ReconcileState × Bool)) := by
  unfold Negentropy.finishRange
  refine Still.get.bind fun _ => ?_
  split
  · exact (Still.fingerprint _ _).bind fun _ => (Still.encodeBound _).bind fun _ => .pure _
  · exact .pure _

end

/-! ### Calls that take bytes off the message -/

/-- Bytes have been taken off, and exactly so if everything had been exact before. -/
structure Advance (input : Bytes) (s t : Run σ) : Prop extends Later s t where
  sound : Sound input s → Sound input t

def Steady {α : Type} (input : Bytes) (m : Method σ α) : Prop := Moves (Advance input) NotRunning m

/-- Whatever it reads, the call returns or throws, and the logs only grow. -/
def Onward {α : Type} (m : Method σ α) : Prop := Moves Later NotRunning m

section
variable {α β : Type} {input : Bytes}

theorem Advance.refl (s : Run σ) : Advance input s s := ⟨.refl s, id⟩

theorem Advance.trans {s t u : Run σ} (h : Advance input s t) (h' : Advance input t u) : Advance input s u :=
  ⟨h.toLater.trans h'.toLater, fun hs => h'.sound (h.sound hs)⟩

theorem Quiet.advance {s t : Run σ} (h : Quiet s t) : Advance input s t where
  shifts := h.shifts ▸ List.prefix_rfl
  heads := h.heads
  raw := h.query ▸ List.suffix_rfl
  sound hs := ⟨h.query ▸ hs.unread, h.query ▸ hs.counts, h.shifts ▸ hs.exact⟩

theorem Still.steady {m : Method σ α} (h : Still m) : Steady input m := Moves.mono h fun _ _ => Quiet.advance

theorem Steady.onward {m : Method σ α} (h : Steady input m) : Onward m := Moves.mono h fun _ _ h => h.toLater

theorem Steady.bind {m : Method σ α} {f : α → Method σ β} (hm : Steady input m) (hf : ∀ a, Steady input (f a)) :
    Steady input (m >>= f) :=
  Moves.bind (fun _ _ _ => Advance.trans) hm hf

theorem Onward.bind {m : Method σ α} {f : α → Method σ β} (hm : Onward m) (hf : ∀ a, Onward (f a)) : Onward (m >>= f) :=
  Moves.bind (fun _ _ _ => Later.trans) hm hf

theorem Onward.throw (e : Thrown) : Onward (MonadExcept.throw (.thrown e) : Method σ α) :=
  Moves.throw Later.refl (by simp [NotRunning])

variable (hlt : input.length < 2 ^ 53)
include hlt

theorem steady_decodeVarInt : Steady input (decodeVarInt : Method σ ℤ) := by
  intro s
  have heq : (decodeVarInt : Method σ ℤ) s = decodeVarIntFrom (s.query.raw.length + 1) 0 s := rfl
  rw [heq]
  obtain ⟨hlater, hne⟩ := decodeVarIntFrom_later (s.query.raw.length + 1) 0 s (Nat.lt_succ_self _)
  exact ⟨⟨hlater, fun hs => (decodeVarIntFrom_sound hlt _ 0 s hs (Nat.lt_succ_self _)).1⟩, hne⟩

omit hlt in
/-- What `getBytes` does, for any count. -/
theorem getBytes_eq (n : ℤ) (s : Run σ) :
    (getBytes n : Method σ Bytes) s =
      if s.query.length < n then .error (.thrown (.error "parse ends prematurely")) s
      else .ok (s.query.shiftN n).1 (s.record n (s.query.shiftN n).2) := by
  have hget : (get : Method σ (Run σ)) s = .ok s s := rfl
  rw [getBytes, bind_of_ok hget]
  split <;> rfl

omit hlt in
theorem onward_getBytes (n : ℤ) : Onward (getBytes n : Method σ Bytes) := by
  intro s
  rw [getBytes_eq]
  split
  · exact ⟨Later.refl s, fun e t h => by cases h; simp [NotRunning]⟩
  · exact ⟨Later.record s n _ _, fun e t h => by cases h⟩

theorem steady_getBytes {n : ℤ} (hn : 0 ≤ n) : Steady input (getBytes n : Method σ Bytes) := by
  intro s
  refine ⟨⟨(onward_getBytes n s).1, fun hs => ?_⟩, (onward_getBytes n s).2⟩
  rw [getBytes_eq]
  split
  · exact hs
  · next h =>
    obtain ⟨k, rfl⟩ := Int.eq_ofNat_of_zero_le hn
    have hcounts : s.query.length = s.query.raw.length := hs.counts
    have hidx : WrappedBuffer.index s.query.raw (k : ℤ) = k := by
      rw [WrappedBuffer.index, if_neg (by omega), Int.toNat_natCast]
    have hrec := hs.record hlt (k := k) (by omega)
    simp only [WrappedBuffer.shiftN, hidx]
    exact hrec

theorem steady_getIds (n : ℕ) : Steady input (getIds n : Method σ (List Bytes)) := by
  induction n with
  | zero => exact (Still.pure _).steady
  | succ n ih => exact (steady_getBytes hlt (Int.natCast_nonneg _)).bind fun _ => ih.bind fun _ => (Still.pure _).steady

theorem steady_decodeTimestampIn : Steady input (decodeTimestampIn : Method σ ℤ) := by
  unfold Negentropy.decodeTimestampIn
  refine (steady_decodeVarInt hlt).bind fun x => Still.get.steady.bind fun _ => ?_
  dsimp only
  generalize (if x = 0 then MAX_VALUE else x - 1) = timestamp
  split
  · exact Still.steady (.update (by intro s; exact ⟨rfl, rfl, rfl⟩) _)
  · exact Still.steady (.update (by intro s; exact ⟨rfl, rfl, rfl⟩) _)

variable [Storage σ]

theorem steady_reconcileFingerprint (size : ℕ) (currBound : Bound) (lower upper : ℕ) (st : ReconcileState) :
    Steady input (reconcileFingerprint size currBound lower upper st : Method σ (ReconcileState × Bool)) := by
  unfold Negentropy.reconcileFingerprint
  refine (steady_getBytes hlt (Int.natCast_nonneg _)).bind fun _ => (Still.fingerprint _ _).steady.bind fun _ => ?_
  split
  · exact ((Still.doSkip _).bind fun _ => (Still.splitRange _ _ _).bind fun _ => .finishRange _ _ _ _ _).steady
  · exact (Still.finishRange _ _ _ _ _).steady

theorem steady_reconcileIdList (size : ℕ) (currBound : Bound) (lower upper : ℕ) (st : ReconcileState) :
    Steady input (reconcileIdList size currBound lower upper st : Method σ (ReconcileState × Bool)) := by
  unfold Negentropy.reconcileIdList
  refine (steady_decodeVarInt hlt).bind fun _ => (steady_getIds hlt _).bind fun _ => Still.get.steady.bind fun _ => ?_
  dsimp only
  split
  · exact ((Still.iterate _ _ _ _).bind fun _ => .finishRange _ _ _ _ _).steady
  · exact ((Still.doSkip _).bind fun _ => (Still.iterate _ _ _ _).bind fun _ => (Still.encodeBound _).bind fun _ =>
      .finishRange _ _ _ _ _).steady

/-! ### One iteration -/

omit [Storage σ] in
theorem decodeVarInt_reads {s : Run σ} (hs : Sound input s) :
    (readInt32 0 s.query.raw = none ∧ ∃ e t, (decodeVarInt : Method σ ℤ) s = .error e t ∧ Sound input t) ∨
    ∃ v t, readInt32 0 s.query.raw = some (v, t.query.raw) ∧ (decodeVarInt : Method σ ℤ) s = .ok v.toInt t ∧
      Sound input t ∧ t.ne = s.ne := by
  have heq : (decodeVarInt : Method σ ℤ) s = decodeVarIntFrom (s.query.raw.length + 1) 0 s := rfl
  obtain ⟨hsound, hread⟩ := decodeVarIntFrom_sound hlt (s.query.raw.length + 1) 0 s hs (Nat.lt_succ_self _)
  rw [← heq] at hsound hread
  cases h : readInt32 0 s.query.raw with
  | none =>
    rw [h] at hread
    obtain ⟨e, t, herr⟩ := hread
    rw [herr] at hsound
    exact .inl ⟨rfl, e, t, herr, hsound⟩
  | some p =>
    rw [h] at hread
    obtain ⟨t, hok, hraw, hne⟩ := hread
    rw [hok] at hsound
    exact .inr ⟨p.1, t, by rw [hraw], hok, hsound, hne⟩

omit [Storage σ] in
theorem decodeTimestampIn_reads {s : Run σ} (hs : Sound input s) :
    (readInt32 0 s.query.raw = none ∧ ∃ e t, (decodeTimestampIn : Method σ ℤ) s = .error e t ∧ Sound input t) ∨
    ∃ v x t, readInt32 0 s.query.raw = some (v, t.query.raw) ∧ (decodeTimestampIn : Method σ ℤ) s = .ok x t ∧
      Sound input t := by
  rcases decodeVarInt_reads hlt hs with ⟨hnone, e, t, herr, ht⟩ | ⟨v, t, hsome, hok, ht, -⟩
  · exact .inl ⟨hnone, e, t, bind_of_error herr, ht⟩
  · have hget : (get : Method σ (Run σ)) t = .ok t t := rfl
    have hsteady := (steady_decodeTimestampIn hlt s).1.sound hs
    obtain ⟨x, u, hok', hraw⟩ : ∃ x u, (decodeTimestampIn : Method σ ℤ) s = .ok x u ∧ u.query.raw = t.query.raw := by
      rw [decodeTimestampIn, bind_of_ok hok, bind_of_ok hget]
      dsimp only
      generalize (if v.toInt = 0 then MAX_VALUE else v.toInt - 1) = timestamp
      split
      · exact ⟨_, _, rfl, rfl⟩
      · exact ⟨_, _, rfl, rfl⟩
    rw [hok'] at hsteady
    exact .inr ⟨v, x, u, by rw [hraw, hsome], hok', hsteady⟩

omit [Storage σ] in
/-- What is left of `decodeBound` once the timestamp and the id length have been read. -/
theorem decodeBound_reads {s : Run σ} (hs : Sound input s) :
    (∃ e t, (decodeBound : Method σ Bound) s = .error e t ∧ Sound input t ∧ ¬ NegativeLength s.query.raw) ∨
    ∃ timestamp len t, idLength s.query.raw = some len ∧ Sound input t ∧ t.query.raw.length < s.query.raw.length ∧
      (decodeBound : Method σ Bound) s =
        (if len.toInt > ID_SIZE then throw (.thrown (.error "bound key too long"))
        else do
          let id ← getBytes len.toInt
          return { timestamp, id } : Method σ Bound) t := by
  rcases decodeTimestampIn_reads hlt hs with ⟨hnone, e, t, herr, ht⟩ | ⟨v, x, t, hsome, hok, ht⟩
  · refine .inl ⟨e, t, bind_of_error herr, ht, fun ⟨len, hlen, _⟩ => ?_⟩
    simp [idLength, hnone] at hlen
  · rcases decodeVarInt_reads hlt ht with ⟨hnone, e, u, herr, hu⟩ | ⟨len, u, hsome', hok', hu, -⟩
    · refine .inl ⟨e, u, ?_, hu, fun ⟨len, hlen, _⟩ => ?_⟩
      · rw [decodeBound, bind_of_ok hok, bind_of_error herr]
      · simp [idLength, hsome, hnone] at hlen
    · have h1 := (readInt32_length hsome).2
      have h2 := (readInt32_length hsome').2
      refine .inr ⟨x, len, u, by simp [idLength, hsome, hsome'], hu, by omega, ?_⟩
      rw [decodeBound, bind_of_ok hok, bind_of_ok hok']

omit [Storage σ] in
theorem onward_decodeBound : Onward (decodeBound : Method σ Bound) := by
  unfold decodeBound
  refine (steady_decodeTimestampIn hlt).onward.bind fun _ => (steady_decodeVarInt hlt).onward.bind fun len => ?_
  split
  · exact .throw _
  · exact (onward_getBytes _).bind fun _ => ((Still.pure _).steady : Steady input _).onward

omit [Storage σ] in
/-- A length that is not negative is read exactly, and the bound takes something off the message. -/
theorem decodeBound_sound {s : Run σ} (hs : Sound input s) (hneg : ¬ NegativeLength s.query.raw) :
    Sound input (endState ((decodeBound : Method σ Bound) s)) ∧
      ∀ b t, (decodeBound : Method σ Bound) s = .ok b t → t.query.raw.length < s.query.raw.length := by
  rcases decodeBound_reads hlt hs with ⟨e, t, herr, ht, -⟩ | ⟨timestamp, len, t, hlen, ht, hlt', heq⟩
  · rw [herr]
    exact ⟨ht, fun b t' h => by cases h⟩
  · have hnonneg : 0 ≤ len.toInt := not_lt.mp fun h => hneg ⟨len, hlen, h⟩
    have hrest : Steady input (if len.toInt > ID_SIZE then throw (.thrown (.error "bound key too long"))
        else do
          let id ← getBytes len.toInt
          return { timestamp, id } : Method σ Bound) := by
      split
      · exact Moves.throw Advance.refl (by simp [NotRunning])
      · exact (steady_getBytes hlt hnonneg).bind fun _ => (Still.pure _).steady
    have hmove := (hrest t).1
    rw [heq]
    refine ⟨hmove.sound ht, fun b t' h => ?_⟩
    rw [h] at hmove
    exact hmove.raw.length_le.trans_lt hlt'

omit [Storage σ] in
/-- A negative one is not. -/
theorem decodeBound_negative {s : Run σ} (hs : Sound input s) (hneg : NegativeLength s.query.raw) :
    ∃ c ∈ (endState ((decodeBound : Method σ Bound) s)).shifts, c.n < 0 := by
  rcases decodeBound_reads hlt hs with ⟨_, _, _, _, hno⟩ | ⟨timestamp, len, t, hlen, ht, -, heq⟩
  · exact absurd hneg hno
  · obtain ⟨len', hlen', hlt0⟩ := hneg
    obtain rfl : len = len' := Option.some.inj (hlen.symm.trans hlen')
    have hcounts : t.query.length = t.query.raw.length := ht.counts
    have hget := getBytes_eq len.toInt t
    rw [if_neg (by omega)] at hget
    rw [heq, if_neg (by simp [ID_SIZE]; omega), bind_of_ok hget]
    exact ⟨_, List.mem_append_right _ (List.mem_singleton_self _), hlt0⟩

/-- What an iteration does with the bound it has read. -/
theorem steady_rest (size : ℕ) (st : ReconcileState) (currBound : Bound) :
    Steady input (do
      let mode ← decodeVarInt
      let lower := st.prevIndex
      let upper ← findLowerBound st.prevIndex size currBound
      if mode = Mode.skip then finishRange size currBound upper [] { st with skip := true }
      else if mode = Mode.fingerprint then reconcileFingerprint size currBound lower upper st
      else if mode = Mode.idList then reconcileIdList size currBound lower upper st
      else throw (.thrown (.error "unexpected mode")) : Method σ (ReconcileState × Bool)) := by
  have hfind : Still (findLowerBound st.prevIndex size currBound : Method σ ℕ) := by
    unfold Negentropy.findLowerBound
    exact Still.get.bind fun _ => .call _
  refine (steady_decodeVarInt hlt).bind fun mode => hfind.steady.bind fun upper => ?_
  split_ifs
  · exact (Still.finishRange _ _ _ _ _).steady
  · exact steady_reconcileFingerprint hlt _ _ _ _ _
  · exact steady_reconcileIdList hlt _ _ _ _ _
  · exact Moves.throw Advance.refl (by simp [NotRunning])

theorem onward_reconcileRange (size : ℕ) (st : ReconcileState) :
    Onward (reconcileRange size st : Method σ (ReconcileState × Bool)) := by
  unfold reconcileRange
  exact (onward_decodeBound hlt).bind fun b => (steady_rest hlt size st b).onward

theorem reconcileRange_sound (size : ℕ) (st : ReconcileState) {s : Run σ} (hs : Sound input s)
    (hneg : ¬ NegativeLength s.query.raw) :
    Sound input (endState (reconcileRange size st s)) ∧
      ∀ x t, reconcileRange size st s = .ok x t → t.query.raw.length < s.query.raw.length := by
  obtain ⟨hsound, hless⟩ := decodeBound_sound hlt hs hneg
  rw [reconcileRange]
  cases h : (decodeBound : Method σ Bound) s with
  | error e t =>
    rw [h] at hsound
    rw [bind_of_error h]
    exact ⟨hsound, fun x t' h' => by cases h'⟩
  | ok b t =>
    rw [h] at hsound
    have hmove := (steady_rest hlt size st b t).1
    rw [bind_of_ok h]
    refine ⟨hmove.sound hsound, fun x t' h' => ?_⟩
    rw [h'] at hmove
    exact hmove.raw.length_le.trans_lt (hless b t h)

theorem reconcileRange_negative (size : ℕ) (st : ReconcileState) {s : Run σ} (hs : Sound input s)
    (hneg : NegativeLength s.query.raw) : ∃ c ∈ (endState (reconcileRange size st s)).shifts, c.n < 0 := by
  obtain ⟨c, hc, hlt0⟩ := decodeBound_negative hlt hs hneg
  refine ⟨c, ?_, hlt0⟩
  rw [reconcileRange]
  cases h : (decodeBound : Method σ Bound) s with
  | error e t =>
    rw [h] at hc
    rw [bind_of_error h]
    exact hc
  | ok b t =>
    rw [h] at hc
    rw [bind_of_ok h]
    exact (steady_rest hlt size st b t).1.shifts.subset hc

/-! ### The main loop -/

omit hlt in
/-- One evaluation of the loop's condition. -/
theorem reconcileLoop_succ (size rounds : ℕ) (st : ReconcileState) (s : Run σ) :
    reconcileLoop size (rounds + 1) st s =
      if s.query.length = 0 then .ok st s
      else
        (do
          let (st, stop) ← reconcileRange size st
          if stop then return st else reconcileLoop size rounds st : Method σ ReconcileState)
        { s with heads := s.heads ++ [s.query] } := by
  have hget : (get : Method σ (Run σ)) s = .ok s s := rfl
  have hmodify : (modify fun s => { s with heads := s.heads ++ [s.query] } : Method σ PUnit) s =
      .ok ⟨⟩ { s with heads := s.heads ++ [s.query] } := rfl
  rw [reconcileLoop, bind_of_ok hget]
  split
  · rfl
  · rw [bind_of_ok hmodify]

/-- What an iteration that is not the last goes on to. -/
theorem reconcileLoop_iterate (size rounds : ℕ) (st : ReconcileState) (s : Run σ) :
    let r := (do
      let (st, stop) ← reconcileRange size st
      if stop then return st else reconcileLoop size rounds st : Method σ ReconcileState) s
    (endState r = endState (reconcileRange size st s) ∧ ∀ u, r = .error .running u → False) ∨
      ∃ st' t, reconcileRange size st s = .ok (st', false) t ∧ r = reconcileLoop size rounds st' t := by
  intro r
  cases h : reconcileRange size st s with
  | error e t =>
    have hr : r = .error e t := bind_of_error h
    refine .inl ⟨by rw [hr]; rfl, fun u hu => ?_⟩
    rw [hr] at hu
    cases hu
    exact (onward_reconcileRange hlt size st s).2 _ _ h rfl
  | ok x t =>
    obtain ⟨st', stop⟩ := x
    have hr : r = (if stop then return st' else reconcileLoop size rounds st' : Method σ ReconcileState) t := bind_of_ok h
    cases stop with
    | true =>
      rw [hr]
      exact .inl ⟨rfl, fun u hu => by cases hu⟩
    | false => exact .inr ⟨st', t, rfl, hr⟩

/-- Nothing is taken out of the logs. -/
theorem reconcileLoop_grows (size rounds : ℕ) (st : ReconcileState) (s : Run σ) :
    s.shifts <+: (endState (reconcileLoop size rounds st s)).shifts ∧
      s.heads <+: (endState (reconcileLoop size rounds st s)).heads := by
  induction rounds generalizing st s with
  | zero => exact ⟨List.prefix_rfl, List.prefix_rfl⟩
  | succ rounds ih =>
    rw [reconcileLoop_succ]
    split
    · exact ⟨List.prefix_rfl, List.prefix_rfl⟩
    · have hrange := (onward_reconcileRange hlt size st { s with heads := s.heads ++ [s.query] }).1
      have hheads : s.heads <+: (endState (reconcileRange size st { s with heads := s.heads ++ [s.query] })).heads := by
        rw [hrange.heads]
        exact List.prefix_append _ _
      rcases reconcileLoop_iterate hlt size rounds st { s with heads := s.heads ++ [s.query] } with
        ⟨hend, -⟩ | ⟨st', t, hok, hr⟩
      · rw [hend]
        exact ⟨hrange.shifts, hheads⟩
      · rw [hok] at hrange hheads
        rw [hr]
        obtain ⟨h1, h2⟩ := ih st' t
        exact ⟨hrange.shifts.trans h1, hheads.trans h2⟩

/-- The iterations of a loop that has started on `n` unread bytes. -/
structure Iterations (input : Bytes) (n : ℕ) (new : List WrappedBuffer) : Prop where
  unread : ∀ b ∈ new, b.raw <:+ input ∧ b.Counts
  decreasing : (new.map (·.length)).Pairwise (· > ·)
  below : ∀ b ∈ new, b.length ≤ n
  few : new.length ≤ n

omit [Storage σ] hlt in
theorem Iterations.nil (n : ℕ) : Iterations input n [] :=
  ⟨by simp, List.Pairwise.nil, by simp, Nat.zero_le n⟩

omit [Storage σ] hlt in
theorem Iterations.cons {b : WrappedBuffer} (hraw : b.raw <:+ input) (hb : b.Counts) {m : ℕ} (hm : m < b.raw.length)
    {new : List WrappedBuffer} (h : Iterations input m new) : Iterations input b.raw.length (b :: new) where
  unread := List.forall_mem_cons.mpr ⟨⟨hraw, hb⟩, h.unread⟩
  decreasing := by
    have hlen : b.length = b.raw.length := hb
    refine List.pairwise_cons.mpr ⟨fun x hx => ?_, h.decreasing⟩
    obtain ⟨c, hc, rfl⟩ := List.mem_map.mp hx
    have := h.below c hc
    change b.length > c.length
    omega
  below := by
    have hlen : b.length = b.raw.length := hb
    refine List.forall_mem_cons.mpr ⟨hlen.le, fun c hc => ?_⟩
    have := h.below c hc
    omega
  few := by
    have := h.few
    simp only [List.length_cons]
    omega

/-- If no iteration finds a negative length, all are exact, and the loop ends. -/
theorem reconcileLoop_progress (size rounds : ℕ) (st : ReconcileState) {s : Run σ} (hs : Sound input s)
    (hneg : ∀ b ∈ (endState (reconcileLoop size rounds st s)).heads, ¬ NegativeLength b.raw) :
    Sound input (endState (reconcileLoop size rounds st s)) ∧
      (∃ new, (endState (reconcileLoop size rounds st s)).heads = s.heads ++ new ∧
        Iterations input s.query.raw.length new) ∧
      (s.query.raw.length < rounds → ∀ u, reconcileLoop size rounds st s ≠ .error .running u) := by
  induction rounds generalizing st s with
  | zero => exact ⟨hs, ⟨[], (List.append_nil _).symm, Iterations.nil _⟩, fun h => absurd h (Nat.not_lt_zero _)⟩
  | succ rounds ih =>
    have hgrows := fun st' (t : Run σ) => reconcileLoop_grows hlt size rounds st' t
    rw [reconcileLoop_succ] at hneg ⊢
    by_cases hend : s.query.length = 0
    · rw [if_pos hend]
      exact ⟨hs, ⟨[], (List.append_nil _).symm, Iterations.nil _⟩, fun _ u h => by cases h⟩
    · rw [if_neg hend] at hneg ⊢
      set s' : Run σ := { s with heads := s.heads ++ [s.query] } with hs'
      have hsound' : Sound input s' := ⟨hs.unread, hs.counts, hs.exact⟩
      have hrange := (onward_reconcileRange hlt size st s').1
      rcases reconcileLoop_iterate hlt size rounds st s' with ⟨hend', hrun⟩ | ⟨st', t, hok, hr⟩
      · rw [hend'] at hneg ⊢
        rw [hrange.heads] at hneg ⊢
        obtain ⟨hsound, -⟩ := reconcileRange_sound hlt size st hsound'
          (hneg s.query (List.mem_append_right _ (List.mem_singleton_self _)))
        have hpos : 0 < s.query.raw.length := by
          have hlen : s.query.length = s.query.raw.length := hs.counts
          omega
        exact ⟨hsound, ⟨[s.query], rfl, (Iterations.nil 0).cons hs.unread hs.counts hpos⟩, fun _ u hu => hrun u hu⟩
      · rw [hr] at hneg ⊢
        rw [hok] at hrange
        have hhead : s.query ∈ t.heads := by
          rw [show t.heads = s'.heads from hrange.heads]
          exact List.mem_append_right _ (List.mem_singleton_self _)
        obtain ⟨hsound, hless⟩ := reconcileRange_sound hlt size st hsound'
          (hneg s.query ((hgrows st' t).2.subset hhead))
        rw [hok, endState_ok] at hsound
        have hlt' : t.query.raw.length < s.query.raw.length := hless _ t hok
        obtain ⟨h1, ⟨new, hnew, hiter⟩, h3⟩ := ih st' hsound hneg
        refine ⟨h1, ⟨s.query :: new, ?_, hiter.cons hs.unread hs.counts hlt'⟩, fun h => h3 (by omega)⟩
        rw [hnew, show t.heads = s'.heads from hrange.heads, hs', List.append_assoc]
        rfl

/-- If all calls were exact, no iteration has found a negative length. -/
theorem reconcileLoop_nonneg (size rounds : ℕ) (st : ReconcileState) {s : Run σ} (hs : Sound input s)
    (hbase : ∀ b ∈ s.heads, ¬ NegativeLength b.raw)
    (hexact : ∀ c ∈ (endState (reconcileLoop size rounds st s)).shifts, c.Exact) :
    ∀ b ∈ (endState (reconcileLoop size rounds st s)).heads, ¬ NegativeLength b.raw := by
  induction rounds generalizing st s with
  | zero => exact hbase
  | succ rounds ih =>
    have hgrows := fun st' (t : Run σ) => reconcileLoop_grows hlt size rounds st' t
    rw [reconcileLoop_succ] at hexact ⊢
    by_cases hend : s.query.length = 0
    · rw [if_pos hend]
      exact hbase
    · rw [if_neg hend] at hexact ⊢
      set s' : Run σ := { s with heads := s.heads ++ [s.query] } with hs'
      have hsound' : Sound input s' := ⟨hs.unread, hs.counts, hs.exact⟩
      have hrange := (onward_reconcileRange hlt size st s').1
      -- a call with a negative count would be in the log
      have hhead : (∀ c ∈ (endState (reconcileRange size st s')).shifts, c.Exact) → ¬ NegativeLength s.query.raw := by
        intro hall hneg
        obtain ⟨c, hc, hlt0⟩ := reconcileRange_negative hlt size st hsound' hneg
        exact absurd (hall c hc).nonneg (not_le.mpr hlt0)
      have hbase' : ¬ NegativeLength s.query.raw → ∀ b ∈ s'.heads, ¬ NegativeLength b.raw := by
        intro hneg b hb
        rcases List.mem_append.mp hb with hb | hb
        · exact hbase b hb
        · rw [List.mem_singleton.mp hb]
          exact hneg
      rcases reconcileLoop_iterate hlt size rounds st s' with ⟨hend', -⟩ | ⟨st', t, hok, hr⟩
      · rw [hend'] at hexact ⊢
        rw [hrange.heads]
        exact hbase' (hhead hexact)
      · rw [hr] at hexact ⊢
        rw [hok] at hrange hhead
        have hneg := hhead fun c hc => hexact c ((hgrows st' t).1.subset hc)
        have hsound := (reconcileRange_sound hlt size st hsound' hneg).1
        rw [hok] at hsound
        exact ih st' hsound (by rw [show t.heads = s'.heads from hrange.heads]; exact hbase' hneg) hexact

/-! ### A call -/

/-- Up to its main loop a call is exact, and from there it goes as the loop does. -/
theorem reconcileMessage_loop (rounds : ℕ) {s : Run σ} (hs : Sound input s) (hheads : s.heads = []) :
    (Sound input (endState (reconcileMessage rounds s)) ∧ (endState (reconcileMessage rounds s)).heads = [] ∧
      ∀ u, reconcileMessage rounds s ≠ .error .running u) ∨
    ∃ size st t, Sound input t ∧ t.heads = [] ∧ t.query.raw.length ≤ s.query.raw.length ∧
      endState (reconcileMessage rounds s) = endState (reconcileLoop size rounds st t) ∧
      ∀ u, reconcileMessage rounds s = .error .running u → reconcileLoop size rounds st t = .error .running u := by
  set s₀ : Run σ := { s with ne := { s.ne with lastTimestampIn := 0, lastTimestampOut := 0 } } with hs₀
  have hsound₀ : Sound input s₀ := ⟨hs.unread, hs.counts, hs.exact⟩
  have hmodify : (modify fun s => { s with ne := { s.ne with lastTimestampIn := 0, lastTimestampOut := 0 } } :
      Method σ PUnit) s = .ok ⟨⟩ s₀ := rfl
  have hbyte : Steady input (getByte : Method σ UInt8) :=
    (steady_getBytes hlt (by decide)).bind fun _ => (Still.pure _).steady
  have hsize : Still (storageSize : Method σ ℕ) := Still.get.bind fun _ => .call _
  rw [reconcileMessage, bind_of_ok hmodify]
  have h1 := hbyte s₀
  cases hb : (getByte : Method σ UInt8) s₀ with
  | error e t =>
    rw [hb] at h1
    rw [bind_of_error hb]
    exact .inl ⟨h1.1.sound hsound₀, h1.1.heads.trans hheads, fun u hu => by cases hu; exact h1.2 _ _ rfl rfl⟩
  | ok version t =>
    rw [hb, endState_ok] at h1
    have ht : Sound input t := h1.1.sound hsound₀
    have hh : t.heads = [] := h1.1.heads.trans hheads
    have hget : (get : Method σ (Run σ)) t = .ok t t := rfl
    rw [bind_of_ok hb]
    dsimp only
    split_ifs
    · exact .inl ⟨ht, hh, fun u hu => by cases hu⟩
    · rw [bind_of_ok hget]
      split_ifs
      · exact .inl ⟨ht, hh, fun u hu => by cases hu⟩
      · exact .inl ⟨ht, hh, fun u hu => by cases hu⟩
    · have h2 := hsize t
      cases hz : (storageSize : Method σ ℕ) t with
      | error e u =>
        rw [hz] at h2
        rw [bind_of_error hz]
        exact .inl ⟨h2.1.advance.sound ht, h2.1.heads.trans hh, fun u hu => by cases hu; exact h2.2 _ _ rfl rfl⟩
      | ok size u =>
        rw [hz, endState_ok] at h2
        rw [bind_of_ok hz]
        refine .inr ⟨size, { fullOutput := [PROTOCOL_VERSION] }, u, h2.1.advance.sound ht, h2.1.heads.trans hh, ?_, ?_⟩
        · exact (h2.1.advance : Advance input _ _).raw.length_le.trans h1.1.raw.length_le
        · cases hl : reconcileLoop size rounds { fullOutput := [PROTOCOL_VERSION] } u with
          | error e v =>
            rw [bind_of_error hl]
            exact ⟨rfl, fun _ h => by cases h; rfl⟩
          | ok st v =>
            rw [bind_of_ok hl]
            exact ⟨rfl, fun _ h => by cases h⟩

end

/-- The parser makes progress exactly in the calls none of whose iterations begins at a bound with a negative
id length. -/
theorem parser_progress_iff [Storage σ] (ne : Negentropy σ) (rounds : ℕ) (query : Uint8Array) :
    Progresses query.bytes rounds (ne.reconcile rounds query) ↔
      ∀ b ∈ (endState (ne.reconcile rounds query)).heads, ¬ NegativeLength b.raw := by
  have hstart : Sound query.bytes { ne, query := .ofArray query } := ⟨List.suffix_rfl, rfl, by simp⟩
  have hloop := reconcileMessage_loop query.length_lt rounds hstart rfl
  change _ ∨ ∃ size st t, Sound query.bytes t ∧ t.heads = [] ∧ t.query.raw.length ≤ query.bytes.length ∧ _ at hloop
  rw [Negentropy.reconcile]
  constructor
  · intro h
    rcases hloop with ⟨-, hheads, -⟩ | ⟨size, st, t, ht, hh, -, hend, -⟩
    · rw [hheads]
      simp
    · have hexact := h.exact
      rw [hend] at hexact ⊢
      exact reconcileLoop_nonneg query.length_lt size rounds st ht (by rw [hh]; simp) hexact
  · intro h
    rcases hloop with ⟨hsound, hheads, hrun⟩ | ⟨size, st, t, ht, hh, hlen, hend, hrun⟩
    · exact ⟨hsound.exact, by rw [hheads]; simp, by rw [hheads]; simp, by rw [hheads]; simp, fun _ => hrun⟩
    · rw [hend] at h
      obtain ⟨hsound, ⟨new, hnew, hiter⟩, hends⟩ := reconcileLoop_progress query.length_lt size rounds st ht h
      rw [hh, List.nil_append] at hnew
      rw [← hend] at hsound hnew
      refine ⟨hsound.exact, ?_, ?_, ?_, fun hr u hu => hends (by omega) u (hrun u hu)⟩
      · rw [hnew]
        exact hiter.unread
      · rw [hnew]
        exact hiter.decreasing
      · rw [hnew]
        exact hiter.few.trans hlen

end

/-! ### A negative length -/

section

local instance progressSha256 : Sha256 := ⟨fun _ => List.replicate 32 0, fun _ => rfl⟩

/-- Eight bytes: an infinite timestamp and an id length of `-30`, of which one byte is left over. -/
def negativeQuery : Uint8Array := ⟨[0x61, 0x00, 0x8F, 0xFF, 0xFF, 0xFF, 0x62, 0x00], by decide⟩

def emptyServer : Negentropy NegentropyStorageVector := { storage := ⟨[], true⟩, frameSizeLimit := 0, limit_ok := limit_ok_none }

/-- The message then counts thirty bytes more than it has, and the loop runs eleven times. -/
theorem parser_loses_count :
    ¬ Progresses negativeQuery.bytes 20 (emptyServer.reconcile 20 negativeQuery) ∧
      (endState (emptyServer.reconcile 20 negativeQuery)).heads.length = 11 ∧ negativeQuery.bytes.length = 8 := by
  have hheads : (endState (emptyServer.reconcile 20 negativeQuery)).heads.length = 11 := by decide +kernel
  refine ⟨fun h => ?_, hheads, rfl⟩
  have hfew := h.few
  rw [hheads] at hfew
  exact absurd hfew (by decide)

end

end NE.Js
