import Negentropy.Bounds
import Negentropy.FrameLimit
import Negentropy.Lib.Guarded
import Negentropy.Lib.Logged
import Negentropy.Storage.Agree
import Negentropy.Truthful

/-! The timestamps that `reconcile` codes as differences. The methods that write bounds are run
again with a log of the calls of `encodeTimestampOut`; without it they are the methods they
were, and no call is missing from it. They are written out again, and not taken from one text
for both, so that `Protocol` stays what the source says. In every accepted call no difference
is negative. -/

namespace NE

open Sorted Stateful

/-- A call of `encodeTimestampOut`, and what the timestamp is coded relative to. -/
structure EncodeCall where
  timestamp : UInt64
  lastTimestampOut : UInt64

abbrev Recorded (σ α : Type) := Logged EncodeCall Err (Negentropy σ) α

namespace Recorded

open Negentropy

variable {σ : Type}

/-! ### The methods with a log -/

/-- A call that codes no timestamp. -/
def quiet {α : Type} (m : Method σ α) : Recorded σ α := liftM m

def encodeTimestampOut (timestamp : UInt64) : Recorded σ Bytes := do
  let ne ← quiet get
  record ⟨timestamp, ne.lastTimestampOut⟩
  quiet (Negentropy.encodeTimestampOut timestamp)

def encodeBound (bound : Bound) : Recorded σ Bytes := do
  let timestamp ← encodeTimestampOut bound.item.timestamp
  return timestamp ++ encodeVarInt (UInt64.ofNat bound.idLen) ++ bound.idPrefix

variable [StorageBase σ]

def splitBuckets (upper : ℕ) (upperBound : Bound) (itemsPerBucket bucketsWithExtra : ℕ) :
    ℕ → ℕ → Recorded σ Bytes
  | 0, _ => return []
  | remaining + 1, curr => do
      let i := buckets - (remaining + 1)
      let bucketSize := itemsPerBucket + if i < bucketsWithExtra then 1 else 0
      let ourFingerprint ← quiet (fingerprint curr (curr + bucketSize))
      let curr := curr + bucketSize
      let nextBound ←
        if curr = upper then pure upperBound
        else do
          let items ← quiet (iterate (curr - 1) (curr + 1)
            (fun (items : Item × Item) item index =>
              (if index = curr - 1 then (item, items.2) else (items.1, item), true)) ({}, {}))
          pure (getMinimalBound items.1 items.2)
      let bound ← encodeBound nextBound
      let o ← splitBuckets upper upperBound itemsPerBucket bucketsWithExtra remaining curr
      return bound ++ encodeVarInt Mode.fingerprint.toU64 ++ ourFingerprint.buf ++ o

def splitRange (lower upper : ℕ) (upperBound : Bound) : Recorded σ Bytes := do
  let numElems := upper - lower
  if numElems < buckets * 2 then
    let bound ← encodeBound upperBound
    let ids ← quiet (iterate lower upper (fun o item _ => (o ++ item.id.bytes, true)) [])
    return bound ++ encodeVarInt Mode.idList.toU64 ++ encodeVarInt (UInt64.ofNat numElems) ++ ids
  else
    splitBuckets upper upperBound (numElems / buckets) (numElems % buckets) buckets lower

omit [StorageBase σ] in
def doSkip (st : ReconcileState) : Recorded σ (ReconcileState × Bytes) := do
  if st.skip then
    let bound ← encodeBound st.prevBound
    return ({ st with skip := false }, bound ++ encodeVarInt Mode.skip.toU64)
  else return (st, [])

def finishRange (size : ℕ) (currBound : Bound) (upper : ℕ) (o : Bytes) (st : ReconcileState) :
    Recorded σ (ReconcileState × Bool) := do
  let ne ← quiet get
  if ne.exceededFrameSizeLimit (st.fullOutput.length + o.length) then
    let remainingFingerprint ← quiet (fingerprint upper size)
    let bound ← encodeBound (Bound.ofTimestamp MAX_U64)
    let fullOutput := st.fullOutput ++ bound ++ encodeVarInt Mode.fingerprint.toU64 ++ remainingFingerprint.buf
    return ({ st with fullOutput }, true)
  else
    return ({ st with fullOutput := st.fullOutput ++ o, prevIndex := upper, prevBound := currBound }, false)

def reconcileFingerprint (size : ℕ) (currBound : Bound) (lower upper : ℕ) (st : ReconcileState) :
    Recorded σ (ReconcileState × Bool) := do
  let (theirFingerprint, query) ← quiet (call (getBytes st.query FINGERPRINT_SIZE))
  let ourFingerprint ← quiet (fingerprint lower upper)
  let st := { st with query }
  if theirFingerprint ≠ ourFingerprint.buf then
    let (st, o) ← doSkip st
    let split ← splitRange lower upper currBound
    finishRange size currBound upper (o ++ split) st
  else
    finishRange size currBound upper [] { st with skip := true }

def reconcileIdList (size : ℕ) (currBound : Bound) (lower upper : ℕ) (st : ReconcileState) :
    Recorded σ (ReconcileState × Bool) := do
  let (numIds, query) ← quiet (call (decodeVarInt st.query))
  let (ids, query) ← quiet (call (getIds numIds.toNat query))
  let st := { st with query }
  let ne ← quiet get
  if ne.isInitiator then
    let (haveIds, theirElems) ← quiet (iterate lower upper compareIds (st.haveIds, ids.foldl insertElem []))
    finishRange size currBound upper []
      { st with skip := true, haveIds, needIds := st.needIds ++ theirElems }
  else
    let (st, o) ← doSkip st
    let r ← quiet (iterate lower upper (respondIds ne st.fullOutput) { endBound := currBound, upper })
    let bound ← encodeBound r.endBound
    let o := o ++ bound ++ encodeVarInt Mode.idList.toU64 ++ encodeVarInt r.numResponseIds ++ r.responseIds
    finishRange size currBound r.upper [] { st with fullOutput := st.fullOutput ++ o }

def reconcileRange (size : ℕ) (st : ReconcileState) : Recorded σ (ReconcileState × Bool) := do
  let (currBound, query) ← quiet (decodeBound st.query)
  let (mode, query) ← quiet (call (decodeVarInt query))
  let lower := st.prevIndex
  let upper ← quiet (findLowerBound st.prevIndex size currBound)
  let st := { st with query }
  match Mode.ofU64 mode with
  | some .skip => finishRange size currBound upper [] { st with skip := true }
  | some .fingerprint => reconcileFingerprint size currBound lower upper st
  | some .idList => reconcileIdList size currBound lower upper st
  | none => quiet (throw (.err "unexpected mode"))

def reconcileLoop (size : ℕ) : ℕ → ReconcileState → Recorded σ ReconcileState
  | 0, st => return st
  | rounds + 1, st =>
      if st.query = [] then return st
      else do
        let (st, stop) ← reconcileRange size st
        if stop then return st else reconcileLoop size rounds st

def reconcileAux (query : Bytes) : Recorded σ (Bytes × List ItemId × List ItemId) := do
  quiet (modify fun ne => { ne with lastTimestampIn := 0, lastTimestampOut := 0 })
  let fullOutput := [PROTOCOL_VERSION]
  let (protocolVersion, query) ← quiet (call (getByte query))
  if protocolVersion < 0x60 ∨ protocolVersion > 0x6F then
    quiet (throw (.err "invalid negentropy protocol version byte"))
  else if protocolVersion ≠ PROTOCOL_VERSION then
    let ne ← quiet get
    if ne.isInitiator then
      quiet (throw (.err ("unsupported negentropy protocol version requested" ++
        toString (protocolVersion - 0x60).toNat)))
    else return (fullOutput, [], [])
  else
    let size ← quiet storageSize
    let st ← reconcileLoop size query.length { query, fullOutput }
    return (st.fullOutput, st.haveIds, st.needIds)

def reconcile (query : Bytes) : Recorded σ Bytes := do
  let ne ← quiet get
  if ne.isInitiator then quiet (throw (.err "initiator not asking for have/need IDs"))
  else
    let (output, _, _) ← reconcileAux query
    return output

def reconcileHaveNeed (query : Bytes) : Recorded σ (Option Bytes × List ItemId × List ItemId) := do
  let ne ← quiet get
  if ¬ ne.isInitiator then quiet (throw (.err "non-initiator asking for have/need IDs"))
  else
    let (output, haveIds, needIds) ← reconcileAux query
    return (if output.length = 1 then none else some output, haveIds, needIds)

/-! ### Without the log -/

omit [StorageBase σ]

theorem erases_quiet {α : Type} (m : Method σ α) : Erases (quiet m : Recorded σ α) m := Erases.lift m

theorem erases_encodeBound (bound : Bound) :
    Erases (encodeBound bound : Recorded σ Bytes) (Negentropy.encodeBound bound) := by
  have htimestamp : Erases (encodeTimestampOut bound.item.timestamp : Recorded σ Bytes)
      (Negentropy.encodeTimestampOut bound.item.timestamp) := by
    intro log
    funext s
    exact congrFun ((Erases.lift (Negentropy.encodeTimestampOut bound.item.timestamp)) (log ++ [_])) s
  exact htimestamp.bind fun _ => .pure _

theorem erases_doSkip (st : ReconcileState) :
    Erases (doSkip st : Recorded σ (ReconcileState × Bytes)) (Negentropy.doSkip st) := by
  unfold doSkip Negentropy.doSkip
  split
  · exact (erases_encodeBound _).bind fun _ => .pure _
  · exact .pure _

variable [StorageBase σ]

theorem erases_splitBuckets (upper : ℕ) (upperBound : Bound) (itemsPerBucket bucketsWithExtra remaining curr : ℕ) :
    Erases (splitBuckets upper upperBound itemsPerBucket bucketsWithExtra remaining curr : Recorded σ Bytes)
      (Negentropy.splitBuckets upper upperBound itemsPerBucket bucketsWithExtra remaining curr) := by
  induction remaining generalizing curr with
  | zero => exact .pure _
  | succ remaining ih =>
    unfold splitBuckets Negentropy.splitBuckets
    dsimp only
    generalize itemsPerBucket + (if buckets - (remaining + 1) < bucketsWithExtra then 1 else 0) = bucketSize
    refine (erases_quiet _).bind fun _ => ?_
    split
    · exact (Erases.pure _).bind fun _ => (erases_encodeBound _).bind fun _ => (ih _).bind fun _ => .pure _
    · exact (erases_quiet _).bind fun _ => (Erases.pure _).bind fun _ =>
        (erases_encodeBound _).bind fun _ => (ih _).bind fun _ => .pure _

theorem erases_splitRange (lower upper : ℕ) (upperBound : Bound) :
    Erases (splitRange lower upper upperBound : Recorded σ Bytes) (Negentropy.splitRange lower upper upperBound) := by
  unfold splitRange Negentropy.splitRange
  dsimp only
  split
  · exact (erases_encodeBound _).bind fun _ => (erases_quiet _).bind fun _ => .pure _
  · exact erases_splitBuckets _ _ _ _ _ _

theorem erases_finishRange (size : ℕ) (currBound : Bound) (upper : ℕ) (o : Bytes) (st : ReconcileState) :
    Erases (finishRange size currBound upper o st : Recorded σ (ReconcileState × Bool))
      (Negentropy.finishRange size currBound upper o st) := by
  unfold finishRange Negentropy.finishRange
  refine (erases_quiet _).bind fun _ => ?_
  split
  · exact (erases_quiet _).bind fun _ => (erases_encodeBound _).bind fun _ => .pure _
  · exact .pure _

theorem erases_reconcileFingerprint (size : ℕ) (currBound : Bound) (lower upper : ℕ) (st : ReconcileState) :
    Erases (reconcileFingerprint size currBound lower upper st : Recorded σ (ReconcileState × Bool))
      (Negentropy.reconcileFingerprint size currBound lower upper st) := by
  unfold reconcileFingerprint Negentropy.reconcileFingerprint
  refine (erases_quiet _).bind fun _ => (erases_quiet _).bind fun _ => ?_
  dsimp only
  split
  · exact (erases_doSkip _).bind fun _ => (erases_splitRange _ _ _).bind fun _ => erases_finishRange _ _ _ _ _
  · exact erases_finishRange _ _ _ _ _

theorem erases_reconcileIdList (size : ℕ) (currBound : Bound) (lower upper : ℕ) (st : ReconcileState) :
    Erases (reconcileIdList size currBound lower upper st : Recorded σ (ReconcileState × Bool))
      (Negentropy.reconcileIdList size currBound lower upper st) := by
  unfold reconcileIdList Negentropy.reconcileIdList
  refine (erases_quiet _).bind fun _ => (erases_quiet _).bind fun _ => (erases_quiet _).bind fun _ => ?_
  dsimp only
  split
  · exact (erases_quiet _).bind fun _ => erases_finishRange _ _ _ _ _
  · exact (erases_doSkip _).bind fun _ => (erases_quiet _).bind fun _ =>
      (erases_encodeBound _).bind fun _ => erases_finishRange _ _ _ _ _

theorem erases_reconcileRange (size : ℕ) (st : ReconcileState) :
    Erases (reconcileRange size st : Recorded σ (ReconcileState × Bool)) (Negentropy.reconcileRange size st) := by
  unfold reconcileRange Negentropy.reconcileRange
  refine (erases_quiet _).bind fun _ => (erases_quiet _).bind fun mode => (erases_quiet _).bind fun _ => ?_
  dsimp only
  cases Mode.ofU64 mode.1 with
  | none => exact erases_quiet _
  | some m =>
    cases m with
    | skip => exact erases_finishRange _ _ _ _ _
    | fingerprint => exact erases_reconcileFingerprint _ _ _ _ _
    | idList => exact erases_reconcileIdList _ _ _ _ _

theorem erases_reconcileLoop (size rounds : ℕ) (st : ReconcileState) :
    Erases (reconcileLoop size rounds st : Recorded σ ReconcileState) (Negentropy.reconcileLoop size rounds st) := by
  induction rounds generalizing st with
  | zero => exact .pure _
  | succ rounds ih =>
    unfold reconcileLoop Negentropy.reconcileLoop
    split
    · exact .pure _
    · refine (erases_reconcileRange _ _).bind fun _ => ?_
      dsimp only
      split
      · exact .pure _
      · exact ih _

theorem erases_reconcileAux (query : Bytes) :
    Erases (reconcileAux query : Recorded σ (Bytes × List ItemId × List ItemId)) (Negentropy.reconcileAux query) := by
  unfold reconcileAux Negentropy.reconcileAux
  refine (erases_quiet _).bind fun _ => (erases_quiet _).bind fun _ => ?_
  dsimp only
  split
  · exact erases_quiet _
  · split
    · refine (erases_quiet _).bind fun _ => ?_
      split
      · exact erases_quiet _
      · exact .pure _
    · exact (erases_quiet _).bind fun _ => (erases_reconcileLoop _ _ _).bind fun _ => .pure _

theorem erases_reconcile (query : Bytes) :
    Erases (reconcile query : Recorded σ Bytes) (Negentropy.reconcile query) := by
  unfold reconcile Negentropy.reconcile
  refine (erases_quiet _).bind fun _ => ?_
  split
  · exact erases_quiet _
  · exact (erases_reconcileAux _).bind fun _ => .pure _

theorem erases_reconcileHaveNeed (query : Bytes) :
    Erases (reconcileHaveNeed query : Recorded σ (Option Bytes × List ItemId × List ItemId))
      (Negentropy.reconcileHaveNeed query) := by
  unfold reconcileHaveNeed Negentropy.reconcileHaveNeed
  refine (erases_quiet _).bind fun _ => ?_
  split
  · exact erases_quiet _
  · exact (erases_reconcileAux _).bind fun _ => .pure _

/-! ### No call is missing -/

end Recorded

/-- What each call is coded relative to is the timestamp of the call before it, and that of the last one is left. -/
def EncodeCall.Chain : UInt64 → List EncodeCall → UInt64 → Prop
  | first, [], last => last = first
  | first, c :: log, last => c.lastTimestampOut = first ∧ Chain c.timestamp log last

theorem EncodeCall.Chain.append {first mid last : UInt64} {log log' : List EncodeCall} (h : Chain first log mid)
    (h' : Chain mid log' last) : Chain first (log ++ log') last := by
  induction log generalizing first with
  | nil =>
    obtain rfl : mid = first := h
    exact h'
  | cons c log ih => exact ⟨h.1, ih h.2⟩

namespace Recorded

open Negentropy

section
variable {σ : Type}

/-- The log leads from the timestamp that was encoded last to the one that now is. -/
def Leads (s : Negentropy σ) (log : List EncodeCall) (t : Negentropy σ) : Prop :=
  EncodeCall.Chain s.lastTimestampOut log t.lastTimestampOut

/-- Or it leads there from zero. -/
def Starts (_ : Negentropy σ) (log : List EncodeCall) (t : Negentropy σ) : Prop :=
  EncodeCall.Chain 0 log t.lastTimestampOut

theorem Leads.append {s t u : Negentropy σ} {log log' : List EncodeCall} (h : Leads s log t) (h' : Leads t log' u) :
    Leads s (log ++ log') u := EncodeCall.Chain.append h h'

theorem Starts.append {s t u : Negentropy σ} {log log' : List EncodeCall} (h : Starts s log t) (h' : Leads t log' u) :
    Starts s (log ++ log') u := EncodeCall.Chain.append h h'

def Complete {α : Type} (l : Recorded σ α) : Prop := Traces Leads l

theorem complete_pure {α : Type} (a : α) : Complete (pure a : Recorded σ α) := Traces.pure (fun _ => rfl) a

theorem Complete.bind {α β : Type} {l : Recorded σ α} {f : α → Recorded σ β} (hl : Complete l) (hf : ∀ a, Complete (f a)) :
    Complete (l >>= f) := Traces.bind hl hf Leads.append

/-- A method that does not encode a timestamp. -/
def Still {α : Type} (m : Method σ α) : Prop := ∀ o, Guarded (fun ne => ne.lastTimestampOut = o) (fun _ => True) m

theorem Still.complete {α : Type} {m : Method σ α} (h : Still m) : Complete (quiet m) :=
  Traces.lift fun s a t heq => (h _ s rfl).1 a t heq

theorem still_call {α : Type} (x : Except Err α) : Still (call x : Method σ α) := by
  intro o
  cases x with
  | ok a => exact guarded_pure a
  | error e => exact guarded_throw trivial

theorem still_get : Still (get : Method σ (Negentropy σ)) := by
  intro o
  rw [← bind_pure get]
  exact guarded_get fun _ _ => guarded_pure _

theorem still_throw {α : Type} (e : Err) : Still (throw e : Method σ α) := fun _ => guarded_throw trivial

theorem still_decodeBound (encoded : Bytes) : Still (decodeBound encoded : Method σ (Bound × Bytes)) := by
  intro o
  refine Guarded.bind ?_ fun _ => (still_call _ o).bind fun _ => (still_call _ o).bind fun _ => (still_call _ o).bind fun _ =>
    guarded_pure _
  exact (still_call _ o).bind fun _ => guarded_get fun _ _ => Guarded.bind (guarded_modify fun _ h => h) fun _ => guarded_pure _

theorem complete_encodeTimestampOut (timestamp : UInt64) : Complete (encodeTimestampOut timestamp : Recorded σ Bytes) := by
  intro log s a log' t heq
  refine ⟨[⟨timestamp, s.lastTimestampOut⟩], ?_⟩
  have hrun : encodeTimestampOut timestamp log s =
      (Negentropy.encodeTimestampOut timestamp >>= fun a => pure (a, log ++ [⟨timestamp, s.lastTimestampOut⟩])) s := rfl
  rw [hrun] at heq
  obtain ⟨b, u, hencode, hpure⟩ := bind_eq_ok.mp heq
  cases hpure
  refine ⟨rfl, rfl, ?_⟩
  change t.lastTimestampOut = timestamp
  unfold Negentropy.encodeTimestampOut at hencode
  split at hencode
  · next hmax =>
    simp only [bind_eq_ok, modify_eq_ok, pure_eq_ok] at hencode
    obtain ⟨_, _, rfl, -, rfl⟩ := hencode
    exact hmax.symm
  · simp only [bind_eq_ok, get_eq_ok, modify_eq_ok, pure_eq_ok] at hencode
    obtain ⟨_, _, -, _, _, rfl, -, rfl⟩ := hencode
    rfl

theorem complete_encodeBound (bound : Bound) : Complete (encodeBound bound : Recorded σ Bytes) :=
  (complete_encodeTimestampOut _).bind fun _ => complete_pure _

theorem complete_doSkip (st : ReconcileState) : Complete (doSkip st : Recorded σ (ReconcileState × Bytes)) := by
  unfold doSkip
  split
  · exact (complete_encodeBound _).bind fun _ => complete_pure _
  · exact complete_pure _

variable [StorageBase σ]

theorem still_fingerprint (b e : ℕ) : Still (fingerprint b e : Method σ Fingerprint) :=
  fun o => guarded_get fun _ _ => still_call _ o

theorem still_iterate {α : Type} (b e : ℕ) (cb : α → Item → ℕ → α × Bool) (st : α) :
    Still (iterate b e cb st : Method σ α) := fun o => guarded_get fun _ _ => still_call _ o

theorem still_findLowerBound (b e : ℕ) (bound : Bound) : Still (findLowerBound b e bound : Method σ ℕ) :=
  fun o => guarded_get fun _ _ => still_call _ o

theorem still_storageSize : Still (storageSize : Method σ ℕ) := fun o => guarded_get fun _ _ => still_call _ o

theorem complete_splitBuckets (upper : ℕ) (upperBound : Bound) (itemsPerBucket bucketsWithExtra remaining curr : ℕ) :
    Complete (splitBuckets upper upperBound itemsPerBucket bucketsWithExtra remaining curr : Recorded σ Bytes) := by
  induction remaining generalizing curr with
  | zero => exact complete_pure _
  | succ remaining ih =>
    unfold splitBuckets
    dsimp only
    generalize itemsPerBucket + (if buckets - (remaining + 1) < bucketsWithExtra then 1 else 0) = bucketSize
    refine (still_fingerprint _ _).complete.bind fun _ => ?_
    split
    · exact (complete_pure _).bind fun _ => (complete_encodeBound _).bind fun _ => (ih _).bind fun _ => complete_pure _
    · exact (still_iterate _ _ _ _).complete.bind fun _ => (complete_pure _).bind fun _ =>
        (complete_encodeBound _).bind fun _ => (ih _).bind fun _ => complete_pure _

theorem complete_splitRange (lower upper : ℕ) (upperBound : Bound) :
    Complete (splitRange lower upper upperBound : Recorded σ Bytes) := by
  unfold splitRange
  dsimp only
  split
  · exact (complete_encodeBound _).bind fun _ => (still_iterate _ _ _ _).complete.bind fun _ => complete_pure _
  · exact complete_splitBuckets _ _ _ _ _ _

theorem complete_finishRange (size : ℕ) (currBound : Bound) (upper : ℕ) (o : Bytes) (st : ReconcileState) :
    Complete (finishRange size currBound upper o st : Recorded σ (ReconcileState × Bool)) := by
  refine still_get.complete.bind fun _ => ?_
  split
  · exact (still_fingerprint _ _).complete.bind fun _ => (complete_encodeBound _).bind fun _ => complete_pure _
  · exact complete_pure _

theorem complete_reconcileFingerprint (size : ℕ) (currBound : Bound) (lower upper : ℕ) (st : ReconcileState) :
    Complete (reconcileFingerprint size currBound lower upper st : Recorded σ (ReconcileState × Bool)) := by
  refine (still_call _).complete.bind fun _ => (still_fingerprint _ _).complete.bind fun _ => ?_
  dsimp only
  split
  · exact (complete_doSkip _).bind fun _ => (complete_splitRange _ _ _).bind fun _ => complete_finishRange _ _ _ _ _
  · exact complete_finishRange _ _ _ _ _

theorem complete_reconcileIdList (size : ℕ) (currBound : Bound) (lower upper : ℕ) (st : ReconcileState) :
    Complete (reconcileIdList size currBound lower upper st : Recorded σ (ReconcileState × Bool)) := by
  refine (still_call _).complete.bind fun _ => (still_call _).complete.bind fun _ => still_get.complete.bind fun _ => ?_
  dsimp only
  split
  · exact (still_iterate _ _ _ _).complete.bind fun _ => complete_finishRange _ _ _ _ _
  · exact (complete_doSkip _).bind fun _ => (still_iterate _ _ _ _).complete.bind fun _ =>
      (complete_encodeBound _).bind fun _ => complete_finishRange _ _ _ _ _

theorem complete_reconcileRange (size : ℕ) (st : ReconcileState) :
    Complete (reconcileRange size st : Recorded σ (ReconcileState × Bool)) := by
  refine (still_decodeBound _).complete.bind fun _ => (still_call _).complete.bind fun mode =>
    (still_findLowerBound _ _ _).complete.bind fun _ => ?_
  dsimp only
  cases Mode.ofU64 mode.1 with
  | none => exact (still_throw _).complete
  | some m =>
    cases m with
    | skip => exact complete_finishRange _ _ _ _ _
    | fingerprint => exact complete_reconcileFingerprint _ _ _ _ _
    | idList => exact complete_reconcileIdList _ _ _ _ _

theorem complete_reconcileLoop (size rounds : ℕ) (st : ReconcileState) :
    Complete (reconcileLoop size rounds st : Recorded σ ReconcileState) := by
  induction rounds generalizing st with
  | zero => exact complete_pure _
  | succ rounds ih =>
    unfold reconcileLoop
    split
    · exact complete_pure _
    · refine (complete_reconcileRange _ _).bind fun _ => ?_
      dsimp only
      split
      · exact complete_pure _
      · exact ih _

/-- The timestamp that was encoded last is set to zero first. -/
theorem traces_reconcileAux (query : Bytes) :
    Traces Starts (reconcileAux query : Recorded σ (Bytes × List ItemId × List ItemId)) := by
  have hreset : Traces Starts
      (quiet (modify fun ne => { ne with lastTimestampIn := 0, lastTimestampOut := 0 }) : Recorded σ PUnit) := by
    refine Traces.lift fun s a t heq => ?_
    obtain rfl := modify_eq_ok.mp heq
    rfl
  refine Traces.bind (T := Leads) hreset (fun _ => ?_) Starts.append
  refine (still_call (getByte query)).complete.bind fun _ => ?_
  dsimp only
  split
  · exact (still_throw _).complete
  · split
    · refine still_get.complete.bind fun _ => ?_
      split
      · exact (still_throw _).complete
      · exact complete_pure _
    · exact still_storageSize.complete.bind fun _ => (complete_reconcileLoop _ _ _).bind fun _ => complete_pure _

omit [StorageBase σ] in
/-- Throwing an error leaves no log, and any other call is that of `reconcileAux`. -/
theorem traces_role {α : Type} (P : Negentropy σ → Prop) [DecidablePred P] (msg : String) {l : Recorded σ α} (hl : Traces Starts l) :
    Traces Starts (do if P (← quiet get) then quiet (throw (.err msg)) else l : Recorded σ α) := by
  have hget : Traces (fun (s : Negentropy σ) log t => log = [] ∧ t = s) (quiet get) := Traces.lift fun s a t heq =>
    ⟨rfl, (get_eq_ok.mp heq).2.symm⟩
  refine Traces.bind (T := Starts) hget (fun s => ?_) fun hs hchain => ?_
  · split
    · exact Traces.lift fun _ _ _ heq => absurd heq throw_ne_ok
    · exact hl
  · obtain ⟨rfl, rfl⟩ := hs
    exact hchain

/-- The log begins at zero and leads to the timestamp that was encoded last: there was no other call that encoded one that
differs from the one before. -/
theorem reconcile_chain {query : Bytes} {ne ne' : Negentropy σ} {log : List EncodeCall} :
    (∀ out, reconcile query [] ne = .ok (out, log) ne' → EncodeCall.Chain 0 log ne'.lastTimestampOut) ∧
      ∀ out, reconcileHaveNeed query [] ne = .ok (out, log) ne' → EncodeCall.Chain 0 log ne'.lastTimestampOut := by
  have haux {α : Type} (f : Bytes × List ItemId × List ItemId → α) :
      Traces Starts (reconcileAux query >>= fun r => pure (f r) : Recorded σ α) :=
    Traces.bind (traces_reconcileAux query) (fun _ => complete_pure _) Starts.append
  constructor
  · intro out h
    obtain ⟨entries, rfl, hchain⟩ := traces_role (fun ne => ne.isInitiator = true) _ (haux _) _ _ _ _ _ h
    exact hchain
  · intro out h
    obtain ⟨entries, rfl, hchain⟩ := traces_role (fun ne => ¬ ne.isInitiator = true) _ (haux _) _ _ _ _ _ h
    exact hchain

end

/-! ### No difference is negative -/

end Recorded

/-- Infinity is coded as it is. Any other timestamp is at or after the last one, and the difference and one
more is a 64-bit number. -/
def EncodeCall.NoWrap (c : EncodeCall) : Prop :=
  c.timestamp ≠ MAX_U64 → c.lastTimestampOut ≤ c.timestamp ∧ c.timestamp.toNat - c.lastTimestampOut.toNat + 1 < 2 ^ 64

theorem EncodeCall.noWrap {timestamp last : UInt64} (h : timestamp ≠ MAX_U64 → last ≤ timestamp) :
    EncodeCall.NoWrap ⟨timestamp, last⟩ := by
  intro hne
  refine ⟨h hne, ?_⟩
  have hlt := timestamp.toNat_lt
  have hmax : timestamp.toNat ≠ 2 ^ 64 - 1 := fun heq => hne (UInt64.toNat_inj.mp heq)
  dsimp only
  omega

namespace Recorded

open Negentropy

section
variable {σ : Type} (ne : Negentropy σ)

theorem records_encodeBound (i : UInt64) {o : UInt64} {b : Bound} (h : b.item.timestamp ≠ MAX_U64 → o ≤ b.item.timestamp) :
    Records EncodeCall.NoWrap (encodeBound b) (ne.at i o) (fun _ t => t = ne.at i b.item.timestamp) := by
  unfold encodeBound encodeTimestampOut
  refine Records.bind (P := fun _ t => t = ne.at i b.item.timestamp) ?_ fun _ _ ht => .pure ht
  refine Records.bind (P := fun a t => a = ne.at i o ∧ t = ne.at i o) (.lift fun a t heq => ?_) ?_
  · obtain ⟨rfl, rfl⟩ := get_eq_ok.mp heq
    exact ⟨rfl, rfl⟩
  · rintro _ _ ⟨rfl, rfl⟩
    refine Records.bind (P := fun _ t => t = ne.at i o) (.record (EncodeCall.noWrap h) rfl) ?_
    rintro _ _ rfl
    refine .lift fun a t heq => ?_
    have henc := encodeBound_eq ne i o b
    rw [Negentropy.encodeBound, bind_of_ok heq] at henc
    exact (EStateM.Result.ok.inj henc).2

theorem records_doSkip (i : UInt64) {o : UInt64} {st : ReconcileState} (h : o ≤ st.prevBound.item.timestamp) :
    Records EncodeCall.NoWrap (doSkip st) (ne.at i o) (fun r t => r.1 = { st with skip := false } ∧
      ∃ o', t = ne.at i o' ∧ o' ≤ st.prevBound.item.timestamp) := by
  unfold doSkip
  split
  · refine (records_encodeBound ne i fun _ => h).bind fun _ t ht => .pure ⟨rfl, _, ht, UInt64.le_refl _⟩
  · next hskip =>
    have hfalse : st.skip = false := by simpa using hskip
    exact .pure ⟨by rw [← hfalse], o, rfl, h⟩

variable [StorageBase σ] {items : List Item} {fp : ℕ → ℕ → Fingerprint}

/-- The timestamp of the item at a position. -/
def tsAt (items : List Item) (j : ℕ) : UInt64 := (items.getD j {}).timestamp

omit [StorageBase σ] in
theorem tsAt_mono (hsorted : items.Pairwise (· < ·)) {j k : ℕ} (hjk : j ≤ k) (hk : k < items.length) :
    tsAt items j ≤ tsAt items k := by
  have hj : j < items.length := by omega
  simp only [tsAt, List.getD_eq_getElem?_getD, List.getElem?_eq_getElem hj, List.getElem?_eq_getElem hk, Option.getD_some]
  rcases hjk.lt_or_eq with hlt | rfl
  · exact Item.timestamp_le (List.pairwise_iff_getElem.mp hsorted _ _ hj hk hlt).le
  · exact UInt64.le_refl _

theorem minimalBound_timestamp (prev curr : Item) : (getMinimalBound prev curr).item.timestamp = curr.timestamp := by
  unfold getMinimalBound
  split <;> rfl

omit [StorageBase σ] in
theorem records_get (s : Negentropy σ) :
    Records EncodeCall.NoWrap (quiet get) s (fun a t => a = s ∧ t = s) :=
  .lift fun a t heq => by
    obtain ⟨rfl, rfl⟩ := get_eq_ok.mp heq
    exact ⟨rfl, rfl⟩

omit [StorageBase σ] in
theorem records_call {α : Type} (x : Except Err α) (s : Negentropy σ) :
    Records EncodeCall.NoWrap (quiet (call x)) s (fun a t => x = .ok a ∧ t = s) :=
  .lift fun a t heq => by
    obtain ⟨hx, rfl⟩ := call_eq_ok.mp heq
    exact ⟨hx, rfl⟩

theorem records_fingerprint (b e : ℕ) (s : Negentropy σ) :
    Records EncodeCall.NoWrap (quiet (fingerprint b e)) s (fun _ t => t = s) :=
  .lift fun _ _ heq => fingerprint_ok heq

theorem records_iterate (hs : Reads ne.storage items fp) (b e : ℕ) {α : Type} (cb : α → Item → ℕ → α × Bool) (st : α)
    (i o : UInt64) :
    Records EncodeCall.NoWrap (quiet (iterate b e cb st)) (ne.at i o) (fun a t => t = ne.at i o ∧ b ≤ e ∧
      e ≤ items.length ∧ a = iterateItems cb (slice items b e) b st) :=
  .lift fun _ _ heq => iterate_ok (show Reads (ne.at i o).storage items fp from hs) heq

/-- The bounds of the buckets are timestamps of the items, in order. -/
theorem records_splitBuckets (hs : Reads ne.storage items fp) (hsorted : items.Pairwise (· < ·)) {upper : ℕ}
    (hu : upper ≤ items.length) {upperBound : Bound} {itemsPerBucket bucketsWithExtra : ℕ} (hpos : 0 < itemsPerBucket)
    (hextra : bucketsWithExtra ≤ buckets) (i : UInt64) :
    ∀ (remaining curr : ℕ) (o : UInt64), remaining + 1 ≤ buckets →
      curr + (remaining + 1) * itemsPerBucket + (bucketsWithExtra - (buckets - (remaining + 1))) = upper →
      o ≤ upperBound.item.timestamp →
      (∀ j, curr ≤ j → j < upper → o ≤ tsAt items j ∧ tsAt items j ≤ upperBound.item.timestamp) →
      Records EncodeCall.NoWrap
        (splitBuckets upper upperBound itemsPerBucket bucketsWithExtra (remaining + 1) curr) (ne.at i o)
        (fun _ t => t = ne.at i upperBound.item.timestamp) := by
  intro remaining
  induction remaining with
  | zero =>
    intro curr o hr hsum ho hwin
    have hlast : curr + (itemsPerBucket + if buckets - (0 + 1) < bucketsWithExtra then 1 else 0) = upper := by
      split <;> omega
    rw [splitBuckets]
    simp only [hlast, if_true]
    refine (records_fingerprint _ _ _).bind fun _ _ ht => ?_
    subst ht
    refine Records.bind (P := fun b t => b = upperBound ∧ t = ne.at i o) (.pure ⟨rfl, rfl⟩) fun b t hbt => ?_
    obtain ⟨rfl, rfl⟩ := hbt
    refine (records_encodeBound ne i fun _ => ho).bind fun _ t ht => ?_
    subst ht
    exact Records.bind (P := fun _ t => t = ne.at i _) (.pure rfl) fun _ _ ht => .pure ht
  | succ remaining ih =>
    intro curr o hr hsum ho hwin
    have hnext := Party.bucket_step hr hsum
    simp only at hnext
    rw [splitBuckets]
    set next := curr + (itemsPerBucket + if buckets - (remaining + 1 + 1) < bucketsWithExtra then 1 else 0) with hdef
    have hcurr : curr < next := by omega
    have hlt : next < upper := by
      have : 0 < (remaining + 1) * itemsPerBucket := Nat.mul_pos (Nat.succ_pos _) hpos
      omega
    simp only [hlt.ne, if_false]
    refine (records_fingerprint _ _ _).bind fun _ _ ht => ?_
    subst ht
    refine (records_iterate ne hs _ _ _ _ i o).bind fun p t hp => ?_
    obtain ⟨rfl, -, -, rfl⟩ := hp
    rw [iterateItems_pair (by omega) (by omega)]
    have hb := minimalBound_timestamp (items.getD (next - 1) {}) (items.getD next {})
    refine Records.bind (P := fun b t => b.item.timestamp = tsAt items next ∧ t = ne.at i o) (.pure ⟨hb, rfl⟩)
      fun b t hbt => ?_
    obtain ⟨hb, rfl⟩ := hbt
    have hwin' := hwin next hcurr.le hlt
    refine (records_encodeBound ne i fun _ => hb ▸ hwin'.1).bind fun _ t ht => ?_
    subst ht
    rw [hb]
    refine (ih next _ (by omega) hnext hwin'.2 fun j hj hju => ⟨?_, (hwin j (by omega) hju).2⟩).bind fun _ _ ht => .pure ht
    exact tsAt_mono hsorted hj (by omega)

theorem records_splitRange (hs : Reads ne.storage items fp) (hsorted : items.Pairwise (· < ·)) {lower upper : ℕ}
    (hu : upper ≤ items.length) {upperBound : Bound} (i : UInt64) {o : UInt64} (ho : o ≤ upperBound.item.timestamp)
    (hwin : ∀ j, lower ≤ j → j < upper → o ≤ tsAt items j ∧ tsAt items j ≤ upperBound.item.timestamp) :
    Records EncodeCall.NoWrap (splitRange lower upper upperBound) (ne.at i o)
      (fun _ t => t = ne.at i upperBound.item.timestamp) := by
  unfold splitRange
  dsimp only
  split
  · refine (records_encodeBound ne i fun _ => ho).bind fun _ t ht => ?_
    subst ht
    exact (records_iterate ne hs _ _ _ _ i _).bind fun _ _ ht => .pure ht.1
  · next hn =>
    have hdiv := Nat.div_add_mod (upper - lower) buckets
    have hmul : buckets * ((upper - lower) / buckets) = 16 * ((upper - lower) / buckets) := rfl
    have hpos : 0 < (upper - lower) / buckets := Nat.div_pos (by omega) (by decide)
    have hrest : buckets - (15 + 1) = 0 := rfl
    have hmod := Nat.mod_lt (upper - lower) (show 0 < buckets by decide)
    exact records_splitBuckets ne hs hsorted hu hpos hmod.le i 15 lower o le_rfl (by omega) ho hwin

theorem records_finishRange (size : ℕ) (currBound : Bound) (upper : ℕ) (bytes : Bytes) (st : ReconcileState) (i o : UInt64) :
    Records EncodeCall.NoWrap (finishRange size currBound upper bytes st) (ne.at i o) (fun r t => r.2 = false →
      ne.exceededFrameSizeLimit (st.fullOutput.length + bytes.length) = false ∧
        r.1.prevBound = currBound ∧ r.1.prevIndex = upper ∧ t = ne.at i o) := by
  unfold finishRange
  refine (records_get _).bind fun a t hat => ?_
  obtain ⟨rfl, rfl⟩ := hat
  split
  · refine (records_fingerprint _ _ _).bind fun _ t ht => ?_
    subst ht
    refine (records_encodeBound ne i fun h => absurd rfl h).bind fun _ _ _ => .pure fun h => ?_
    cases h
  · next hex => exact .pure fun _ => ⟨Bool.not_eq_true _ ▸ hex, rfl, rfl, rfl⟩

omit [StorageBase σ] in
/-- The other party's ids: all of them, or those up to an item at which the limit is exceeded. -/
theorem respondIds_end (fullOutput : Bytes) (own : List Item) (b : ℕ) (r : Response) :
    let r' := iterateItems (respondIds ne fullOutput) own b r
    (r'.endBound = r.endBound ∧ r'.upper = r.upper) ∨
      ∃ k, k < own.length ∧ r'.endBound = Bound.ofItem (own.getD k {}) ∧ r'.upper = b + k ∧
        ne.exceededFrameSizeLimit (fullOutput.length + r'.responseIds.length) = true := by
  induction own generalizing b r with
  | nil => exact .inl ⟨rfl, rfl⟩
  | cons x own ih =>
    intro r'
    cases hex : ne.exceededFrameSizeLimit (fullOutput.length + r.responseIds.length) with
    | true =>
      have hr' : r' = { r with endBound := Bound.ofItem x, upper := b } := by
        simp only [r', iterateItems, respondIds, hex, if_true]
      rw [hr']
      exact .inr ⟨0, Nat.succ_pos _, rfl, rfl, hex⟩
    | false =>
      have hr' : r' = iterateItems (respondIds ne fullOutput) own (b + 1)
          { r with responseIds := r.responseIds ++ x.id.bytes, numResponseIds := r.numResponseIds + 1 } := by
        simp only [r', iterateItems, respondIds, hex, Bool.false_eq_true, if_false]
      rw [hr']
      rcases ih (b + 1) { r with responseIds := r.responseIds ++ x.id.bytes, numResponseIds := r.numResponseIds + 1 }
        with h | ⟨k, hk, hend, hupper, hexc⟩
      · exact .inl h
      · exact .inr ⟨k + 1, Nat.succ_lt_succ hk, hend, by omega, hexc⟩

/-- Between two iterations: the last timestamp that was coded is not behind the last bound that was read, and
neither is any item from the current position on. -/
structure UpTo (ne : Negentropy σ) (items : List Item) (st : ReconcileState) (t : Negentropy σ) : Prop where
  at_bound : ∃ o, t = ne.at st.prevBound.item.timestamp o ∧ o ≤ st.prevBound.item.timestamp
  index_le : st.prevIndex ≤ items.length
  items_ge : ∀ j, st.prevIndex ≤ j → j < items.length → st.prevBound.item.timestamp ≤ tsAt items j

/-- Where the search for a bound has ended: the timestamps on both sides of it. -/
structure Found (items : List Item) (lower upper : ℕ) (bound : Bound) : Prop where
  le : lower ≤ upper
  le_length : upper ≤ items.length
  below : ∀ j, lower ≤ j → j < upper → tsAt items j ≤ bound.item.timestamp
  above : ∀ j, upper ≤ j → j < items.length → bound.item.timestamp ≤ tsAt items j

variable {st : ReconcileState} {currBound : Bound} {upper : ℕ}

/-- An iteration that goes on has come up to the bound it has read. -/
theorem upTo_finishRange (hfound : Found items st.prevIndex upper currBound) (bytes : Bytes) {st' : ReconcileState}
    {o : UInt64} (ho : o ≤ currBound.item.timestamp) :
    Records EncodeCall.NoWrap (finishRange items.length currBound upper bytes st') (ne.at currBound.item.timestamp o)
      (fun r t => r.2 = false → UpTo ne items r.1 t) := by
  refine (records_finishRange ne _ _ _ _ _ _ _).mono fun r t h hgo => ?_
  obtain ⟨-, hbound, hindex, rfl⟩ := h hgo
  refine ⟨⟨o, by rw [hbound], by rw [hbound]; exact ho⟩, by rw [hindex]; exact hfound.le_length, fun j hj hlt => ?_⟩
  rw [hbound]
  exact hfound.above j (hindex ▸ hj) hlt

variable (hs : Reads ne.storage items fp) (hsorted : items.Pairwise (· < ·)) (hfound : Found items st.prevIndex upper currBound)
  (hge : ∀ j, st.prevIndex ≤ j → j < items.length → st.prevBound.item.timestamp ≤ tsAt items j)
  (hle : st.prevBound.item.timestamp ≤ currBound.item.timestamp)
include hs hsorted hfound hge hle

theorem records_reconcileFingerprint {o : UInt64} (ho : o ≤ st.prevBound.item.timestamp) :
    Records EncodeCall.NoWrap (reconcileFingerprint items.length currBound st.prevIndex upper st)
      (ne.at currBound.item.timestamp o) (fun r t => r.2 = false → UpTo ne items r.1 t) := by
  unfold reconcileFingerprint
  refine (records_call _ _).bind fun a t hat => ?_
  obtain ⟨-, rfl⟩ := hat
  refine (records_fingerprint _ _ _).bind fun _ t ht => ?_
  subst ht
  dsimp only
  split
  · refine (@records_doSkip _ ne currBound.item.timestamp o { st with query := a.2 } ho).bind fun r t hr => ?_
    obtain ⟨-, o', rfl, ho'⟩ := hr
    have hwin : ∀ j, st.prevIndex ≤ j → j < upper → o' ≤ tsAt items j ∧ tsAt items j ≤ currBound.item.timestamp :=
      fun j hj hju => ⟨UInt64.le_trans ho' (hge j hj (hju.trans_le hfound.le_length)), hfound.below j hj hju⟩
    refine (records_splitRange ne hs hsorted hfound.le_length _ (UInt64.le_trans ho' hle) hwin).bind fun _ t ht => ?_
    subst ht
    exact upTo_finishRange ne hfound _ (UInt64.le_refl _)
  · exact upTo_finishRange ne hfound _ (UInt64.le_trans ho hle)

omit hsorted in
theorem records_reconcileIdList {o : UInt64} (ho : o ≤ st.prevBound.item.timestamp) :
    Records EncodeCall.NoWrap (reconcileIdList items.length currBound st.prevIndex upper st)
      (ne.at currBound.item.timestamp o) (fun r t => r.2 = false → UpTo ne items r.1 t) := by
  unfold reconcileIdList
  refine (records_call _ _).bind fun _ t hat => ?_
  obtain ⟨-, rfl⟩ := hat
  refine (records_call _ _).bind fun ids t hat => ?_
  obtain ⟨-, rfl⟩ := hat
  refine (records_get _).bind fun a t hat => ?_
  obtain ⟨rfl, rfl⟩ := hat
  dsimp only
  split
  · refine (records_iterate ne hs _ _ _ _ _ _).bind fun _ t ht => ?_
    obtain ⟨rfl, -⟩ := ht
    exact upTo_finishRange ne hfound _ (UInt64.le_trans ho hle)
  · refine (@records_doSkip _ ne currBound.item.timestamp o { st with query := ids.2 } ho).bind fun r t hr => ?_
    obtain ⟨-, o', rfl, ho'⟩ := hr
    refine (records_iterate ne hs _ _ _ _ _ _).bind fun resp t ht => ?_
    obtain ⟨rfl, -, -, hresp⟩ := ht
    have hend := respondIds_end (ne.at currBound.item.timestamp o) r.1.fullOutput (slice items st.prevIndex upper)
      st.prevIndex { endBound := currBound, upper }
    rw [← hresp] at hend
    rcases hend with ⟨hbound, hupper⟩ | ⟨k, hk, hbound, hupper, hexc⟩
    · -- all ids have been sent
      dsimp only at hbound hupper
      rw [hbound, hupper]
      refine (records_encodeBound ne _ fun _ => UInt64.le_trans ho' hle).bind fun _ t ht => ?_
      subst ht
      exact upTo_finishRange ne hfound _ (UInt64.le_refl _)
    · -- the reply is cut at an item, so that this is the last iteration
      have hlen := slice_length items hfound.le_length (b := st.prevIndex)
      have hts : resp.endBound.item.timestamp = tsAt items (st.prevIndex + k) := by
        rw [hbound, getD_slice items (by omega)]
        rfl
      have hge' := hge (st.prevIndex + k) (by omega) (by have := hfound.le_length; omega)
      refine (records_encodeBound ne _ fun _ => by rw [hts]; exact UInt64.le_trans ho' hge').bind fun _ t ht => ?_
      subst ht
      refine (records_finishRange ne _ _ _ _ _ _ _).mono fun r' t h hgo => ?_
      have hfits := (h hgo).1
      refine absurd (hfits.symm.trans (@Party.exceeded_mono (ne.party []) _ _ ?_ hexc)) Bool.false_ne_true
      simp only [List.length_append, List.length_nil]
      omega

end

section
variable {σ : Type} [StorageBase σ] (ne : Negentropy σ) {items : List Item} {fp : ℕ → ℕ → Fingerprint}
  (hs : Reads ne.storage items fp) (hsorted : items.Pairwise (· < ·))
  (hfind : ∀ lower ≤ items.length, ∀ bound, ∃ upper,
    StorageBase.findLowerBound ne.storage lower items.length bound = .ok upper ∧ Found items lower upper bound)
include hs hsorted hfind

/-- One iteration. -/
theorem records_reconcileRange {st : ReconcileState} {s : Negentropy σ} (h : UpTo ne items st s) :
    Records EncodeCall.NoWrap (reconcileRange items.length st) s (fun r t => r.2 = false → UpTo ne items r.1 t) := by
  obtain ⟨⟨o, rfl, ho⟩, hindex, hge⟩ := h
  unfold reconcileRange
  refine Records.bind (P := fun a t => st.prevBound.item.timestamp ≤ a.1.item.timestamp ∧ t = ne.at a.1.item.timestamp o)
    (.lift fun a t heq => ?_) fun a t hat => ?_
  · obtain ⟨hread, rfl⟩ := decodeBound_eq_ok.mp heq
    exact ⟨readBound_mono hread, rfl⟩
  obtain ⟨hle, rfl⟩ := hat
  refine (records_call _ _).bind fun mode t hat => ?_
  obtain ⟨-, rfl⟩ := hat
  obtain ⟨upper, hupper, hfound⟩ := hfind st.prevIndex hindex a.1
  refine Records.bind (P := fun u t => u = upper ∧ t = ne.at a.1.item.timestamp o) (.lift fun u t heq => ?_) fun u t hut => ?_
  · simp only [Negentropy.findLowerBound, bind_eq_ok, get_eq_ok, call_eq_ok] at heq
    obtain ⟨_, _, ⟨rfl, rfl⟩, hfound', rfl⟩ := heq
    exact ⟨Except.ok.inj (hfound'.symm.trans hupper), rfl⟩
  obtain ⟨rfl, rfl⟩ := hut
  dsimp only
  cases Mode.ofU64 mode.1 with
  | none => exact .lift fun _ _ heq => absurd heq throw_ne_ok
  | some m =>
    cases m with
    | skip => exact upTo_finishRange ne hfound _ (UInt64.le_trans ho hle)
    | fingerprint =>
      exact @records_reconcileFingerprint _ ne _ _ _ { st with query := mode.2 } _ _ hs hsorted hfound hge hle o ho
    | idList =>
      exact @records_reconcileIdList _ ne _ _ _ { st with query := mode.2 } _ _ hs hfound hge hle o ho

/-- The loop. -/
theorem records_reconcileLoop (rounds : ℕ) {st : ReconcileState} {s : Negentropy σ} (h : UpTo ne items st s) :
    Records EncodeCall.NoWrap (reconcileLoop items.length rounds st) s (fun _ _ => True) := by
  induction rounds generalizing st s with
  | zero => exact .pure trivial
  | succ rounds ih =>
    unfold reconcileLoop
    split
    · exact .pure trivial
    · refine (records_reconcileRange ne hs hsorted hfind h).bind fun r t hr => ?_
      dsimp only
      split
      · exact .pure trivial
      · next hgo => exact ih (hr (by simpa using hgo))

theorem records_reconcileAux (query : Bytes) :
    Records EncodeCall.NoWrap (reconcileAux query) ne (fun _ _ => True) := by
  unfold reconcileAux
  refine Records.bind (P := fun _ t => t = ne.at 0 0) (.lift fun _ t heq => (modify_eq_ok.mp heq).symm) fun _ t ht => ?_
  subst ht
  refine (records_call _ _).bind fun a t hat => ?_
  obtain ⟨-, rfl⟩ := hat
  dsimp only
  split
  · exact .lift fun _ _ _ => trivial
  · split
    · refine (records_get _).bind fun _ _ _ => ?_
      split
      · exact .lift fun _ _ _ => trivial
      · exact .pure trivial
    · refine Records.bind (P := fun size t => size = items.length ∧ t = ne.at 0 0) (.lift fun size t heq => ?_)
        fun size t hst => ?_
      · rw [storageSize_eq hs] at heq
        cases heq
        exact ⟨rfl, rfl⟩
      · obtain ⟨rfl, rfl⟩ := hst
        refine (records_reconcileLoop ne hs hsorted hfind _ ?_).bind fun _ _ _ => .pure trivial
        exact ⟨⟨0, rfl, UInt64.le_refl 0⟩, Nat.zero_le _, fun _ _ _ => UInt64.zero_le⟩

end

end Recorded

open Storage

/-- A vector's search stops between smaller and larger timestamps, also if it starts behind the bound. -/
theorem Storage.Vector.found {v : Vector} (hv : v.isSealed = true) (hsorted : v.items.Pairwise (· < ·)) {lower : ℕ}
    (hl : lower ≤ v.items.length) (bound : Bound) : ∃ upper, v.findLowerBound lower v.items.length bound = .ok upper ∧
      Recorded.Found v.items lower upper bound := by
  have hle := lowerBound_le_length v.items bound.item
  have hts : ∀ j (hj : j < v.items.length), Recorded.tsAt v.items j = v.items[j].timestamp := fun j hj => by
    simp [Recorded.tsAt, List.getD_eq_getElem?_getD, hj]
  refine ⟨_, Vector.findLowerBound_eq hv hsorted hl le_rfl bound, ⟨le_max_left _ _, by omega, fun j hj hju => ?_,
    fun j hj hlt => ?_⟩⟩
  · have hlt : j < v.items.length := by omega
    rw [hts j hlt]
    exact Item.timestamp_le ((lt_lowerBound_iff hsorted hlt).mp (by omega)).le
  · rw [hts j hlt]
    exact Item.timestamp_le ((lowerBound_le_iff hsorted hlt).mp (by omega))

/-- In a call that is accepted, every finite timestamp is coded relative to one at or before it. -/
theorem deltas_never_wrap [Sha256] (ne : Negentropy Vector) {s : Finset Item} (hv : ne.storage.Holds s)
    (hcard : s.card < 2 ^ 64) (query : Bytes) :
    (∀ out ne', Negentropy.reconcile query ne = .ok out ne' →
      ∃ log, Recorded.reconcile query [] ne = .ok (out, log) ne' ∧ ∀ c ∈ log, c.NoWrap) ∧
    ∀ out ne', Negentropy.reconcileHaveNeed query ne = .ok out ne' →
      ∃ log, Recorded.reconcileHaveNeed query [] ne = .ok (out, log) ne' ∧ ∀ c ∈ log, c.NoWrap := by
  have hlen : ne.storage.items.length < 2 ^ 64 := by rwa [length_eq hv.sorted hv.toFinset]
  have haux := Recorded.records_reconcileAux ne (Vector.reads hv.isSealed hlen) hv.sorted
    (fun lower hl bound => Vector.found hv.isSealed hv.sorted hl bound) query
  constructor
  · intro out ne' h
    obtain ⟨log, hlog⟩ := (Recorded.erases_reconcile query).exists_log h []
    refine ⟨log, hlog, ?_⟩
    have hrec : Records EncodeCall.NoWrap (Recorded.reconcile query) ne (fun _ _ => True) := by
      unfold Recorded.reconcile
      refine (Recorded.records_get ne).bind fun a t hat => ?_
      obtain ⟨rfl, rfl⟩ := hat
      split
      · exact .lift fun _ _ _ => trivial
      · exact haux.bind fun _ _ _ => .pure trivial
    exact (hrec [] (by simp) _ _ _ hlog).1
  · intro out ne' h
    obtain ⟨log, hlog⟩ := (Recorded.erases_reconcileHaveNeed query).exists_log h []
    refine ⟨log, hlog, ?_⟩
    have hrec : Records EncodeCall.NoWrap (Recorded.reconcileHaveNeed query) ne (fun _ _ => True) := by
      unfold Recorded.reconcileHaveNeed
      refine (Recorded.records_get ne).bind fun a t hat => ?_
      obtain ⟨rfl, rfl⟩ := hat
      split
      · exact .lift fun _ _ _ => trivial
      · exact haux.bind fun _ _ _ => .pure trivial
    exact (hrec [] (by simp) _ _ _ hlog).1

section

local instance deltasSha256 : Sha256 := SHA256.real

/-- Items at 32 timestamps. -/
def spreadServer : Negentropy Vector where
  storage := ⟨(List.range 32).map fun t => sampleItem (t + 1) 0, true⟩
  frameSizeLimit := 0
  limit_ok := limit_ok_none

/-- No ids before timestamp 1, and a fingerprint of the rest that is not the server's. -/
def spreadQuery : Bytes := PROTOCOL_VERSION :: [2, 0, 2, 0, 0, 0, 1] ++ wrongFingerprint.buf

/-- The timestamps that a call encodes. -/
def encoded {α : Type} : EStateM.Result Err (Negentropy Vector) (α × List EncodeCall) → Option (List UInt64)
  | .ok r _ => some (r.2.map EncodeCall.timestamp)
  | .error _ _ => none

/-- The reply has the bound of the query, the bounds of a split, and infinity. -/
theorem deltas_never_wrap_spread :
    ∃ out log ne', Recorded.reconcile spreadQuery [] spreadServer = .ok (out, log) ne' ∧ (∀ c ∈ log, c.NoWrap) ∧
      log.map EncodeCall.timestamp = [1, 3, 5, 7, 9, 11, 13, 15, 17, 19, 21, 23, 25, 27, 29, 31, MAX_U64] := by
  have hencoded : encoded (Recorded.reconcile spreadQuery [] spreadServer) =
      some [1, 3, 5, 7, 9, 11, 13, 15, 17, 19, 21, 23, 25, 27, 29, 31, MAX_U64] := by decide +kernel
  cases hrun : Recorded.reconcile spreadQuery [] spreadServer with
  | error e ne' =>
    rw [hrun] at hencoded
    cases hencoded
  | ok r ne' =>
    rw [hrun] at hencoded
    obtain ⟨out, log⟩ := r
    have hreal : Negentropy.reconcile spreadQuery spreadServer = .ok out ne' := by
      rw [← Recorded.erases_reconcile spreadQuery []]
      change EStateM.map Prod.fst (Recorded.reconcile spreadQuery []) spreadServer = _
      rw [EStateM.map, hrun]
    obtain ⟨log', hlog', hwrap⟩ := (deltas_never_wrap spreadServer ⟨rfl, by decide +kernel, rfl⟩ (by decide +kernel)
      spreadQuery).1 out ne' hreal
    rw [hrun] at hlog'
    obtain rfl : log = log' := congrArg Prod.snd (EStateM.Result.ok.inj hlog').1
    exact ⟨out, log, ne', rfl, hwrap, Option.some.inj hencoded⟩

end

end NE
