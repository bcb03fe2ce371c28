import Negentropy.Storage.Base

/-! `negentropy.h`: one party of the protocol. A method runs on the object's state and
either returns or throws; the state it leaves behind survives the exception. Strings
of 32 bytes are `ItemId`s, and the `std::unordered_set` of ids is a list without
repetition in the order of insertion. -/

namespace NE

def PROTOCOL_VERSION : UInt8 := 0x61

/-- A constructed object: `frameSizeLimit` has passed the constructor's check and is never
assigned again. -/
structure Negentropy (σ : Type) where
  storage : σ
  frameSizeLimit : ℕ
  limit_ok : frameSizeLimit = 0 ∨ 4096 ≤ frameSizeLimit
  isInitiator : Bool := false
  lastTimestampIn : UInt64 := 0
  lastTimestampOut : UInt64 := 0

abbrev Method (σ α : Type) := EStateM Err (Negentropy σ) α

/-- A call of a function that does not touch the object. -/
def call {σ α : Type} : Except Err α → Method σ α
  | .ok a => pure a
  | .error e => throw e

namespace Negentropy

variable {σ : Type}

/-- The constructor. -/
def make (storage : σ) (frameSizeLimit : ℕ) : Except Err (Negentropy σ) :=
  if h : frameSizeLimit = 0 ∨ 4096 ≤ frameSizeLimit then
    .ok { storage, frameSizeLimit, limit_ok := h }
  else .error (.err "frameSizeLimit too small")

def exceededFrameSizeLimit (ne : Negentropy σ) (n : ℕ) : Bool :=
  ne.frameSizeLimit != 0 && decide (n > ne.frameSizeLimit - 200)

/-! ### Decoding -/

def decodeTimestampIn (encoded : Bytes) : Method σ (UInt64 × Bytes) := do
  let (timestamp, encoded) ← call (decodeVarInt encoded)
  let timestamp := if timestamp = 0 then MAX_U64 else timestamp - 1
  let last := (← get).lastTimestampIn
  let timestamp := timestamp + last
  let timestamp := if timestamp < last then MAX_U64 else timestamp -- saturate
  modify fun ne => { ne with lastTimestampIn := timestamp }
  return (timestamp, encoded)

def decodeBound (encoded : Bytes) : Method σ (Bound × Bytes) := do
  let (timestamp, encoded) ← decodeTimestampIn encoded
  let (len, encoded) ← call (decodeVarInt encoded)
  let (id, encoded) ← call (getBytes encoded len.toNat)
  let bound ← call (Bound.make timestamp id)
  return (bound, encoded)

/-- `getBytes(query, ID_SIZE)`. -/
def getId (encoded : Bytes) : Except Err (ItemId × Bytes) :=
  if h : encoded.length < ID_SIZE then .error (.err "parse ends prematurely")
  else .ok (⟨encoded.take ID_SIZE, by simp; omega⟩, encoded.drop ID_SIZE)

/-- The loop that reads the payload of an `IdList`. -/
def getIds : ℕ → Bytes → Except Err (List ItemId × Bytes)
  | 0, encoded => .ok ([], encoded)
  | n + 1, encoded => do
      let (e, encoded) ← getId encoded
      let (es, encoded) ← getIds n encoded
      return (e :: es, encoded)

/-! ### Encoding -/

def encodeTimestampOut (timestamp : UInt64) : Method σ Bytes := do
  if timestamp = MAX_U64 then
    modify fun ne => { ne with lastTimestampOut := MAX_U64 }
    return encodeVarInt 0
  else
    let last := (← get).lastTimestampOut
    modify fun ne => { ne with lastTimestampOut := timestamp }
    return encodeVarInt (timestamp - last + 1)

def encodeBound (bound : Bound) : Method σ Bytes := do
  let timestamp ← encodeTimestampOut bound.item.timestamp
  return timestamp ++ encodeVarInt (UInt64.ofNat bound.idLen) ++ bound.idPrefix

/-- The number of leading bytes two ids share. -/
def sharedPrefixBytes : Bytes → Bytes → ℕ
  | a :: currKey, b :: prevKey => if a = b then sharedPrefixBytes currKey prevKey + 1 else 0
  | _, _ => 0

def getMinimalBound (prev curr : Item) : Bound :=
  if curr.timestamp ≠ prev.timestamp then Bound.ofTimestamp curr.timestamp
  else
    Bound.ofPrefix curr.timestamp
      (curr.id.bytes.take (sharedPrefixBytes curr.id.bytes prev.id.bytes + 1))
      ((List.length_take_le' _ _).trans_eq curr.id.length_eq)

/-! ### Splitting -/

variable [StorageBase σ]

def storageSize : Method σ ℕ := do call (StorageBase.size (← get).storage)

def findLowerBound (begin_ end_ : ℕ) (bound : Bound) : Method σ ℕ := do
  call (StorageBase.findLowerBound (← get).storage begin_ end_ bound)

def fingerprint (begin_ end_ : ℕ) : Method σ Fingerprint := do
  call (StorageBase.fingerprint (← get).storage begin_ end_)

def iterate {α : Type} (begin_ end_ : ℕ) (cb : α → Item → ℕ → α × Bool) (st : α) : Method σ α := do
  call (StorageBase.iterate (← get).storage begin_ end_ cb st)

def buckets : ℕ := 16

/-- The loop over the buckets, with `remaining` of them to go. -/
def splitBuckets (upper : ℕ) (upperBound : Bound) (itemsPerBucket bucketsWithExtra : ℕ) :
    ℕ → ℕ → Method σ Bytes
  | 0, _ => return []
  | remaining + 1, curr => do
      let i := buckets - (remaining + 1)
      let bucketSize := itemsPerBucket + if i < bucketsWithExtra then 1 else 0
      let ourFingerprint ← fingerprint curr (curr + bucketSize)
      let curr := curr + bucketSize
      let nextBound ←
        if curr = upper then pure upperBound
        else do
          let items ← iterate (curr - 1) (curr + 1)
            (fun (items : Item × Item) item index =>
              (if index = curr - 1 then (item, items.2) else (items.1, item), true)) ({}, {})
          pure (getMinimalBound items.1 items.2)
      let bound ← encodeBound nextBound
      let o ← splitBuckets upper upperBound itemsPerBucket bucketsWithExtra remaining curr
      return bound ++ encodeVarInt Mode.fingerprint.toU64 ++ ourFingerprint.buf ++ o

def splitRange (lower upper : ℕ) (upperBound : Bound) : Method σ Bytes := do
  let numElems := upper - lower
  if numElems < buckets * 2 then
    let bound ← encodeBound upperBound
    let ids ← iterate lower upper (fun o item _ => (o ++ item.id.bytes, true)) []
    return bound ++ encodeVarInt Mode.idList.toU64 ++ encodeVarInt (UInt64.ofNat numElems) ++ ids
  else
    splitBuckets upper upperBound (numElems / buckets) (numElems % buckets) buckets lower

/-! ### Reconciliation -/

/-- The local variables of `reconcileAux` that live across its iterations, and what it has
appended to its two out-parameters. -/
structure ReconcileState where
  query : Bytes
  fullOutput : Bytes
  prevBound : Bound := Bound.zero
  prevIndex : ℕ := 0
  skip : Bool := false
  haveIds : List ItemId := []
  needIds : List ItemId := []

/-- The lambda `doSkip`: the cleared flag and what it appends to `o`. -/
def doSkip (st : ReconcileState) : Method σ (ReconcileState × Bytes) := do
  if st.skip then
    let bound ← encodeBound st.prevBound
    return ({ st with skip := false }, bound ++ encodeVarInt Mode.skip.toU64)
  else return (st, [])

/-- The end of an iteration: the limit check, and what carries over to the next one. The
second component says whether the loop is left. -/
def finishRange (size : ℕ) (currBound : Bound) (upper : ℕ) (o : Bytes) (st : ReconcileState) :
    Method σ (ReconcileState × Bool) := do
  if (← get).exceededFrameSizeLimit (st.fullOutput.length + o.length) then
    let remainingFingerprint ← fingerprint upper size
    let bound ← encodeBound (Bound.ofTimestamp MAX_U64)
    let fullOutput := st.fullOutput ++ bound ++ encodeVarInt Mode.fingerprint.toU64 ++ remainingFingerprint.buf
    return ({ st with fullOutput }, true)
  else
    return ({ st with fullOutput := st.fullOutput ++ o, prevIndex := upper, prevBound := currBound }, false)

def reconcileFingerprint (size : ℕ) (currBound : Bound) (lower upper : ℕ) (st : ReconcileState) :
    Method σ (ReconcileState × Bool) := do
  let (theirFingerprint, query) ← call (getBytes st.query FINGERPRINT_SIZE)
  let ourFingerprint ← fingerprint lower upper
  let st := { st with query }
  if theirFingerprint ≠ ourFingerprint.buf then
    let (st, o) ← doSkip st
    let split ← splitRange lower upper currBound
    finishRange size currBound upper (o ++ split) st
  else
    finishRange size currBound upper [] { st with skip := true }

/-- `theirElems.insert(e)`. -/
def insertElem (theirElems : List ItemId) (e : ItemId) : List ItemId :=
  if e ∈ theirElems then theirElems else theirElems ++ [e]

/-- The callback of the initiator: `(haveIds, theirElems)` is what it captures. -/
def compareIds (st : List ItemId × List ItemId) (item : Item) (_ : ℕ) : (List ItemId × List ItemId) × Bool :=
  if item.id ∉ st.2 then ((st.1 ++ [item.id], st.2), true)
  else ((st.1, st.2.erase item.id), true)

/-- What the callback of the other party captures. -/
structure Response where
  responseIds : Bytes := []
  numResponseIds : UInt64 := 0
  endBound : Bound
  upper : ℕ

def respondIds (ne : Negentropy σ) (fullOutput : Bytes) (st : Response) (item : Item) (index : ℕ) :
    Response × Bool :=
  if ne.exceededFrameSizeLimit (fullOutput.length + st.responseIds.length) then
    ({ st with endBound := Bound.ofItem item, upper := index }, false)
  else
    ({ st with responseIds := st.responseIds ++ item.id.bytes, numResponseIds := st.numResponseIds + 1 }, true)

def reconcileIdList (size : ℕ) (currBound : Bound) (lower upper : ℕ) (st : ReconcileState) :
    Method σ (ReconcileState × Bool) := do
  let (numIds, query) ← call (decodeVarInt st.query)
  let (ids, query) ← call (getIds numIds.toNat query)
  let st := { st with query }
  let ne ← get
  if ne.isInitiator then
    let (haveIds, theirElems) ← iterate lower upper compareIds (st.haveIds, ids.foldl insertElem [])
    finishRange size currBound upper []
      { st with skip := true, haveIds, needIds := st.needIds ++ theirElems }
  else
    let (st, o) ← doSkip st
    let r ← iterate lower upper (respondIds ne st.fullOutput) { endBound := currBound, upper }
    let bound ← encodeBound r.endBound
    let o := o ++ bound ++ encodeVarInt Mode.idList.toU64 ++ encodeVarInt r.numResponseIds ++ r.responseIds
    finishRange size currBound r.upper [] { st with fullOutput := st.fullOutput ++ o }

/-- One iteration of the loop. -/
def reconcileRange (size : ℕ) (st : ReconcileState) : Method σ (ReconcileState × Bool) := do
  let (currBound, query) ← decodeBound st.query
  let (mode, query) ← call (decodeVarInt query)
  let lower := st.prevIndex
  let upper ← findLowerBound st.prevIndex size currBound
  let st := { st with query }
  match Mode.ofU64 mode with
  | some .skip => finishRange size currBound upper [] { st with skip := true }
  | some .fingerprint => reconcileFingerprint size currBound lower upper st
  | some .idList => reconcileIdList size currBound lower upper st
  | none => throw (.err "unexpected mode")

/-- `while (query.size())`. An iteration reads at least one byte, so that as many rounds
as the query has bytes empty it. -/
def reconcileLoop (size : ℕ) : ℕ → ReconcileState → Method σ ReconcileState
  | 0, st => return st
  | rounds + 1, st =>
      if st.query = [] then return st
      else do
        let (st, stop) ← reconcileRange size st
        if stop then return st else reconcileLoop size rounds st

def reconcileAux (query : Bytes) : Method σ (Bytes × List ItemId × List ItemId) := do
  modify fun ne => { ne with lastTimestampIn := 0, lastTimestampOut := 0 }
  let fullOutput := [PROTOCOL_VERSION]
  let (protocolVersion, query) ← call (getByte query)
  if protocolVersion < 0x60 ∨ protocolVersion > 0x6F then
    throw (.err "invalid negentropy protocol version byte")
  else if protocolVersion ≠ PROTOCOL_VERSION then
    if (← get).isInitiator then
      throw (.err ("unsupported negentropy protocol version requested" ++
        toString (protocolVersion - 0x60).toNat))
    else return (fullOutput, [], [])
  else
    let size ← storageSize
    let st ← reconcileLoop size query.length { query, fullOutput }
    return (st.fullOutput, st.haveIds, st.needIds)

def initiate : Method σ Bytes := do
  if (← get).isInitiator then throw (.err "already initiated")
  else
    modify fun ne => { ne with isInitiator := true }
    let size ← storageSize
    let split ← splitRange 0 size (Bound.ofTimestamp MAX_U64)
    return PROTOCOL_VERSION :: split

def setInitiator : Method σ Unit := modify fun ne => { ne with isInitiator := true }

/-- `reconcile(query)`, for the party that did not initiate. -/
def reconcile (query : Bytes) : Method σ Bytes := do
  if (← get).isInitiator then throw (.err "initiator not asking for have/need IDs")
  else
    let (output, _, _) ← reconcileAux query
    return output

/-- `reconcile(query, haveIds, needIds)`, for the initiator: `none` is `std::nullopt`. -/
def reconcileHaveNeed (query : Bytes) : Method σ (Option Bytes × List ItemId × List ItemId) := do
  if ¬ (← get).isInitiator then throw (.err "non-initiator asking for have/need IDs")
  else
    let (output, haveIds, needIds) ← reconcileAux query
    return (if output.length = 1 then none else some output, haveIds, needIds)

end Negentropy

end NE
