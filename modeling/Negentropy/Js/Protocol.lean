import Negentropy.Js.Storage

/-! `Negentropy.js`: one party of the protocol. A call runs on the object, on the buffer of the
message it reads, and on a record of what it has done to that buffer, which nothing reads and
which survives an exception. Buffers that are rendered are lists of bytes. -/

namespace NE.Js

def PROTOCOL_VERSION : UInt8 := 0x61

namespace Mode

def skip : ℤ := 0
def fingerprint : ℤ := 1
def idList : ℤ := 2

end Mode

/-- `_bound(timestamp)` -/
def bound (timestamp : ℤ) : Bound := ⟨timestamp, []⟩

/-- A constructed object. -/
structure Negentropy (σ : Type) where
  storage : σ
  frameSizeLimit : ℕ
  limit_ok : frameSizeLimit = 0 ∨ 4096 ≤ frameSizeLimit
  isInitiator : Bool := false
  lastTimestampIn : ℤ := 0
  lastTimestampOut : ℤ := 0

/-- A call of `shift` (with `n` one) or `shiftN`, and the buffer before and after it. -/
structure Shift where
  before : WrappedBuffer
  n : ℤ
  after : WrappedBuffer
  deriving DecidableEq

/-- The object and the message, every call that has taken bytes off the message, and the message
as each iteration of the main loop has found it. -/
structure Run (σ : Type) where
  ne : Negentropy σ
  query : WrappedBuffer
  shifts : List Shift := []
  heads : List WrappedBuffer := []

abbrev Method (σ α : Type) := EStateM Stop (Run σ) α

/-- A call of a function that does not touch the object. -/
def call {σ α : Type} : Except Thrown α → Method σ α
  | .ok a => pure a
  | .error e => throw (.thrown e)

section
variable {σ : Type}

/-! ### Reading the message -/

/-- A call has left `query` of the message. -/
def Run.record (s : Run σ) (n : ℤ) (query : WrappedBuffer) : Run σ :=
  { s with query, shifts := s.shifts ++ [⟨s.query, n, query⟩] }

def shift : Method σ (Option UInt8) := do
  let s ← get
  let (first, query) := s.query.shift
  set (s.record 1 query)
  return first

def shiftN (n : ℤ) : Method σ Bytes := do
  let s ← get
  let (first, query) := s.query.shiftN n
  set (s.record n query)
  return first

/-- The loop of `decodeVarInt` with `res` accumulated so far. A round takes a byte off, and where
there is none `undefined` ends the loop. -/
def decodeVarIntFrom : ℕ → Int32 → Method σ ℤ
  | 0, _ => throw .running
  | rounds + 1, res => do
      if (← get).query.length = 0 then throw (.thrown (.error "parse ends prematurely"))
      else
        let byte ← shift
        let res := pushDigit res byte
        if byte.getD 0 &&& 128 = 0 then return res.toInt else decodeVarIntFrom rounds res

def decodeVarInt : Method σ ℤ := do decodeVarIntFrom ((← get).query.raw.length + 1) 0

def getBytes (n : ℤ) : Method σ Bytes := do
  if (← get).query.length < n then throw (.thrown (.error "parse ends prematurely")) else shiftN n

/-- `getByte`, of a message that nothing has been read of: the byte is there. -/
def getByte : Method σ UInt8 := do return (← getBytes 1).headD 0

namespace Negentropy

/-- The constructor. -/
def make (storage : σ) (frameSizeLimit : ℕ) : Except Thrown (Negentropy σ) :=
  if h : frameSizeLimit = 0 ∨ 4096 ≤ frameSizeLimit then
    .ok { storage, frameSizeLimit, limit_ok := h }
  else .error (.error "frameSizeLimit too small")

def exceededFrameSizeLimit (ne : Negentropy σ) (n : ℕ) : Bool :=
  ne.frameSizeLimit != 0 && decide (n > ne.frameSizeLimit - 200)

/-! ### Decoding -/

def decodeTimestampIn : Method σ ℤ := do
  let timestamp ← decodeVarInt
  let timestamp := if timestamp = 0 then MAX_VALUE else timestamp - 1
  let last := (← get).ne.lastTimestampIn
  if last = MAX_VALUE ∨ timestamp = MAX_VALUE then
    modify fun s => { s with ne := { s.ne with lastTimestampIn := MAX_VALUE } }
    return MAX_VALUE
  else
    let timestamp := nearest (timestamp + last)
    modify fun s => { s with ne := { s.ne with lastTimestampIn := timestamp } }
    return timestamp

def decodeBound : Method σ Bound := do
  let timestamp ← decodeTimestampIn
  let len ← decodeVarInt
  if len > ID_SIZE then throw (.thrown (.error "bound key too long"))
  else
    let id ← getBytes len
    return { timestamp, id }

/-- The loop that reads the payload of an `IdList`. -/
def getIds : ℕ → Method σ (List Bytes)
  | 0 => return []
  | n + 1 => do
      let e ← getBytes ID_SIZE
      let es ← getIds n
      return e :: es

/-! ### Encoding -/

def encodeTimestampOut (timestamp : ℤ) : Method σ Bytes := do
  if timestamp = MAX_VALUE then
    modify fun s => { s with ne := { s.ne with lastTimestampOut := MAX_VALUE } }
    return encodeVarInt 0
  else
    let last := (← get).ne.lastTimestampOut
    modify fun s => { s with ne := { s.ne with lastTimestampOut := timestamp } }
    return encodeVarInt (nearest (nearest (timestamp - last) + 1))

def encodeBound (key : Bound) : Method σ Bytes := do
  let timestamp ← encodeTimestampOut key.timestamp
  return timestamp ++ encodeVarInt key.id.length ++ key.id

/-- The number of leading bytes two ids share. -/
def sharedPrefixBytes : Bytes → Bytes → ℕ
  | a :: currKey, b :: prevKey => if a = b then sharedPrefixBytes currKey prevKey + 1 else 0
  | _, _ => 0

def getMinimalBound (prev curr : Item) : Bound :=
  if curr.timestamp ≠ prev.timestamp then bound curr.timestamp
  else ⟨curr.timestamp, curr.id.take (sharedPrefixBytes curr.id prev.id + 1)⟩

/-! ### Splitting -/

variable [Storage σ]

def storageSize : Method σ ℕ := do call (Storage.size (← get).ne.storage)

def findLowerBound (begin_ end_ : ℕ) (bound : Bound) : Method σ ℕ := do
  call (Storage.findLowerBound (← get).ne.storage begin_ end_ bound)

def fingerprint (begin_ end_ : ℕ) : Method σ Bytes := do
  call (Storage.fingerprint (← get).ne.storage begin_ end_)

def iterate {α : Type} (begin_ end_ : ℕ) (cb : α → Item → ℕ → α × Bool) (st : α) : Method σ α := do
  call (Storage.iterate (← get).ne.storage begin_ end_ cb st)

def buckets : ℕ := 16

/-- `getMinimalBound(prevItem, currItem)`, which reads properties of both. -/
def minimalBound : Option Item → Option Item → Except Thrown Bound
  | some prev, some curr => .ok (getMinimalBound prev curr)
  | _, _ => .error .typeError

/-- The loop over the buckets, with `remaining` of them to go. -/
def splitBuckets (upper : ℕ) (upperBound : Bound) (itemsPerBucket bucketsWithExtra : ℕ) : ℕ → ℕ → Method σ Bytes
  | 0, _ => return []
  | remaining + 1, curr => do
      let i := buckets - (remaining + 1)
      let bucketSize := itemsPerBucket + if i < bucketsWithExtra then 1 else 0
      let ourFingerprint ← fingerprint curr (curr + bucketSize)
      let curr := curr + bucketSize
      let nextBound ←
        if curr = upper then pure upperBound
        else do
          let items ← iterate (curr - 1) (curr + 1)
            (fun (items : Option Item × Option Item) item index =>
              (if index = curr - 1 then (some item, items.2) else (items.1, some item), true)) (none, none)
          call (minimalBound items.1 items.2)
      let bound ← encodeBound nextBound
      let o ← splitBuckets upper upperBound itemsPerBucket bucketsWithExtra remaining curr
      return bound ++ encodeVarInt Mode.fingerprint ++ ourFingerprint ++ o

def splitRange (lower upper : ℕ) (upperBound : Bound) : Method σ Bytes := do
  let numElems : ℤ := upper - lower
  if numElems < buckets * 2 then
    let bound ← encodeBound upperBound
    let ids ← iterate lower upper (fun o item _ => (o ++ item.id, true)) []
    return bound ++ encodeVarInt Mode.idList ++ encodeVarInt numElems ++ ids
  else
    splitBuckets upper upperBound (numElems.toNat / buckets) (numElems.toNat % buckets) buckets lower

/-! ### Reconciliation -/

/-- The local variables of `reconcile` that live across its iterations, besides the message. -/
structure ReconcileState where
  fullOutput : Bytes
  prevBound : Bound := bound 0
  prevIndex : ℕ := 0
  skip : Bool := false
  haveIds : List Bytes := []
  needIds : List Bytes := []

/-- The lambda `doSkip`: the cleared flag and what it appends to `o`. -/
def doSkip (st : ReconcileState) : Method σ (ReconcileState × Bytes) := do
  if st.skip then
    let bound ← encodeBound st.prevBound
    return ({ st with skip := false }, bound ++ encodeVarInt Mode.skip)
  else return (st, [])

/-- The end of an iteration: the limit check, and what carries over to the next one. The
second component says whether the loop is left. -/
def finishRange (size : ℕ) (currBound : Bound) (upper : ℕ) (o : Bytes) (st : ReconcileState) :
    Method σ (ReconcileState × Bool) := do
  if (← get).ne.exceededFrameSizeLimit (st.fullOutput.length + o.length) then
    let remainingFingerprint ← fingerprint upper size
    let bound ← encodeBound (bound MAX_VALUE)
    let fullOutput := st.fullOutput ++ bound ++ encodeVarInt Mode.fingerprint ++ remainingFingerprint
    return ({ st with fullOutput }, true)
  else
    return ({ st with fullOutput := st.fullOutput ++ o, prevIndex := upper, prevBound := currBound }, false)

def reconcileFingerprint (size : ℕ) (currBound : Bound) (lower upper : ℕ) (st : ReconcileState) :
    Method σ (ReconcileState × Bool) := do
  let theirFingerprint ← getBytes FINGERPRINT_SIZE
  let ourFingerprint ← fingerprint lower upper
  if compareUint8Array theirFingerprint ourFingerprint ≠ 0 then
    let (st, o) ← doSkip st
    let split ← splitRange lower upper currBound
    finishRange size currBound upper (o ++ split) st
  else
    finishRange size currBound upper [] { st with skip := true }

/-- `theirElems[e] = e`: the values in the order in which their keys were inserted. -/
def insertElem (theirElems : List Bytes) (e : Bytes) : List Bytes :=
  if e ∈ theirElems then theirElems else theirElems ++ [e]

/-- `Object.values(theirElems)`. The key of a single byte is an integer index, and these come
first, in ascending order. -/
def objectValues (theirElems : List Bytes) : List Bytes :=
  (theirElems.filter (·.length = 1)).mergeSort (· ≤ ·) ++ theirElems.filter (·.length ≠ 1)

/-- The callback of the initiator: `(haveIds, theirElems)` is what it captures. -/
def compareIds (st : List Bytes × List Bytes) (item : Item) (_ : ℕ) : (List Bytes × List Bytes) × Bool :=
  if item.id ∉ st.2 then ((st.1 ++ [item.id], st.2), true)
  else ((st.1, st.2.erase item.id), true)

/-- What the callback of the other party captures. -/
structure Response where
  responseIds : Bytes := []
  numResponseIds : ℤ := 0
  endBound : Bound
  upper : ℕ

def respondIds (ne : Negentropy σ) (fullOutput : Bytes) (st : Response) (item : Item) (index : ℕ) : Response × Bool :=
  if ne.exceededFrameSizeLimit (fullOutput.length + st.responseIds.length) then
    ({ st with endBound := item, upper := index }, false)
  else
    ({ st with responseIds := st.responseIds ++ item.id, numResponseIds := st.numResponseIds + 1 }, true)

def reconcileIdList (size : ℕ) (currBound : Bound) (lower upper : ℕ) (st : ReconcileState) :
    Method σ (ReconcileState × Bool) := do
  let numIds ← decodeVarInt
  let ids ← getIds numIds.toNat
  let ne := (← get).ne
  if ne.isInitiator then
    let (haveIds, theirElems) ← iterate lower upper compareIds (st.haveIds, ids.foldl insertElem [])
    finishRange size currBound upper []
      { st with skip := true, haveIds, needIds := st.needIds ++ objectValues theirElems }
  else
    let (st, o) ← doSkip st
    let r ← iterate lower upper (respondIds ne st.fullOutput) { endBound := currBound, upper }
    let bound ← encodeBound r.endBound
    let o := o ++ bound ++ encodeVarInt Mode.idList ++ encodeVarInt r.numResponseIds ++ r.responseIds
    finishRange size currBound r.upper [] { st with fullOutput := st.fullOutput ++ o }

/-- One iteration of the loop. -/
def reconcileRange (size : ℕ) (st : ReconcileState) : Method σ (ReconcileState × Bool) := do
  let currBound ← decodeBound
  let mode ← decodeVarInt
  let lower := st.prevIndex
  let upper ← findLowerBound st.prevIndex size currBound
  if mode = Mode.skip then finishRange size currBound upper [] { st with skip := true }
  else if mode = Mode.fingerprint then reconcileFingerprint size currBound lower upper st
  else if mode = Mode.idList then reconcileIdList size currBound lower upper st
  else throw (.thrown (.error "unexpected mode"))

/-- `while (query.length !== 0)`, for a number of rounds: nothing else bounds it. -/
def reconcileLoop (size : ℕ) : ℕ → ReconcileState → Method σ ReconcileState
  | 0, _ => throw .running
  | rounds + 1, st => do
      if (← get).query.length = 0 then return st
      else
        modify fun s => { s with heads := s.heads ++ [s.query] }
        let (st, stop) ← reconcileRange size st
        if stop then return st else reconcileLoop size rounds st

/-- `reconcile` on a loaded message. The output `none` is `null`. -/
def reconcileMessage (rounds : ℕ) : Method σ (Option Bytes × List Bytes × List Bytes) := do
  modify fun s => { s with ne := { s.ne with lastTimestampIn := 0, lastTimestampOut := 0 } }
  let fullOutput := [PROTOCOL_VERSION]
  let protocolVersion ← getByte
  if protocolVersion < 0x60 ∨ protocolVersion > 0x6F then
    throw (.thrown (.error "invalid negentropy protocol version byte"))
  else if protocolVersion ≠ PROTOCOL_VERSION then
    if (← get).ne.isInitiator then
      throw (.thrown (.error ("unsupported negentropy protocol version requested: " ++
        toString (protocolVersion - 0x60).toNat)))
    else return (some fullOutput, [], [])
  else
    let size ← storageSize
    let st ← reconcileLoop size rounds { fullOutput }
    let isInitiator := (← get).ne.isInitiator
    return (if st.fullOutput.length = 1 ∧ isInitiator then none else some st.fullOutput, st.haveIds, st.needIds)

def initiateMessage : Method σ Bytes := do
  if (← get).ne.isInitiator then throw (.thrown (.error "already initiated"))
  else
    modify fun s => { s with ne := { s.ne with isInitiator := true } }
    let size ← storageSize
    let split ← splitRange 0 size (bound MAX_VALUE)
    return PROTOCOL_VERSION :: split

/-! ### Calls -/

/-- `reconcile(query)`: what it ends in, and what it has done by then. -/
def reconcile (ne : Negentropy σ) (rounds : ℕ) (query : Uint8Array) :
    EStateM.Result Stop (Run σ) (Option Bytes × List Bytes × List Bytes) :=
  reconcileMessage rounds { ne, query := .ofArray query }

/-- `initiate()`, which reads no message. -/
def initiate (ne : Negentropy σ) : EStateM.Result Stop (Run σ) Bytes :=
  initiateMessage { ne, query := ⟨[], 0⟩ }

def setInitiator (ne : Negentropy σ) : Negentropy σ := { ne with isInitiator := true }

end Negentropy

end

end NE.Js
