import Mathlib.Data.Finset.Basic
import Negentropy.Storage.BTreeMem

/-! `storage/BTreeLMDB.h`: the B+tree in a table of a database, and programs that use several of them.
Within a transaction the table is a finite map from keys to records. The trees share it. -/

namespace NE.Storage

open BTree

/-- `getKey`: two numbers of eight bytes each, one after the other. -/
structure DbKey where
  treeId : UInt64
  nodeId : ℕ
  deriving DecidableEq

structure MetaData where
  rootNodeId : ℕ := 0
  nextNodeId : ℕ := 1
  deriving DecidableEq

/-- What the bytes of a record are the image of. -/
inductive Record where
  | metaData (metaData : MetaData)
  | node (node : Node)

/-- `lmdb::dbi`. -/
structure Dbi where
  records : DbKey → Option Record := fun _ => none

namespace Dbi

def get (dbi : Dbi) (k : DbKey) : Option Record := dbi.records k

def put (dbi : Dbi) (k : DbKey) (v : Record) : Dbi := ⟨fun k' => if k' = k then some v else dbi.records k'⟩

def del (dbi : Dbi) (k : DbKey) : Dbi := ⟨fun k' => if k' = k then none else dbi.records k'⟩

end Dbi

/-- What an object has of its own. -/
structure BTreeCache where
  treeId : UInt64
  metaDataCache : MetaData
  origMetaData : MetaData
  dirtyNodeCache : Std.TreeMap ℕ Node

/-- An object and the table. -/
structure BTreeLMDB (cfg : Config) extends BTreeCache where
  dbi : Dbi

/-- Where the pointer of a `NodePtr` leads: to a node in the cache, or to a record of the table, which stays as
it was found. -/
inductive NodePtr where
  | cached (nodeId : ℕ)
  | stored (nodeId : ℕ) (node : Node)

def NodePtr.nodeId : NodePtr → ℕ
  | .cached nodeId => nodeId
  | .stored nodeId _ => nodeId

namespace BTreeLMDB

variable {cfg : Config}

def getKey (t : BTreeLMDB cfg) (n : ℕ) : DbKey := ⟨t.treeId, n⟩

/-- The constructor. -/
def make (dbi : Dbi) (treeId : UInt64) : Except Err (BTreeLMDB cfg) :=
  match dbi.get ⟨treeId, 0⟩ with
  | none => .ok { dbi, treeId, metaDataCache := {}, origMetaData := {}, dirtyNodeCache := ∅ }
  | some (.metaData metaData) =>
      .ok { dbi, treeId, metaDataCache := metaData, origMetaData := metaData, dirtyNodeCache := ∅ }
  | some (.node _) => .error (.err "from_sv")

def flush (t : BTreeLMDB cfg) : BTreeLMDB cfg :=
  let dbi := t.dirtyNodeCache.foldl (fun dbi nodeId node => dbi.put (t.getKey nodeId) (.node node)) t.dbi
  let t := { t with dbi, dirtyNodeCache := ∅ }
  if t.metaDataCache ≠ t.origMetaData then
    { t with dbi := dbi.put (t.getKey 0) (.metaData t.metaDataCache), origMetaData := t.metaDataCache }
  else t

/-! ### Nodes -/

/-- `getNodeRead`. -/
def findNode (t : BTreeLMDB cfg) (nodeId : ℕ) : Except Err (Option NodePtr) :=
  if nodeId = 0 then .ok none
  else if nodeId ∈ t.dirtyNodeCache then .ok (some (.cached nodeId))
  else
    match t.dbi.get (t.getKey nodeId) with
    | some (.node node) => .ok (some (.stored nodeId node))
    | _ => .error (.err "couldn't find node")

/-- `NodePtr::get`. -/
def deref (t : BTreeLMDB cfg) : NodePtr → Except Err Node
  | .cached nodeId => BTree.deref t.dirtyNodeCache[nodeId]?
  | .stored _ node => .ok node

def getNodeWrite (t : BTreeLMDB cfg) (nodeId : ℕ) : Except Err (Option Node × BTreeLMDB cfg) :=
  if nodeId = 0 then .ok (none, t)
  else
    match t.dirtyNodeCache[nodeId]? with
    | some node => .ok (some node, t)
    | none =>
        match t.dbi.get (t.getKey nodeId) with
        | some (.node node) => .ok (some node, { t with dirtyNodeCache := t.dirtyNodeCache.insert nodeId node })
        | _ => .error (.err "couldn't find node")

def makeNode (t : BTreeLMDB cfg) : ℕ × BTreeLMDB cfg :=
  let nodeId := t.metaDataCache.nextNodeId
  (nodeId,
    { t with
      metaDataCache := { t.metaDataCache with nextNodeId := nodeId + 1 }
      dirtyNodeCache := t.dirtyNodeCache.insertIfNew nodeId (Node.zero cfg) })

def deleteNode (t : BTreeLMDB cfg) (nodeId : ℕ) : Except Err (BTreeLMDB cfg) :=
  if nodeId = 0 then .error (.err "can't delete metadata")
  else .ok { t with dirtyNodeCache := t.dirtyNodeCache.erase nodeId, dbi := t.dbi.del (t.getKey nodeId) }

instance : NodeStore (BTreeLMDB cfg) where
  getNodeRead t nodeId := do
    match ← t.findNode nodeId with
    | none => return none
    | some ptr => return some (← t.deref ptr)
  getNodeWrite := getNodeWrite
  writeNode t nodeId node := { t with dirtyNodeCache := t.dirtyNodeCache.insert nodeId node }
  makeNode := makeNode
  deleteNode := deleteNode
  getRootNodeId t := t.metaDataCache.rootNodeId
  setRootNodeId t newRootNodeId := { t with metaDataCache := { t.metaDataCache with rootNodeId := newRootNodeId } }
  maxDepth t := t.metaDataCache.nextNodeId

instance [Sha256] : StorageBase (BTreeLMDB cfg) where
  size := BTree.size
  getItem := BTree.getItem
  iterate := BTree.iterate
  findLowerBound := BTree.findLowerBound
  fingerprint := BTree.fingerprint

/-! ### Insert and erase

The functions of `core.h` once more, where a breadcrumb keeps the pointer that the search has followed. The
node that it leads to need not be the one that is written to. -/

structure Crumb where
  index : ℕ
  nodePtr : NodePtr

def searchFrom (t : BTreeLMDB cfg) (newItem : Item) : ℕ → ℕ → Bool → List Crumb → Except Err (Bool × List Crumb)
  | 0, _, found, breadcrumbs => return (found, breadcrumbs)
  | depth + 1, nodeId, found, breadcrumbs => do
      match ← t.findNode nodeId with
      | none => return (found, breadcrumbs)
      | some foundNode =>
          let node ← t.deref foundNode
          let index := searchIndex node newItem
          let found := found || newItem == (node.key index).item
          searchFrom t newItem depth (node.key index).nodeId found (⟨index, foundNode⟩ :: breadcrumbs)

def searchItem (t : BTreeLMDB cfg) (rootNodeId : ℕ) (newItem : Item) : Except Err (Bool × List Crumb) :=
  t.searchFrom newItem (NodeStore.maxDepth t) rootNodeId false []

/-- One breadcrumb of `insertItem`. -/
def insertStep (newItem : Item) (st : InsertState (BTreeLMDB cfg)) (crumb : Crumb) :
    Except Err (InsertState (BTreeLMDB cfg)) := do
  let nodeId := crumb.nodePtr.nodeId
  let (_, t) ← getNodeWrite st.store nodeId
  let st := { st with store := t }
  let node ← t.deref crumb.nodePtr
  let st ←
    if ¬ st.needsMerge then do
      let t ← modifyNode st.store nodeId fun node =>
        { node with accum := node.accum.addItem newItem, accumCount := node.accumCount + 1 }
      pure { st with store := t }
    else if node.numItems < cfg.MAX_ITEMS then do
      let t ← modifyNode st.store nodeId (insertKey newItem st.newKey)
      pure { st with store := t, needsMerge := false }
    else splitNode cfg st.store nodeId st.newKey
  let t ← refreshIndex st.store nodeId 0
  return { st with store := t }

def insertLoop (newItem : Item) : List Crumb → InsertState (BTreeLMDB cfg) → Except Err (InsertState (BTreeLMDB cfg))
  | [], st => return st
  | crumb :: breadcrumbs, st => do insertLoop newItem breadcrumbs (← insertStep newItem st crumb)

def insertItem (t : BTreeLMDB cfg) (newItem : Item) : Except Err (Bool × BTreeLMDB cfg) := do
  let rootNodeId := NodeStore.getRootNodeId t
  if rootNodeId = 0 then BTree.insertItem cfg t newItem
  else
    let (found, breadcrumbs) ← t.searchItem rootNodeId newItem
    if found then return (false, t)
    else
      let st ← insertLoop newItem breadcrumbs { store := t, newKey := ⟨newItem, 0⟩ }
      let t ← if st.needsMerge then growRoot st.store rootNodeId st.newKey else pure st.store
      return (true, t)

/-- A node that has become too small, and the breadcrumb of its parent. -/
def fixUnderflow (t : BTreeLMDB cfg) (nodeId : ℕ) (parent : Crumb) : Except Err (BTreeLMDB cfg × Bool) := do
  let node ← readNode t nodeId
  let parentNode ← t.deref parent.nodePtr
  if node.numItems < cfg.MIN_ITEMS ∧ parentNode.numItems > 1 then
    if parent.index = 0 then
      -- Use neighbour to the right
      let rightNode ← readNode t node.nextSibling
      if node.numItems + rightNode.numItems ≤ cfg.REBALANCE_THRESHOLD then
        return (← moveIntoRight t nodeId node.nextSibling, false)
      else rebalance t nodeId node.nextSibling
    else
      -- Use neighbour to the left
      let leftNode ← readNode t node.prevSibling
      if leftNode.numItems + node.numItems ≤ cfg.REBALANCE_THRESHOLD then
        return (← moveIntoLeft t node.prevSibling nodeId, false)
      else rebalance t node.prevSibling nodeId
  else return (t, false)

/-- One breadcrumb of `eraseItem`, `breadcrumbs` being those above it. -/
def eraseStep (oldItem : Item) (st : EraseState (BTreeLMDB cfg)) (crumb : Crumb) (breadcrumbs : List Crumb) :
    Except Err (EraseState (BTreeLMDB cfg)) := do
  let nodeId := crumb.nodePtr.nodeId
  let t ← modifyNode st.store nodeId fun node =>
    if st.needsRemove then removeKey oldItem crumb.index node
    else { node with accum := node.accum.subItem oldItem, accumCount := node.accumCount - 1 }
  let node ← readNode t nodeId
  let t ← if crumb.index < node.numItems then refreshIndex t nodeId crumb.index else pure t
  let t ← if st.neighbourRefreshNeeded then refreshIndex t nodeId (crumb.index + 1) else pure t
  let (t, neighbourRefreshNeeded) ←
    match breadcrumbs with
    | [] => pure (t, false)
    | parent :: _ => fixUnderflow t nodeId parent
  let (t, needsRemove) ← dropEmpty t nodeId
  return { store := t, needsRemove, neighbourRefreshNeeded }

def eraseLoop (oldItem : Item) : List Crumb → EraseState (BTreeLMDB cfg) → Except Err (EraseState (BTreeLMDB cfg))
  | [], st => return st
  | crumb :: breadcrumbs, st => do
      eraseLoop oldItem breadcrumbs (← eraseStep oldItem st crumb breadcrumbs)

def eraseItem (t : BTreeLMDB cfg) (oldItem : Item) : Except Err (Bool × BTreeLMDB cfg) := do
  let rootNodeId := NodeStore.getRootNodeId t
  if rootNodeId = 0 then return (false, t)
  else
    let (found, breadcrumbs) ← t.searchItem rootNodeId oldItem
    if ¬ found then return (false, t)
    else
      let st ← eraseLoop oldItem breadcrumbs { store := t }
      if st.needsRemove then return (true, NodeStore.setRootNodeId st.store 0)
      else return (true, ← shrinkRoot st.store rootNodeId)

end BTreeLMDB

/-! ### Calls -/

/-- A call that reads a tree; `st` is what the callback begins with. -/
inductive Read (α : Type) where
  | size
  | getItem (index : ℕ)
  | iterate (begin_ end_ : ℕ) (cb : α → Item → ℕ → α × Bool) (st : α)
  | findLowerBound (begin_ end_ : ℕ) (value : Bound)
  | fingerprint (begin_ end_ : ℕ)

inductive Call (α : Type) where
  | change (op : BTreeMem.Op)
  | read (read : Read α)

/-- What a call returns, or what its callback is left with. -/
inductive Answer (α : Type) where
  | changed (changed : Bool)
  | size (size : ℕ)
  | item (item : Item)
  | callback (st : α)
  | index (index : ℕ)
  | fingerprint (fingerprint : Fingerprint)
  | nothing
  deriving DecidableEq

section
variable [Sha256] {α : Type} {cfg : Config}

def Read.answer {τ : Type} [NodeStore τ] (t : τ) : Read α → Except Err (Answer α)
  | .size => return .size (← BTree.size t)
  | .getItem index => return .item (← BTree.getItem t index)
  | .iterate begin_ end_ cb st => return .callback (← BTree.iterate t begin_ end_ cb st)
  | .findLowerBound begin_ end_ value => return .index (← BTree.findLowerBound t begin_ end_ value)
  | .fingerprint begin_ end_ => return .fingerprint (← BTree.fingerprint t begin_ end_)

/-- What a change returned, and the tree then. -/
def changedTo {τ : Type} (t : τ) : Except Err (Bool × τ) → Except Err (Answer α) × τ
  | .ok (changed, t) => (.ok (.changed changed), t)
  | .error e => (.error e, t)

def BTreeMem.perform (t : BTreeMem cfg) : Call α → Except Err (Answer α) × BTreeMem cfg
  | .change op => changedTo t (t.apply op)
  | .read read => (read.answer t, t)

def BTreeLMDB.apply (t : BTreeLMDB cfg) : BTreeMem.Op → Except Err (Bool × BTreeLMDB cfg)
  | .insertItem item => t.insertItem item
  | .eraseItem item => t.eraseItem item

def BTreeLMDB.perform (t : BTreeLMDB cfg) : Call α → Except Err (Answer α) × BTreeLMDB cfg
  | .change op => changedTo t (t.apply op)
  | .read read => (read.answer t, t)

/-! ### Programs -/

/-- What a program does next; the destructor ends in `flush`. -/
inductive Event (α : Type) where
  | construct (treeId : UInt64)
  | destroy (treeId : UInt64)
  | flush (treeId : UInt64)
  | call (treeId : UInt64) (call : Call α)

/-- The table, and the object that is live for a tree. -/
structure Program where
  dbi : Dbi := {}
  objects : UInt64 → Option BTreeCache := fun _ => none

def Program.object (cfg : Config) (p : Program) (treeId : UInt64) : Option (BTreeLMDB cfg) :=
  (p.objects treeId).map fun cache => { cache with dbi := p.dbi }

def Program.setObject (p : Program) (treeId : UInt64) (t : BTreeLMDB cfg) : Program where
  dbi := t.dbi
  objects := Function.update p.objects treeId (some t.toBTreeCache)

variable (cfg) in
def Program.step (p : Program) : Event α → Except Err (Answer α) × Program
  | .construct treeId =>
      match BTreeLMDB.make p.dbi treeId with
      | .ok t => (.ok .nothing, p.setObject treeId (t : BTreeLMDB cfg))
      | .error e => (.error e, p)
  | .destroy treeId =>
      match p.object cfg treeId with
      | some t => (.ok .nothing, { dbi := t.flush.dbi, objects := Function.update p.objects treeId none })
      | none => (.error .nullDeref, p)
  | .flush treeId =>
      match p.object cfg treeId with
      | some t => (.ok .nothing, p.setObject treeId t.flush)
      | none => (.error .nullDeref, p)
  | .call treeId call =>
      match p.object cfg treeId with
      | some t => ((t.perform call).1, p.setObject treeId (t.perform call).2)
      | none => (.error .nullDeref, p)

variable (cfg) in
/-- What the events return, and what they leave. -/
def Program.run (p : Program) : List (Event α) → List (Except Err (Answer α)) × Program
  | [] => ([], p)
  | event :: events =>
      let rest := (p.step cfg event).2.run events
      ((p.step cfg event).1 :: rest.1, rest.2)

/-- There is never more than one object of a tree, and what is used is live. -/
def Allowed : Finset UInt64 → List (Event α) → Prop
  | _, [] => True
  | live, .construct treeId :: events => treeId ∉ live ∧ Allowed (insert treeId live) events
  | live, .destroy treeId :: events => treeId ∈ live ∧ Allowed (live.erase treeId) events
  | live, .flush treeId :: events => treeId ∈ live ∧ Allowed live events
  | live, .call treeId _ :: events => treeId ∈ live ∧ Allowed live events

instance Allowed.decidable : (live : Finset UInt64) → (events : List (Event α)) → Decidable (Allowed live events)
  | _, [] => inferInstanceAs (Decidable True)
  | live, .construct treeId :: events =>
      haveI := decidable (insert treeId live) events
      inferInstanceAs (Decidable (_ ∧ _))
  | live, .destroy treeId :: events =>
      haveI := decidable (live.erase treeId) events
      inferInstanceAs (Decidable (_ ∧ _))
  | live, .flush _ :: events =>
      haveI := decidable live events
      inferInstanceAs (Decidable (_ ∧ _))
  | live, .call _ _ :: events =>
      haveI := decidable live events
      inferInstanceAs (Decidable (_ ∧ _))

/-- The same events with a tree in memory for each id: only the calls mean something there. -/
def memStep (trees : UInt64 → BTreeMem cfg) : Event α → Except Err (Answer α) × (UInt64 → BTreeMem cfg)
  | .call treeId call =>
      (((trees treeId).perform call).1, Function.update trees treeId ((trees treeId).perform call).2)
  | _ => (.ok .nothing, trees)

def memRun (trees : UInt64 → BTreeMem cfg) : List (Event α) → List (Except Err (Answer α)) × (UInt64 → BTreeMem cfg)
  | [] => ([], trees)
  | event :: events =>
      let rest := memRun (memStep trees event).2 events
      ((memStep trees event).1 :: rest.1, rest.2)

end

end NE.Storage
