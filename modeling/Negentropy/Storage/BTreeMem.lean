import Negentropy.Storage.BTree.Core

/-! `storage/BTreeMem.h`: the B+tree in memory, and the calls a user makes on it. -/

namespace NE.Storage

open BTree

structure BTreeMem (cfg : Config) where
  nodeStorageMap : ℕ → Option Node := fun _ => none
  rootNodeId : ℕ := 0 -- 0 means no root
  nextNodeId : ℕ := 1

namespace BTreeMem

variable {cfg : Config}

def getNodeRead (t : BTreeMem cfg) (nodeId : ℕ) : Option Node :=
  if nodeId = 0 then none else t.nodeStorageMap nodeId

/-- `_nodeStorageMap.try_emplace(nodeId)` for the next id. -/
def makeNode (t : BTreeMem cfg) : ℕ × BTreeMem cfg :=
  (t.nextNodeId,
    { t with
      nextNodeId := t.nextNodeId + 1
      nodeStorageMap := fun id =>
        if id = t.nextNodeId then some ((t.nodeStorageMap id).getD (Node.zero cfg))
        else t.nodeStorageMap id })

def writeNode (t : BTreeMem cfg) (nodeId : ℕ) (node : Node) : BTreeMem cfg :=
  { t with nodeStorageMap := fun id => if id = nodeId then some node else t.nodeStorageMap id }

def deleteNode (t : BTreeMem cfg) (nodeId : ℕ) : BTreeMem cfg :=
  { t with nodeStorageMap := fun id => if id = nodeId then none else t.nodeStorageMap id }

instance : NodeStore (BTreeMem cfg) where
  getNodeRead t nodeId := .ok (t.getNodeRead nodeId)
  getNodeWrite t nodeId := .ok (t.getNodeRead nodeId, t)
  writeNode := writeNode
  makeNode := makeNode
  deleteNode t nodeId := .ok (t.deleteNode nodeId)
  getRootNodeId t := t.rootNodeId
  setRootNodeId t newRootNodeId := { t with rootNodeId := newRootNodeId }
  maxDepth t := t.nextNodeId

instance [Sha256] : StorageBase (BTreeMem cfg) where
  size := BTree.size
  getItem := BTree.getItem
  iterate := BTree.iterate
  findLowerBound := BTree.findLowerBound
  fingerprint := BTree.fingerprint

/-- A call that changes the tree. -/
inductive Op where
  | insertItem (item : Item)
  | eraseItem (item : Item)

def apply (t : BTreeMem cfg) : Op → Except Err (Bool × BTreeMem cfg)
  | .insertItem item => BTree.insertItem cfg t item
  | .eraseItem item => BTree.eraseItem cfg t item

/-- A sequence of calls: what they returned, and the tree they left. -/
def run (t : BTreeMem cfg) : List Op → Except Err (List Bool × BTreeMem cfg)
  | [] => .ok ([], t)
  | op :: ops => do
      let (r, t) ← t.apply op
      let (rs, t) ← t.run ops
      return (r :: rs, t)

end BTreeMem

end NE.Storage
