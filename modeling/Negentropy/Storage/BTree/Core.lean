import Negentropy.Storage.Base

/-! `storage/btree/core.h`: the B+tree over an abstract store of nodes. A reference to
a node is its id; an assignment through it writes the node back. A dereferenced null
pointer ends the call in `Err.nullDeref`. -/

namespace NE.BTree

/-- The three constants of a build. Besides the static assertions of the source, both builds
satisfy the two relations at the end. -/
structure Config where
  MIN_ITEMS : ℕ
  REBALANCE_THRESHOLD : ℕ
  MAX_ITEMS : ℕ
  min_lt_rebalance : MIN_ITEMS < REBALANCE_THRESHOLD
  rebalance_lt_max : REBALANCE_THRESHOLD < MAX_ITEMS
  min_lt_half_max : MIN_ITEMS < MAX_ITEMS / 2
  all_even : MIN_ITEMS % 2 = 0 ∧ REBALANCE_THRESHOLD % 2 = 0 ∧ MAX_ITEMS % 2 = 0
  two_le_min : 2 ≤ MIN_ITEMS
  twice_min_le : 2 * MIN_ITEMS ≤ REBALANCE_THRESHOLD

/-- Production mode. -/
def Config.production : Config where
  MIN_ITEMS := 30
  REBALANCE_THRESHOLD := 60
  MAX_ITEMS := 80
  min_lt_rebalance := by decide
  rebalance_lt_max := by decide
  min_lt_half_max := by decide
  all_even := by decide
  two_le_min := by decide
  twice_min_le := by decide

/-- Fuzz test mode (`NE_FUZZ_TEST`). -/
def Config.fuzzTest : Config where
  MIN_ITEMS := 2
  REBALANCE_THRESHOLD := 4
  MAX_ITEMS := 6
  min_lt_rebalance := by decide
  rebalance_lt_max := by decide
  min_lt_half_max := by decide
  all_even := by decide
  two_le_min := by decide
  twice_min_le := by decide

/-- A key of a leaf has `nodeId` 0; any other points to a child, whose first item it repeats. -/
@[ext] structure Key where
  item : Item := {}
  nodeId : ℕ := 0
  deriving DecidableEq

def Key.zero : Key := {}

instance : LT Key := ⟨fun a b => a.item < b.item⟩
instance : DecidableLT Key := fun a b => inferInstanceAs (Decidable (a.item < b.item))

/-- `items` is the whole array of `MAX_ITEMS + 1` slots. -/
@[ext] structure Node where
  numItems : ℕ
  accumCount : ℕ
  nextSibling : ℕ
  prevSibling : ℕ
  accum : Accumulator
  items : List Key
  deriving DecidableEq

namespace Node

/-- The constructor: all bytes zero. -/
def zero (cfg : Config) : Node where
  numItems := 0
  accumCount := 0
  nextSibling := 0
  prevSibling := 0
  accum := Accumulator.setToZero
  items := List.replicate (cfg.MAX_ITEMS + 1) Key.zero

/-- `node.items[i]`. -/
def key (node : Node) (i : ℕ) : Key := node.items.getD i Key.zero

end Node

/-- The virtual functions of `BTreeCore`. A `NodePtr` is read as the node it points to, `none`
being the null pointer; `writeNode` stands for the assignments through a pointer that
`getNodeWrite` or `makeNode` returned. `maxDepth` bounds the levels of the tree: it is no
part of the source, where a descent just follows the pointers. -/
class NodeStore (τ : Type) where
  getNodeRead : τ → ℕ → Except Err (Option Node)
  getNodeWrite : τ → ℕ → Except Err (Option Node × τ)
  writeNode : τ → ℕ → Node → τ
  makeNode : τ → ℕ × τ
  deleteNode : τ → ℕ → Except Err τ
  getRootNodeId : τ → ℕ
  setRootNodeId : τ → ℕ → τ
  maxDepth : τ → ℕ

structure Breadcrumb where
  index : ℕ
  nodeId : ℕ

section
variable {τ : Type} [NodeStore τ]

open NodeStore

/-- `NodePtr::get` on a pointer that was read. -/
def deref : Option Node → Except Err Node
  | some node => .ok node
  | none => .error .nullDeref

def readNode (t : τ) (nodeId : ℕ) : Except Err Node := do deref (← getNodeRead t nodeId)

/-- `auto &node = getNodeWrite(nodeId).get()` and the assignments `f` to it. -/
def modifyNode (t : τ) (nodeId : ℕ) (f : Node → Node) : Except Err τ := do
  let (ptr, t) ← getNodeWrite t nodeId
  let node ← deref ptr
  return writeNode t nodeId (f node)

/-! ### Search -/

/-- The position in a node that a search follows. -/
def searchIndex (node : Node) (newItem : Item) : ℕ :=
  if node.numItems > 1 then
    match (List.range' 1 node.numItems).find?
        (fun i => i == node.numItems + 1 || decide (newItem < (node.key i).item)) with
    | some i => i - 1
    | none => node.numItems - 1
  else node.numItems - 1

/-- The descent of `searchItem` from `nodeId`; the last breadcrumb pushed comes first. -/
def searchFrom (t : τ) (newItem : Item) : ℕ → ℕ → Bool → List Breadcrumb → Except Err (Bool × List Breadcrumb)
  | 0, _, found, breadcrumbs => return (found, breadcrumbs)
  | depth + 1, nodeId, found, breadcrumbs => do
      match ← getNodeRead t nodeId with
      | none => return (found, breadcrumbs)
      | some node =>
          let index := searchIndex node newItem
          let found := found || newItem == (node.key index).item
          searchFrom t newItem depth (node.key index).nodeId found (⟨index, nodeId⟩ :: breadcrumbs)

def searchItem (t : τ) (rootNodeId : ℕ) (newItem : Item) : Except Err (Bool × List Breadcrumb) :=
  searchFrom t newItem (maxDepth t) rootNodeId false []

/-! ### Utilities -/

def refreshIndex (t : τ) (nodeId index : ℕ) : Except Err τ := do
  let node ← readNode t nodeId
  match ← getNodeRead t (node.key index).nodeId with
  | none => return t
  | some childNode =>
      modifyNode t nodeId fun node =>
        { node with items := node.items.set index { node.key index with item := (childNode.key 0).item } }

/-- `addToAccum` on the accumulator and the count of a node. -/
def addToAccum (t : τ) (acc : Accumulator × ℕ) (k : Key) : Except Err (Accumulator × ℕ) := do
  if k.nodeId = 0 then return (acc.1.addItem k.item, acc.2 + 1)
  else
    let node ← readNode t k.nodeId
    return (acc.1.add node.accum, acc.2 + node.accumCount)

/-- The loops that sum up keys. -/
def sumKeys (t : τ) : List Key → Accumulator × ℕ → Except Err (Accumulator × ℕ)
  | [], acc => return acc
  | k :: ks, acc => do sumKeys t ks (← addToAccum t acc k)

/-- `std::inplace_merge(items, items + n, items + n + 1)` after `items[n] = newKey`: the
merge is stable, and takes from the second part only what is less. -/
def mergeKey (items : List Key) (n : ℕ) (newKey : Key) : List Key :=
  List.merge (items.take n) [newKey] (fun a b => !decide (b < a)) ++ items.drop (n + 1)

/-- `memmove` and `memcpy` of keys: `n` slots of `src` from `srcPos` on to `dst` at `dstPos`. -/
def copyKeys (dst : List Key) (dstPos : ℕ) (src : List Key) (srcPos n : ℕ) : List Key :=
  dst.take dstPos ++ (src.drop srcPos).take n ++ dst.drop (dstPos + n)

/-- `setToZero` on the slots `begin_ .. end_ - 1`. -/
def zeroKeys (items : List Key) (begin_ end_ : ℕ) : List Key :=
  copyKeys items begin_ (List.replicate (end_ - begin_) Key.zero) 0 (end_ - begin_)

/-! ### Insert -/

/-- What the loop of `insertItem` carries from node to node. -/
structure InsertState (τ : Type) where
  store : τ
  newKey : Key
  needsMerge : Bool := true

/-- Happy path: node has room for new item. -/
def insertKey (newItem : Item) (newKey : Key) (node : Node) : Node :=
  { node with
    items := mergeKey node.items node.numItems newKey
    numItems := node.numItems + 1
    accum := node.accum.addItem newItem
    accumCount := node.accumCount + 1 }

/-- Node is full: split it into 2. -/
def splitNode (cfg : Config) (t : τ) (nodeId : ℕ) (newKey : Key) : Except Err (InsertState τ) := do
  let (ptr, t) ← getNodeWrite t nodeId
  let left ← deref ptr
  let (rightId, t) := makeNode t
  let right ← readNode t rightId
  let items := mergeKey left.items cfg.MAX_ITEMS newKey
  let leftNum := if left.nextSibling = 0 then cfg.MAX_ITEMS else cfg.MAX_ITEMS / 2 + 1
  let rightNum := if left.nextSibling = 0 then 1 else cfg.MAX_ITEMS / 2
  let leftSum ← sumKeys t (items.take leftNum) (Accumulator.setToZero, 0)
  let rightSum ← sumKeys t ((items.drop leftNum).take rightNum) (right.accum, right.accumCount)
  let t := writeNode t rightId
    { right with
      numItems := rightNum
      items := copyKeys right.items 0 items leftNum rightNum
      accum := rightSum.1
      accumCount := rightSum.2
      nextSibling := left.nextSibling
      prevSibling := nodeId }
  let t := writeNode t nodeId
    { left with
      numItems := leftNum
      items := zeroKeys items leftNum (cfg.MAX_ITEMS + 1)
      accum := leftSum.1
      accumCount := leftSum.2
      nextSibling := rightId }
  let t ←
    if left.nextSibling ≠ 0 then
      modifyNode t left.nextSibling fun rightRight => { rightRight with prevSibling := rightId }
    else pure t
  return { store := t, newKey := ⟨(items.getD leftNum Key.zero).item, rightId⟩ }

/-- One breadcrumb of `insertItem`. -/
def insertStep (cfg : Config) (newItem : Item) (st : InsertState τ) (crumb : Breadcrumb) :
    Except Err (InsertState τ) := do
  let node ← readNode st.store crumb.nodeId
  let st ←
    if ¬ st.needsMerge then do
      let t ← modifyNode st.store crumb.nodeId fun node =>
        { node with accum := node.accum.addItem newItem, accumCount := node.accumCount + 1 }
      pure { st with store := t }
    else if node.numItems < cfg.MAX_ITEMS then do
      let t ← modifyNode st.store crumb.nodeId (insertKey newItem st.newKey)
      pure { st with store := t, needsMerge := false }
    else splitNode cfg st.store crumb.nodeId st.newKey
  -- Update left-most key, in case item was inserted at the beginning
  let t ← refreshIndex st.store crumb.nodeId 0
  return { st with store := t }

/-- Follow breadcrumbs back to root. -/
def insertLoop (cfg : Config) (newItem : Item) : List Breadcrumb → InsertState τ → Except Err (InsertState τ)
  | [], st => return st
  | crumb :: breadcrumbs, st => do insertLoop cfg newItem breadcrumbs (← insertStep cfg newItem st crumb)

/-- New level required. -/
def growRoot (t : τ) (rootNodeId : ℕ) (newKey : Key) : Except Err τ := do
  let left ← readNode t rootNodeId
  let right ← readNode t newKey.nodeId
  let (newRootId, t) := makeNode t
  let newRoot ← readNode t newRootId
  let t := writeNode t newRootId
    { newRoot with
      numItems := 2
      accum := (newRoot.accum.add left.accum).add right.accum
      accumCount := left.accumCount + right.accumCount
      items := (newRoot.items.set 0 { left.key 0 with nodeId := rootNodeId }).set 1
        { right.key 0 with nodeId := newKey.nodeId } }
  return setRootNodeId t newRootId

def insertItem (cfg : Config) (t : τ) (newItem : Item) : Except Err (Bool × τ) := do
  let rootNodeId := getRootNodeId t
  if rootNodeId = 0 then
    -- Make root leaf in case it doesn't exist
    let (newNodeId, t) := makeNode t
    let newNode ← readNode t newNodeId
    let t := writeNode t newNodeId
      { newNode with
        items := newNode.items.set 0 { newNode.key 0 with item := newItem }
        numItems := newNode.numItems + 1
        accum := newNode.accum.addItem newItem
        accumCount := 1 }
    return (true, setRootNodeId t newNodeId)
  else
    let (found, breadcrumbs) ← searchItem t rootNodeId newItem
    if found then return (false, t)
    else
      let st ← insertLoop cfg newItem breadcrumbs { store := t, newKey := ⟨newItem, 0⟩ }
      let t ← if st.needsMerge then growRoot st.store rootNodeId st.newKey else pure st.store
      return (true, t)

/-! ### Erase -/

/-- What the loop of `eraseItem` carries from node to node. -/
structure EraseState (τ : Type) where
  store : τ
  needsRemove : Bool := true
  neighbourRefreshNeeded : Bool := false

/-- Removal of the key at `index`. -/
def removeKey (oldItem : Item) (index : ℕ) (node : Node) : Node :=
  let items := copyKeys node.items index node.items (index + 1) (node.numItems - (index + 1))
  { node with
    items := items.set (node.numItems - 1) Key.zero
    numItems := node.numItems - 1
    accum := node.accum.subItem oldItem
    accumCount := node.accumCount - 1 }

/-- The lambda `rebalance`; it says whether `neighbourRefreshNeeded` was set. -/
def rebalance (t : τ) (leftId rightId : ℕ) : Except Err (τ × Bool) := do
  let leftNode ← readNode t leftId
  let rightNode ← readNode t rightId
  let totalItems := leftNode.numItems + rightNode.numItems
  let numLeft := (totalItems + 1) / 2
  let numRight := totalItems - numLeft
  if rightNode.numItems ≥ numRight then
    -- Move extra from right to left
    let numMove := rightNode.numItems - numRight
    let (accum, accumCount) ← sumKeys t (rightNode.items.take numMove) (Accumulator.setToZero, 0)
    let rightItems := copyKeys rightNode.items 0 rightNode.items numMove (rightNode.numItems - numMove)
    let t := writeNode t leftId
      { leftNode with
        items := copyKeys leftNode.items leftNode.numItems rightNode.items 0 numMove
        accum := leftNode.accum.add accum
        accumCount := leftNode.accumCount + accumCount
        numItems := numLeft }
    let t := writeNode t rightId
      { rightNode with
        items := zeroKeys rightItems numRight rightNode.numItems
        accum := rightNode.accum.sub accum
        accumCount := rightNode.accumCount - accumCount
        numItems := numRight }
    return (t, true)
  else
    -- Move extra from left to right
    let numMove := leftNode.numItems - numLeft
    let moved := (leftNode.items.drop numLeft).take numMove
    let (accum, accumCount) ← sumKeys t moved (Accumulator.setToZero, 0)
    let rightItems := copyKeys rightNode.items numMove rightNode.items 0 rightNode.numItems
    let t := writeNode t rightId
      { rightNode with
        items := copyKeys rightItems 0 leftNode.items numLeft numMove
        accum := rightNode.accum.add accum
        accumCount := rightNode.accumCount + accumCount
        numItems := numRight }
    let t := writeNode t leftId
      { leftNode with
        items := zeroKeys leftNode.items numLeft leftNode.numItems
        accum := leftNode.accum.sub accum
        accumCount := leftNode.accumCount - accumCount
        numItems := numLeft }
    return (t, false)

/-- Move all items into right. -/
def moveIntoRight (t : τ) (leftId rightId : ℕ) : Except Err τ := do
  let leftNode ← readNode t leftId
  let t ← modifyNode t rightId fun rightNode =>
    let items := copyKeys rightNode.items leftNode.numItems rightNode.items 0 rightNode.numItems
    { rightNode with
      items := copyKeys items 0 leftNode.items 0 leftNode.numItems
      numItems := rightNode.numItems + leftNode.numItems
      accumCount := rightNode.accumCount + leftNode.accumCount
      accum := rightNode.accum.add leftNode.accum }
  let t ←
    if leftNode.prevSibling ≠ 0 then
      modifyNode t leftNode.prevSibling fun node => { node with nextSibling := leftNode.nextSibling }
    else pure t
  let t ← modifyNode t rightId fun rightNode => { rightNode with prevSibling := leftNode.prevSibling }
  modifyNode t leftId fun leftNode => { leftNode with numItems := 0 }

/-- Move all items into left. -/
def moveIntoLeft (t : τ) (leftId rightId : ℕ) : Except Err τ := do
  let rightNode ← readNode t rightId
  let t ← modifyNode t leftId fun leftNode =>
    { leftNode with
      items := copyKeys leftNode.items leftNode.numItems rightNode.items 0 rightNode.numItems
      numItems := leftNode.numItems + rightNode.numItems
      accumCount := leftNode.accumCount + rightNode.accumCount
      accum := leftNode.accum.add rightNode.accum }
  let t ←
    if rightNode.nextSibling ≠ 0 then
      modifyNode t rightNode.nextSibling fun node => { node with prevSibling := rightNode.prevSibling }
    else pure t
  let t ← modifyNode t leftId fun leftNode => { leftNode with nextSibling := rightNode.nextSibling }
  modifyNode t rightId fun rightNode => { rightNode with numItems := 0 }

/-- The part of an iteration of `eraseItem` that deals with a node that has become too small:
`parent` is the next breadcrumb. -/
def fixUnderflow (cfg : Config) (t : τ) (nodeId : ℕ) (parent : Breadcrumb) : Except Err (τ × Bool) := do
  let node ← readNode t nodeId
  let parentNode ← readNode t parent.nodeId
  if node.numItems < cfg.MIN_ITEMS ∧ parentNode.numItems > 1 then
    if parent.index = 0 then
      -- Use neighbour to the right
      let rightNode ← readNode t node.nextSibling
      if node.numItems + rightNode.numItems ≤ cfg.REBALANCE_THRESHOLD then
        return (← moveIntoRight t nodeId node.nextSibling, false)
      else rebalance t nodeId node.nextSibling
    else
      -- Use neighbour to the left
      let leftNode ← readNode t node.prevSibling
      if leftNode.numItems + node.numItems ≤ cfg.REBALANCE_THRESHOLD then
        return (← moveIntoLeft t node.prevSibling nodeId, false)
      else rebalance t node.prevSibling nodeId
  else return (t, false)

/-- The end of an iteration of `eraseItem`: an empty node is unlinked and deleted. -/
def dropEmpty (t : τ) (nodeId : ℕ) : Except Err (τ × Bool) := do
  let node ← readNode t nodeId
  if node.numItems = 0 then
    let t ←
      if node.prevSibling ≠ 0 then
        modifyNode t node.prevSibling fun prev => { prev with nextSibling := node.nextSibling }
      else pure t
    let t ←
      if node.nextSibling ≠ 0 then
        modifyNode t node.nextSibling fun next => { next with prevSibling := node.prevSibling }
      else pure t
    return (← deleteNode t nodeId, true)
  else return (t, false)

/-- One breadcrumb of `eraseItem`, `breadcrumbs` being those above it. -/
def eraseStep (cfg : Config) (oldItem : Item) (st : EraseState τ) (crumb : Breadcrumb)
    (breadcrumbs : List Breadcrumb) : Except Err (EraseState τ) := do
  let t ← modifyNode st.store crumb.nodeId fun node =>
    if st.needsRemove then removeKey oldItem crumb.index node
    else { node with accum := node.accum.subItem oldItem, accumCount := node.accumCount - 1 }
  let node ← readNode t crumb.nodeId
  let t ← if crumb.index < node.numItems then refreshIndex t crumb.nodeId crumb.index else pure t
  let t ← if st.neighbourRefreshNeeded then refreshIndex t crumb.nodeId (crumb.index + 1) else pure t
  let (t, neighbourRefreshNeeded) ←
    match breadcrumbs with
    | [] => pure (t, false)
    | parent :: _ => fixUnderflow cfg t crumb.nodeId parent
  let (t, needsRemove) ← dropEmpty t crumb.nodeId
  return { store := t, needsRemove, neighbourRefreshNeeded }

def eraseLoop (cfg : Config) (oldItem : Item) : List Breadcrumb → EraseState τ → Except Err (EraseState τ)
  | [], st => return st
  | crumb :: breadcrumbs, st => do
      eraseLoop cfg oldItem breadcrumbs (← eraseStep cfg oldItem st crumb breadcrumbs)

/-- A root with a single child gives way to it. -/
def shrinkRoot (t : τ) (rootNodeId : ℕ) : Except Err τ := do
  let node ← readNode t rootNodeId
  if node.numItems = 1 ∧ (node.key 0).nodeId ≠ 0 then
    deleteNode (setRootNodeId t (node.key 0).nodeId) rootNodeId
  else return t

def eraseItem (cfg : Config) (t : τ) (oldItem : Item) : Except Err (Bool × τ) := do
  let rootNodeId := getRootNodeId t
  if rootNodeId = 0 then return (false, t)
  else
    let (found, breadcrumbs) ← searchItem t rootNodeId oldItem
    if ¬ found then return (false, t)
    else
      let st ← eraseLoop cfg oldItem breadcrumbs { store := t }
      if st.needsRemove then return (true, setRootNodeId st.store 0)
      else return (true, ← shrinkRoot st.store rootNodeId)

/-! ### Interface -/

def size (t : τ) : Except Err ℕ := do
  match ← getNodeRead t (getRootNodeId t) with
  | none => return 0
  | some rootNode => return rootNode.accumCount

def checkBounds (t : τ) (begin_ end_ : ℕ) : Except Err Unit := do
  if begin_ > end_ ∨ end_ > (← size t) then throw (.err "bad range") else return ()

/-- `traverseToOffsetAux`, with the callbacks' state `α`: `cb` runs on the node found and the
index in it, `customAccum` on each child passed by. -/
def traverseToOffsetAux {α : Type} (t : τ) (cb : α → Node → ℕ → Except Err α)
    (customAccum : α → Node → α) : ℕ → ℕ → Node → α → Except Err α
  | 0, _, _, st => return st
  | depth + 1, index, node, st =>
      if node.numItems = node.accumCount then cb st node index
      else children depth (node.items.take node.numItems) index st
where
  /-- The loop over the children. -/
  children (depth : ℕ) : List Key → ℕ → α → Except Err α
    | [], _, st => return st
    | k :: ks, index, st => do
        let child ← readNode t k.nodeId
        if index < child.accumCount then traverseToOffsetAux t cb customAccum depth index child st
        else children depth ks (index - child.accumCount) (customAccum st child)

def traverseToOffset {α : Type} (t : τ) (index : ℕ) (cb : α → Node → ℕ → Except Err α)
    (customAccum : α → Node → α) (st : α) : Except Err α := do
  match ← getNodeRead t (getRootNodeId t) with
  | none => return st
  | some rootNode =>
      if index > rootNode.accumCount then throw (.err "out of range")
      else traverseToOffsetAux t cb customAccum (maxDepth t) index rootNode st

def getItem (t : τ) (index : ℕ) : Except Err Item := do
  if index ≥ (← size t) then throw (.err "out of range")
  else
    let out ← traverseToOffset t index (fun _ node index => return some (node.key index).item)
      (fun out _ => out) none
    match out with
    | some item => return item
    | none => throw .nullDeref

/-- The loop of `iterate` with `num` rounds left, at `index` of `currNode` (`none` past the
last node of the level). -/
def iterateFrom {α : Type} (t : τ) (cb : α → Item → ℕ → α × Bool) :
    ℕ → Option Node → (index i : ℕ) → α → Except Err α
  | 0, _, _, _, st => return st
  | num + 1, currNode, index, i, st => do
      let node ← deref currNode
      match cb st (node.key index).item i with
      | (st, false) => return st
      | (st, true) =>
          if index + 1 ≥ node.numItems then
            iterateFrom t cb num (← getNodeRead t node.nextSibling) 0 (i + 1) st
          else iterateFrom t cb num (some node) (index + 1) (i + 1) st

def iterate {α : Type} (t : τ) (begin_ end_ : ℕ) (cb : α → Item → ℕ → α × Bool) (st : α) :
    Except Err α := do
  checkBounds t begin_ end_
  traverseToOffset t begin_
    (fun st node index => iterateFrom t cb (end_ - begin_) (some node) index begin_ st) (fun st _ => st) st

/-- `findLowerBoundAux`; the loop over the keys keeps the child before the current key. -/
def findLowerBoundAux (t : τ) (value : Bound) : ℕ → Option Node → ℕ → Except Err ℕ
  | _, none, numToLeft => return numToLeft + 1
  | 0, some _, numToLeft => return numToLeft + 1
  | depth + 1, some node, numToLeft => keys depth (node.key 0) ((node.items.take node.numItems).drop 1) numToLeft
where
  /-- The loop over `items[1 ..]`, `prev` being the key before. -/
  keys (depth : ℕ) (prev : Key) : List Key → ℕ → Except Err ℕ
    | [], numToLeft => do findLowerBoundAux t value depth (← getNodeRead t prev.nodeId) numToLeft
    | k :: ks, numToLeft => do
        if value.item ≤ k.item then
          findLowerBoundAux t value depth (← getNodeRead t prev.nodeId) numToLeft
        else if prev.nodeId ≠ 0 then
          keys depth k ks (numToLeft + (← readNode t prev.nodeId).accumCount)
        else keys depth k ks (numToLeft + 1)

def findLowerBound (t : τ) (begin_ end_ : ℕ) (value : Bound) : Except Err ℕ := do
  checkBounds t begin_ end_
  match ← getNodeRead t (getRootNodeId t) with
  | none => return end_
  | some rootNode =>
      if value.item ≤ (rootNode.key 0).item then return begin_
      else return min (← findLowerBoundAux t value (maxDepth t) (some rootNode) 0) end_

/-- The lambda `getAccumLeftOf` of `fingerprint`. -/
def getAccumLeftOf (t : τ) (index : ℕ) : Except Err Accumulator :=
  traverseToOffset t index
    (fun accum node index => return (node.items.take index).foldl (fun accum k => accum.addItem k.item) accum)
    (fun accum node => accum.add node.accum) Accumulator.setToZero

def fingerprint [Sha256] (t : τ) (begin_ end_ : ℕ) : Except Err Fingerprint := do
  checkBounds t begin_ end_
  let accum1 ← getAccumLeftOf t begin_
  let accum2 ← getAccumLeftOf t end_
  return (accum2.add accum1.negate).getFingerprint (UInt64.ofNat (end_ - begin_))

end

end NE.BTree
