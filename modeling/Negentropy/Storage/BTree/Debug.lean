import Mathlib.Data.Finset.Basic
import Negentropy.Storage.BTreeMem

/-! `storage/btree/debug.h`: the check of a whole tree that the fuzz test makes after each change. -/

namespace NE.BTree

open NodeStore

structure VerifyContext where
  leafDepth : Option ℕ := none
  allNodeIds : Finset ℕ := ∅
  leafNodeIds : List ℕ := []

/-- `if (p) throw err("verify: ...")`. -/
def throwIf (p : Prop) [Decidable p] (what : String) : Except Err Unit :=
  if p then .error (.err ("verify: " ++ what)) else .ok ()

/-- All leaves are to have the depth of the first one. -/
def noteLeaf (ctx : VerifyContext) (nodeId depth : ℕ) (node : Node) : Except Err VerifyContext :=
  if (node.key 0).nodeId = 0 then do
    throwIf (∃ leafDepth ∈ ctx.leafDepth, leafDepth ≠ depth) "mismatch of leaf depth"
    return { ctx with leafDepth := some depth, leafNodeIds := ctx.leafNodeIds ++ [nodeId] }
  else return ctx

section
variable {τ : Type} [NodeStore τ]

/-- `verify` of a node and of those below; `out` is what the pointers `accumOut` and `accumCountOut` lead to. The
first argument bounds the depth, and is no part of the source. -/
def verifyNode (cfg : Config) (t : τ) :
    ℕ → (nodeId depth : ℕ) → VerifyContext → Accumulator × ℕ → Except Err (VerifyContext × (Accumulator × ℕ))
  | 0, _, _, _, _ => throw (.err "too deep")
  | rounds + 1, nodeId, depth, ctx, out => do
      if nodeId = 0 then return (ctx, out)
      else
        throwIf (nodeId ∈ ctx.allNodeIds) "saw node id again"
        let ctx := { ctx with allNodeIds := insert nodeId ctx.allNodeIds }
        let node ← readNode t nodeId
        throwIf (node.numItems = 0) "empty node"
        throwIf (node.nextSibling ≠ 0 ∧ node.numItems < cfg.MIN_ITEMS) "too few items in node"
        throwIf (node.numItems > cfg.MAX_ITEMS) "too many items"
        let ctx ← noteLeaf ctx nodeId depth node
        let (ctx, sum) ← keys rounds depth (node.items.take node.numItems) ctx (Accumulator.setToZero, 0)
        throwIf (∃ k ∈ node.items.drop node.numItems, k ≠ Key.zero) "memory not zeroed out"
        throwIf (sum.2 ≠ node.accumCount) "accumCount mismatch"
        throwIf (sum.1 ≠ node.accum) "accum mismatch"
        return (ctx, (out.1.add sum.1, out.2 + sum.2))
where
  /-- The loop over the keys. -/
  keys (rounds depth : ℕ) :
      List Key → VerifyContext → Accumulator × ℕ → Except Err (VerifyContext × (Accumulator × ℕ))
    | [], ctx, sum => return (ctx, sum)
    | k :: ks, ctx, sum => do
        let (ctx, sum) ←
          if k.nodeId = 0 then pure (ctx, (sum.1.addItem k.item, sum.2 + 1))
          else do
            let firstChild ← readNode t k.nodeId
            throwIf (firstChild.numItems = 0 ∨ (firstChild.key 0).item ≠ k.item) "key does not match child's first key"
            verifyNode cfg t rounds k.nodeId (depth + 1) ctx sum
        throwIf (∃ next ∈ ks.head?, ¬ k.item < next.item) "items out of order"
        keys rounds depth ks ctx sum

/-- The items of a leaf: the one before them and how many there were so far are handed on. -/
def verifyItems : List Key → Option Item × ℕ → Except Err (Option Item × ℕ)
  | [], st => return st
  | k :: ks, st => do
      throwIf (∃ prevItem ∈ st.1, ¬ prevItem < k.item) "leaf item out of order"
      verifyItems ks (some k.item, st.2 + 1)

/-- The walk along the leaves, at the node `nodeId`, if there is one; the leaves found before are those to come. -/
def verifyLeaves (t : τ) :
    (leafNodeIds : List ℕ) → (nodeId : ℕ) → Option Node → (prevSibling : ℕ) → Option Item × ℕ → Except Err ℕ
  | _, _, none, _, st => return st.2
  | [], _, some _, _, _ => throw .outOfRange
  | leafNodeId :: leafNodeIds, nodeId, some node, prevSibling, st => do
      throwIf (nodeId ≠ leafNodeId) "leaf id mismatch"
      throwIf (prevSibling ≠ node.prevSibling) "prevSibling mismatch"
      let nodePtr ← getNodeRead t node.nextSibling
      let st ← verifyItems (node.items.take node.numItems) st
      verifyLeaves t leafNodeIds node.nextSibling nodePtr nodeId st

/-- `verify` but for the check for leaks. -/
def verifyTree (cfg : Config) (t : τ) (rounds : ℕ) : Except Err VerifyContext := do
  let (ctx, sum) ← verifyNode cfg t rounds (getRootNodeId t) 0 {} (Accumulator.setToZero, 0)
  match ctx.leafNodeIds with
  | [] => return ctx
  | leafNodeId :: _ => do
      let totalItems ← verifyLeaves t ctx.leafNodeIds leafNodeId (← getNodeRead t leafNodeId) 0 (none, 0)
      throwIf (totalItems ≠ sum.2) "leaf count mismatch"
      return ctx

end

end NE.BTree

namespace NE.Storage.BTreeMem

open BTree

variable {cfg : Config}

/-- `verify`. `keys` lists the keys of `_nodeStorageMap`; `rounds` bounds the depth, and is no part of the source. -/
def verify (t : BTreeMem cfg) (rounds : ℕ) (keys : List ℕ) : Except Err Unit := do
  let ctx ← verifyTree cfg t rounds
  throwIf (∃ id ∈ keys, id ∉ ctx.allNodeIds) "memory leak"
  throwIf (∃ id ∈ ctx.allNodeIds, t.nodeStorageMap id = none) "dangling node"

end NE.Storage.BTreeMem
