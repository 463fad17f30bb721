import SglJax.Foundation.PopOrder
import SglJax.MemCache.KeyedTree

/-! `RadixCache`: the tree, its walks and its lock and size bookkeeping. Slots
handed back to the allocator are returned as the list of `free` calls made, in
order, so that the cache can be studied apart from the allocator behind it.
Access times only decide the order of eviction, which is left open. -/
namespace SglJax.MemCache

open Foundation Foundation.NodeTable

structure RadixNode where
  key : RadixKey
  value : List Nat
  lockRef : Int
deriving DecidableEq, Repr

instance : Keyed RadixNode := ⟨RadixNode.key⟩

/-- One call of `token_to_kv_pool_allocator.free`. -/
structure FreeCall where
  indices : List Nat
  dpRank : Nat
deriving DecidableEq, Repr

structure MatchResult where
  deviceIndices : List Nat
  lastDeviceNode : Nat
  lastHostNode : Nat
  bestMatchNode : Nat
  hostHitLength : Nat
deriving DecidableEq, Repr

structure RadixCache where
  pageSize : Nat
  disable : Bool
  isEagle : Bool
  tree : Tree RadixNode
  evictableSize : Nat → Int
  protectedSize : Nat → Int
  counter : Nat

namespace RadixCache

/-- `reset` of a cache built with these settings. -/
def reset (pageSize : Nat) (disable isEagle : Bool) : RadixCache where
  pageSize := pageSize
  disable := disable
  isEagle := isEagle
  tree := []
  evictableSize := fun _ => 0
  protectedSize := fun _ => 0
  counter := rootId + 1

/-- `sizes[rank] += amount` on a `defaultdict(int)`. -/
def bump (sizes : Nat → Int) (rank : Nat) (amount : Int) : Nat → Int :=
  fun r => if r = rank then sizes r + amount else sizes r

def topHalf (splitLen : Nat) (d : RadixNode) : RadixNode :=
  { d with key := d.key.take splitLen, value := d.value.take splitLen }

def bottomHalf (splitLen : Nat) (d : RadixNode) : RadixNode :=
  { d with key := d.key.drop splitLen, value := d.value.drop splitLen }

/-- `_split_node`: the new node takes over the first part of the child's label
and value, its lock count, and its place under the parent. -/
def splitNode (c : RadixCache) (child : TreeNode RadixNode) (splitLen : Nat) :
    Except CacheError (RadixCache × Nat) := do
  let bottomSlot ← getChildKey c.pageSize (child.data.key.drop splitLen)
  let topSlot ← getChildKey c.pageSize child.data.key
  return ({ c with
    tree := c.tree.splice child.id c.counter topSlot bottomSlot
      (topHalf splitLen) (bottomHalf splitLen)
    counter := c.counter + 1 }, c.counter)

/-- `child_key = self.get_child_key_fn(key)` when some of the key is left. -/
def nextChildKey (c : RadixCache) (key : RadixKey) (childKey : PyVal) :
    Except CacheError PyVal :=
  if key.length = 0 then return childKey else getChildKey c.pageSize key

/-- The loop of `_match_prefix_helper`. -/
def matchLoop : Nat → RadixCache → Nat → RadixKey → PyVal → List (List Nat) →
    Except CacheError (RadixCache × List (List Nat) × Nat)
  | 0, _, _, _, _, _ => .error .diverges
  | fuel + 1, c, node, key, childKey, tokenSequences =>
    if key.length = 0 then .ok (c, tokenSequences, node)
    else
      match c.tree.child? node childKey with
      | none => .ok (c, tokenSequences, node)
      | some child => do
        let prefixLen ← keyMatchFn c.pageSize child.data.key key
        if prefixLen < child.data.key.length then
          let (c, newNode) ← c.splitNode child prefixLen
          return (c, tokenSequences ++ [child.data.value.take prefixLen], newNode)
        else
          let key := key.drop prefixLen
          let childKey ← c.nextChildKey key childKey
          matchLoop fuel c child.id key childKey (tokenSequences ++ [child.data.value])

def matchPrefixHelper (c : RadixCache) (key : RadixKey) :
    Except CacheError (RadixCache × List (List Nat) × Nat) := do
  let childKey ← getChildKey c.pageSize key
  matchLoop (key.length + 1) c rootId key childKey []

def emptyMatch : MatchResult := ⟨[], rootId, rootId, rootId, 0⟩

def pageAlign (c : RadixCache) (key : RadixKey) : RadixKey :=
  if c.pageSize ≠ 1 then key.take (key.length / c.pageSize * c.pageSize) else key

def matchPrefix (c : RadixCache) (key : RadixKey) :
    Except CacheError (RadixCache × MatchResult) := do
  if c.disable || key.length = 0 then
    return (c, emptyMatch)
  let convertedKey := { key with tokenIds := keyConvertFn c.isEagle key.tokenIds }
  let (c, tokenSequences, lastNode) ← c.matchPrefixHelper (c.pageAlign convertedKey)
  return (c, ⟨tokenSequences.flatten, lastNode, lastNode, lastNode, 0⟩)

/-- The loop of `_insert_helper`; it ends with the node to extend and what is
left of the key and the value. -/
def insertLoop : Nat → RadixCache → Nat → RadixKey → List Nat → PyVal → Nat →
    Except CacheError (RadixCache × Nat × RadixKey × List Nat × PyVal × Nat)
  | 0, _, _, _, _, _, _ => .error .diverges
  | fuel + 1, c, node, key, value, childKey, totalPrefixLength =>
    if key.length = 0 then .ok (c, node, key, value, childKey, totalPrefixLength)
    else
      match c.tree.child? node childKey with
      | none => .ok (c, node, key, value, childKey, totalPrefixLength)
      | some child => do
        let prefixLen ← keyMatchFn c.pageSize child.data.key key
        let key := key.drop prefixLen
        let value := value.drop prefixLen
        let (c, node) ←
          if prefixLen < child.data.key.length then c.splitNode child prefixLen
          else pure (c, child.id)
        let childKey ← c.nextChildKey key childKey
        insertLoop fuel c node key value childKey (totalPrefixLength + prefixLen)

def insertHelper (c : RadixCache) (key : RadixKey) (value : List Nat) :
    Except CacheError (RadixCache × Nat) := do
  if key.length = 0 then
    return (c, 0)
  let childKey ← getChildKey c.pageSize key
  let (c, node, key, value, childKey, totalPrefixLength) ←
    insertLoop (key.length + 1) c rootId key value childKey 0
  if key.length = 0 then
    return (c, totalPrefixLength)
  return ({ c with
    tree := c.tree.attach ⟨c.counter, node, childKey, ⟨key, value, 0⟩⟩
    evictableSize := bump c.evictableSize key.rank value.length
    counter := c.counter + 1 }, totalPrefixLength)

def insert (c : RadixCache) (key : RadixKey) (value : List Nat) :
    Except CacheError (RadixCache × Nat) :=
  if c.disable then .ok (c, 0)
  else
    let convertedKey := { key with tokenIds := keyConvertFn c.isEagle key.tokenIds }
    let value := if c.isEagle then value.take convertedKey.length else value
    c.insertHelper convertedKey value

/-- One round of the loop in `inc_lock_ref`. -/
def lockStep (state : RadixCache × Int) (n : TreeNode RadixNode) : RadixCache × Int :=
  let (c, delta) := state
  let len : Int := n.data.value.length
  let (c, delta) :=
    if n.data.lockRef = 0 then
      ({ c with
        evictableSize := bump c.evictableSize n.data.key.rank (-len)
        protectedSize := bump c.protectedSize n.data.key.rank len }, delta - len)
    else (c, delta)
  ({ c with tree := c.tree.modify [n.id] fun d => { d with lockRef := d.lockRef + 1 } }, delta)

def incLockRef (c : RadixCache) (node : Nat) : RadixCache × Int :=
  if c.disable then (c, 0) else (c.tree.ancestors node).foldl lockStep (c, 0)

/-- One round of the loop in `dec_lock_ref`. -/
def unlockStep (state : RadixCache × Int) (n : TreeNode RadixNode) : RadixCache × Int :=
  let (c, delta) := state
  let len : Int := n.data.value.length
  let (c, delta) :=
    if n.data.lockRef = 1 then
      ({ c with
        evictableSize := bump c.evictableSize n.data.key.rank len
        protectedSize := bump c.protectedSize n.data.key.rank (-len) }, delta + len)
    else (c, delta)
  ({ c with tree := c.tree.modify [n.id] fun d => { d with lockRef := d.lockRef - 1 } }, delta)

def decLockRef (c : RadixCache) (node : Nat) : RadixCache × Int :=
  if c.disable then (c, 0) else (c.tree.ancestors node).foldl unlockStep (c, 0)

/-- `_collect_leaves`; an empty tree has its root as the only leaf. -/
def collectLeaves (c : RadixCache) : List Nat :=
  if c.tree.children rootId = [] then [rootId]
  else (c.tree.filter fun n => c.tree.children n.id = []).map Node.id

def deleteLeaf (c : RadixCache) (n : TreeNode RadixNode) : RadixCache :=
  { c with
    tree := c.tree.detach n.id
    evictableSize := bump c.evictableSize n.data.key.rank (-(n.data.key.length : Int)) }

/-- The loop of `evict`. -/
def evictLoop (order : PopOrder) (numTokens : Nat) (dpRank : Option Nat) :
    Nat → RadixCache → List Nat → List FreeCall → Nat → RadixCache × List FreeCall × Nat
  | 0, c, _, freed, numEvicted => (c, freed, numEvicted)
  | fuel + 1, c, leaves, freed, numEvicted =>
    if numEvicted < numTokens then
      match order.pop leaves with
      | none => (c, freed, numEvicted)
      | some (x, leaves) =>
        match c.tree.find? x with
        -- Only the root is not in the table: `if x == self.root_node: break`.
        | none => (c, freed, numEvicted)
        | some n =>
          if n.data.lockRef > 0 then evictLoop order numTokens dpRank fuel c leaves freed numEvicted
          else if dpRank.isSome && dpRank != some n.data.key.rank then
            evictLoop order numTokens dpRank fuel c leaves freed numEvicted
          else
            let freed := freed ++ [⟨n.data.value, n.data.key.rank⟩]
            let c := c.deleteLeaf n
            let leaves := if c.tree.children n.parent = [] then n.parent :: leaves else leaves
            evictLoop order numTokens dpRank fuel c leaves freed
              (numEvicted + n.data.value.length)
    else (c, freed, numEvicted)

def evict (c : RadixCache) (order : PopOrder) (numTokens : Nat) (dpRank : Option Nat) :
    RadixCache × List FreeCall × Nat :=
  if c.disable then (c, [], 0)
  else
    let leaves := c.collectLeaves
    evictLoop order numTokens dpRank (leaves.length + c.tree.length + 1) c leaves [] 0

end RadixCache
end SglJax.MemCache
