import SglJax.MemCache.ReleaseCalls

/-! The device KV of `UnifiedRadixCache`: the tree with the values of its FULL
component. A node whose value went to the host keeps its place without one. What
the RECURRENT component stores are slots of another pool; it takes part through
the cache length it asks for. SWA is not used with EAGLE. The host tier changes
no device value while a request is cached, and is left out. -/
namespace SglJax.MemCache

open Foundation Foundation.NodeTable

structure UnifiedNode where
  key : RadixKey
  value : Option (List Nat)
  lockRef : Int
deriving DecidableEq, Repr

instance : Keyed UnifiedNode := ⟨UnifiedNode.key⟩

structure UnifiedCache where
  pageSize : Nat
  disable : Bool
  isEagle : Bool
  tree : Tree UnifiedNode
  evictableSize : Nat → Int
  protectedSize : Nat → Int
  counter : Nat

namespace UnifiedCache

/-- `reset` of a cache built with these settings. -/
def reset (pageSize : Nat) (disable isEagle : Bool) : UnifiedCache where
  pageSize := pageSize
  disable := disable
  isEagle := isEagle
  tree := []
  evictableSize := fun _ => 0
  protectedSize := fun _ => 0
  counter := rootId + 1

def topHalf (splitLen : Nat) (d : UnifiedNode) : UnifiedNode :=
  { d with key := d.key.take splitLen, value := d.value.map fun value => value.take splitLen }

def bottomHalf (splitLen : Nat) (d : UnifiedNode) : UnifiedNode :=
  { d with key := d.key.drop splitLen, value := d.value.map fun value => value.drop splitLen }

/-- `_split_node` -/
def splitNode (c : UnifiedCache) (child : TreeNode UnifiedNode) (splitLen : Nat) :
    Except CacheError (UnifiedCache × TreeNode UnifiedNode) := do
  let bottomSlot ← getChildKey c.pageSize (child.data.key.drop splitLen)
  let topSlot ← getChildKey c.pageSize child.data.key
  return ({ c with
    tree := c.tree.splice child.id c.counter topSlot bottomSlot
      (topHalf splitLen) (bottomHalf splitLen)
    counter := c.counter + 1 }, ⟨c.counter, child.parent, topSlot, topHalf splitLen child.data⟩)

/-- `_unevict_node_on_insert` -/
def unevictNodeOnInsert (c : UnifiedCache) (node : TreeNode UnifiedNode) (freshValue : List Nat) :
    Except CacheError UnifiedCache :=
  if freshValue.length % c.pageSize ≠ 0 then .error .assertionError
  else .ok { c with
    tree := c.tree.modify [node.id] fun d => { d with value := some freshValue }
    evictableSize := RadixCache.bump c.evictableSize node.data.key.rank freshValue.length }

/-- What `_insert_helper` does with the part of the value that a node covers: the
tree takes it up when the node has none, else the duplicates are freed. -/
def overlapNode (c : UnifiedCache) (node : TreeNode UnifiedNode) (valueSlice : List Nat)
    (prefixLen totalPrefixLength prevPrefixLen : Nat) :
    Except CacheError (UnifiedCache × List FreeCall) :=
  if node.data.value.isNone then do
    let c ← c.unevictNodeOnInsert node valueSlice
    return (c, [])
  else
    let dupStart := prevPrefixLen - totalPrefixLength
    if dupStart < prefixLen then
      return (c, [⟨slice valueSlice dupStart prefixLen, node.data.key.rank⟩])
    else return (c, [])

def nextChildKey (c : UnifiedCache) (key : RadixKey) (childKey : PyVal) :
    Except CacheError PyVal :=
  if key.length = 0 then return childKey else getChildKey c.pageSize key

/-- The loop of `_insert_helper`; it ends with the node to extend, what is left of
the key and the value, the length it went along and the calls it made. -/
def insertLoop (prevPrefixLen : Nat) : Nat → UnifiedCache → Nat → RadixKey → List Nat → PyVal →
    Nat → Except CacheError
      (UnifiedCache × Nat × RadixKey × List Nat × PyVal × Nat × List FreeCall)
  | 0, _, _, _, _, _, _ => .error .diverges
  | fuel + 1, c, node, key, value, childKey, totalPrefixLength =>
    if key.length = 0 then .ok (c, node, key, value, childKey, totalPrefixLength, [])
    else
      match c.tree.child? node childKey with
      | none => .ok (c, node, key, value, childKey, totalPrefixLength, [])
      | some child => do
        let prefixLen ← keyMatchFn c.pageSize child.data.key key
        let (c, node) ←
          if prefixLen < child.data.key.length then c.splitNode child prefixLen
          else pure (c, child)
        let (c, freed) ← c.overlapNode node (value.take prefixLen) prefixLen totalPrefixLength
          prevPrefixLen
        let key := key.drop prefixLen
        let childKey ← c.nextChildKey key childKey
        let (c, node, key, value, childKey, totalPrefixLength, more) ←
          insertLoop prevPrefixLen fuel c node.id key (value.drop prefixLen) childKey
            (totalPrefixLength + prefixLen)
        return (c, node, key, value, childKey, totalPrefixLength, freed ++ more)

/-- `_add_new_node` -/
def addNewNode (c : UnifiedCache) (parent : Nat) (slot : PyVal) (key : RadixKey)
    (value : List Nat) : UnifiedCache :=
  { c with
    tree := c.tree.attach ⟨c.counter, parent, slot, ⟨key, some value, 0⟩⟩
    evictableSize := RadixCache.bump c.evictableSize key.rank value.length
    counter := c.counter + 1 }

def insertHelper (c : UnifiedCache) (key : RadixKey) (value : List Nat) (prevPrefixLen : Nat) :
    Except CacheError (UnifiedCache × Nat × List FreeCall) := do
  if key.length = 0 then
    return (c, 0, [])
  let childKey ← getChildKey c.pageSize key
  let (c, node, key, value, childKey, totalPrefixLength, freed) ←
    insertLoop prevPrefixLen (key.length + 1) c rootId key value childKey 0
  if key.length = 0 then
    return (c, totalPrefixLength, freed)
  return (c.addNewNode node childKey key value, totalPrefixLength, freed)

def storedKey (c : UnifiedCache) (key : RadixKey) : RadixKey :=
  { key with tokenIds := keyConvertFn c.isEagle key.tokenIds }

/-- `insert` with the `prev_prefix_len` of its parameters. -/
def insert (c : UnifiedCache) (key : RadixKey) (value : List Nat) (prevPrefixLen : Nat) :
    Except CacheError (UnifiedCache × Nat × List FreeCall) :=
  if c.disable then .ok (c, 0, [])
  else
    let convertedKey := c.storedKey key
    let value := if c.isEagle then value.take convertedKey.length else value
    if c.pageSize ≠ 1 then
      let pageAlignedLen := convertedKey.length / c.pageSize * c.pageSize
      c.insertHelper (convertedKey.take pageAlignedLen) (value.take pageAlignedLen) prevPrefixLen
    else c.insertHelper convertedKey value prevPrefixLen

/-- One round of the loop in `release_component_lock` of the FULL component. -/
def unlock (c : UnifiedCache) (n : TreeNode UnifiedNode) : UnifiedCache :=
  let len : Int := (n.data.value.getD []).length
  let c :=
    if n.data.value.isSome ∧ n.data.lockRef = 1 then
      { c with
        evictableSize := RadixCache.bump c.evictableSize n.data.key.rank len
        protectedSize := RadixCache.bump c.protectedSize n.data.key.rank (-len) }
    else c
  { c with tree := c.tree.modify [n.id] fun d => { d with lockRef := d.lockRef - 1 } }

def unlockAll : List (TreeNode UnifiedNode) → UnifiedCache → Except CacheError UnifiedCache
  | [], c => .ok c
  | n :: rest, c =>
    if n.data.lockRef > 0 then unlockAll rest (c.unlock n) else .error .assertionError

def decLockRef (c : UnifiedCache) (node : Nat) : Except CacheError UnifiedCache :=
  if c.disable then .ok c else unlockAll (c.tree.ancestors node) c

/-- The least of the key's length and of the lengths that components ask for. -/
def effectiveCacheLen (keyLen : Nat) (cacheLens : List (Option Nat)) : Nat :=
  cacheLens.foldl (fun len cacheLen => cacheLen.elim len (min len)) keyLen

def oldPrefixLen (c : UnifiedCache) (req : KvReq) : Nat :=
  if c.isEagle && req.cacheProtectedLen > req.lastMatchedPrefixLen then
    req.cacheProtectedLen - 1
  else req.cacheProtectedLen

/-- `cache_finished_req`; `cacheLens` are the answers of the components to
`prepare_for_caching_req`. -/
def finishCalls (c : UnifiedCache) (req : KvReq) (isInsert : Bool)
    (cacheLens : List (Option Nat)) : Except CacheError (UnifiedCache × List FreeCall) := do
  let dpRank := req.key.rank
  let kvIndices := (req.row.take req.kvCommittedLen).filter (· ≠ 0)
  if c.disable then
    return (c, [⟨kvIndices, dpRank⟩])
  let radixKey := buildRadixKey req req.kvCommittedLen
  let actualKvLen := if c.isEagle then req.kvCommittedLen - 1 else req.kvCommittedLen
  let oldLen := c.oldPrefixLen req
  let cacheLen :=
    if isInsert then effectiveCacheLen radixKey.length cacheLens else radixKey.length
  let cappedLen := min actualKvLen cacheLen
  let alignedLen := if c.pageSize ≠ 1 then cappedLen / c.pageSize * c.pageSize else cappedLen
  let tokenLen := if c.isEagle then alignedLen + 1 else alignedLen
  let tailStart := max alignedLen oldLen
  let tail := if c.pageSize ≠ 1 then kvIndices.drop tailStart
    else slice kvIndices tailStart actualKvLen
  let (c, freed) ←
    if isInsert then
      if cacheLen > 0 then do
        let (c, _, freed) ← c.insert (radixKey.take tokenLen) (kvIndices.take alignedLen) oldLen
        pure (c, freed)
      else pure (c, [])
    else pure (c, [⟨slice kvIndices oldLen alignedLen, dpRank⟩])
  let c ← c.decLockRef req.lastNode
  return (c, ⟨tail, dpRank⟩ :: freed)

/-- `release_kv_cache` where over-allocation is allowed. -/
def releaseCalls (c : UnifiedCache) (req : KvReq) (isInsert : Bool)
    (cacheLens : List (Option Nat)) : Except CacheError (UnifiedCache × List FreeCall) := do
  let (c, calls) ← c.finishCalls req isInsert cacheLens
  return (c, calls ++ overallocatedCalls c.pageSize req)

end UnifiedCache
end SglJax.MemCache
