import SglJax.MemCache.RadixCustody

/-! How requests use a `RadixCache` and its allocator: they start on a cached
prefix, get slots, hand finished pages to the tree and give the rest back. A row
of `req_to_token` is kept up to `kv_allocated_len`; the positions after it hold
nothing. -/
namespace SglJax.MemCache

open Foundation

/-- What a request's KV cache depends on: its radix key (`radix_input_ids` and
`output_ids` with the namespace), its row and the lengths that divide it. -/
structure KvReq where
  key : RadixKey
  row : List Nat
  kvCommittedLen : Nat
  cacheProtectedLen : Nat
  lastMatchedPrefixLen : Nat
  lastNode : Nat
deriving DecidableEq, Repr

/-- `build_radix_key` -/
def buildRadixKey (req : KvReq) (keyLen : Nat) : RadixKey := req.key.take keyLen

/-- `xs[start:stop]` -/
def slice (xs : List Nat) (start stop : Nat) : List Nat := (xs.take stop).drop start

/-- `row[start : start + len(values)] = values` -/
def writeSlice (row : List Nat) (start : Nat) (values : List Nat) : List Nat :=
  row.take start ++ values ++ row.drop (start + values.length)

structure KvCache where
  allocator : PoolAllocator
  tree : RadixCache

namespace KvCache

def free (s : KvCache) (slots : List Nat) (dpRank : Nat) : KvCache :=
  { s with allocator := s.allocator.free slots dpRank }

/-- Look the first `maxPrefixLen` tokens up and lock the node found. -/
def startReq (s : KvCache) (key : RadixKey) (maxPrefixLen : Nat) :
    Except CacheError (KvCache × KvReq) := do
  let (tree, result) ← s.tree.matchPrefix (key.take maxPrefixLen)
  let prefixLen := result.deviceIndices.length
  return ({ s with tree := (tree.incLockRef result.lastDeviceNode).1 },
    ⟨key, result.deviceIndices, prefixLen, prefixLen, prefixLen, result.lastDeviceNode⟩)

/-- The length that is cached of `kvLen` slots, before and after the EAGLE shift. -/
def pageAlignedLen (tree : RadixCache) (kvLen : Nat) : Nat :=
  let actualKvLen := if tree.isEagle then kvLen - 1 else kvLen
  if tree.pageSize ≠ 1 then actualKvLen / tree.pageSize * tree.pageSize else actualKvLen

def pageAlignedTokenLen (tree : RadixCache) (kvLen : Nat) : Nat :=
  if tree.isEagle then pageAlignedLen tree kvLen + 1 else pageAlignedLen tree kvLen

def oldPrefixLen (tree : RadixCache) (req : KvReq) : Nat :=
  if tree.isEagle && req.cacheProtectedLen > req.lastMatchedPrefixLen then
    req.cacheProtectedLen - 1
  else req.cacheProtectedLen

/-- `cache_finished_req` -/
def cacheFinishedReq (s : KvCache) (req : KvReq) (isInsert : Bool) :
    Except CacheError KvCache := do
  let dpRank := req.key.rank
  let kvIndices := (req.row.take req.kvCommittedLen).filter (· ≠ 0)
  if s.tree.disable then
    return s.free kvIndices dpRank
  let radixKey := buildRadixKey req req.kvCommittedLen
  let alignedLen := pageAlignedLen s.tree req.kvCommittedLen
  let tokenLen := pageAlignedTokenLen s.tree req.kvCommittedLen
  let oldLen := oldPrefixLen s.tree req
  let s := if s.tree.pageSize ≠ 1 then s.free (kvIndices.drop alignedLen) dpRank else s
  let s ←
    if isInsert then do
      let (tree, newLen) ← s.tree.insert (radixKey.take tokenLen) (kvIndices.take alignedLen)
      pure (free { s with tree := tree } (slice kvIndices oldLen newLen) dpRank)
    else pure (s.free (slice kvIndices oldLen alignedLen) dpRank)
  return { s with tree := (s.tree.decLockRef req.lastNode).1 }

/-- `cache_unfinished_req`; `fillLen` is the length of `req.fill_ids`. -/
def cacheUnfinishedReq (s : KvCache) (req : KvReq) (fillLen : Nat) :
    Except CacheError (KvCache × KvReq) := do
  if s.tree.disable then
    return (s, req)
  let dpRank := req.key.rank
  let kvIndices := req.row.take fillLen
  let alignedLen := pageAlignedLen s.tree fillLen
  let value := if s.tree.pageSize ≠ 1 then kvIndices.take alignedLen else kvIndices
  let radixKey := buildRadixKey req (pageAlignedTokenLen s.tree fillLen)
  let oldLen := oldPrefixLen s.tree req
  let (tree, newLen) ← s.tree.insert radixKey value
  let s := free { s with tree := tree } (slice kvIndices oldLen newLen) dpRank
  let (tree, result) ← s.tree.matchPrefix radixKey
  let newIndices := result.deviceIndices
  let row := writeSlice req.row oldLen (newIndices.drop oldLen)
  let tree := (tree.decLockRef req.lastNode).1
  let tree := (tree.incLockRef result.lastDeviceNode).1
  return ({ s with tree := tree },
    { req with
      row := row
      lastMatchedPrefixLen := newIndices.length
      cacheProtectedLen := newIndices.length
      lastNode := result.lastDeviceNode })

/-- `release_kv_cache`: the slots past the committed ones go too, from the first
page that holds none of those. -/
def releaseKvCache (s : KvCache) (req : KvReq) (isInsert allowOverallocated : Bool) :
    Except CacheError KvCache := do
  let s ← s.cacheFinishedReq req isInsert
  let endP := req.row.length
  if !allowOverallocated && req.kvCommittedLen ≠ endP then
    .error .assertionError
  else
    let startP := if s.tree.pageSize > 1 then
        pagesFor s.tree.pageSize req.kvCommittedLen * s.tree.pageSize
      else req.kvCommittedLen
    if startP < endP then
      return s.free ((slice req.row startP endP).filter (· ≠ 0)) req.key.rank
    else return s

/-- `evict` with the allocator behind it: the freed values go to its lists. -/
def evict (s : KvCache) (order : PopOrder) (numTokens : Nat) (dpRank : Option Nat) : KvCache :=
  let (tree, freed, _) := s.tree.evict order numTokens dpRank
  ⟨freed.foldl (fun a call => a.free call.indices call.dpRank) s.allocator, tree⟩

end KvCache

/-! ### Slots for a batch -/

/-- A request of a batch with the length its row shall have. -/
structure Growth where
  req : KvReq
  seqLen : Nat
  le : req.row.length ≤ seqLen

namespace Growth

def extendLen (g : Growth) : Nat := g.seqLen - g.req.row.length

/-- The request's entry in the arguments of `alloc_extend`. -/
def toExtend (g : Growth) : ExtendSeq := ⟨g.req.row.length, g.seqLen, lastLoc g.req.row, g.le⟩

/-- The request with its new slots written behind the others. -/
def write (g : Growth) (slots : List Nat) : KvReq := { g.req with row := g.req.row ++ slots }

/-- Each request takes its share of what an extend batch was given. -/
def writeAll : List Growth → List Nat → List KvReq
  | [], _ => []
  | g :: rest, out =>
    g.write (out.take g.extendLen) :: writeAll rest (out.drop g.extendLen)

/-- What `alloc` is asked for: whole pages for every request. -/
def needSize (pageSize : Nat) (batch : List Growth) : Nat :=
  (batch.map fun g => pagesFor pageSize g.extendLen * pageSize).sum

/-- Each request takes its pages and uses as many of their slots as it needs. -/
def writePages (pageSize : Nat) : List Growth → List Nat → List KvReq
  | [], _ => []
  | g :: rest, out =>
    g.write ((out.take (pagesFor pageSize g.extendLen * pageSize)).take g.extendLen) ::
      writePages pageSize rest (out.drop (pagesFor pageSize g.extendLen * pageSize))

end Growth

/-- A request that decodes its next token. -/
structure Decoding where
  req : KvReq
  pos : 0 < req.row.length

namespace Decoding

def toDecode (g : Decoding) : DecodeSeq :=
  ⟨g.req.row.length + 1, lastLoc g.req.row, Nat.succ_pos _⟩

def toGrowth (g : Decoding) : Growth := ⟨g.req, g.req.row.length + 1, Nat.le_succ _⟩

end Decoding

/-! ### Runs -/

/-- The caches with the live requests and the nodes locked for the time being. -/
structure KvState where
  cache : KvCache
  reqs : List KvReq
  locks : List Nat

/-- The references that keep nodes of the tree locked. -/
def KvState.holders (s : KvState) : List Nat := s.reqs.map KvReq.lastNode ++ s.locks

/-- The states that runs over a new allocator and a new tree reach. The order of
the live requests means nothing, so a step may pick any of them. -/
inductive KvRun (size pageSize dpSize : Nat) (disable : Bool) : KvState → Prop where
  | start : KvRun size pageSize dpSize disable
      ⟨⟨.init size pageSize dpSize, .reset pageSize disable false⟩, [], []⟩
  /-- A lookup alone, as for the scheduling policy. -/
  | lookup {s : KvState} {key : RadixKey} {tree : RadixCache} {result : MatchResult}
      (run : KvRun size pageSize dpSize disable s) (hids : RadixCache.PlainIds key)
      (heq : s.cache.tree.matchPrefix key = .ok (tree, result)) :
      KvRun size pageSize dpSize disable { s with cache := { s.cache with tree := tree } }
  | startReq {s : KvState} {key : RadixKey} {maxPrefixLen : Nat} {cache : KvCache} {req : KvReq}
      (run : KvRun size pageSize dpSize disable s) (hids : RadixCache.PlainIds key)
      (heq : s.cache.startReq key maxPrefixLen = .ok (cache, req)) :
      KvRun size pageSize dpSize disable { s with cache := cache, reqs := req :: s.reqs }
  | incLockRef {s : KvState} {node : Nat} {rows : List (TreeNode RadixNode)}
      (run : KvRun size pageSize dpSize disable s)
      (hpath : NodeTable.Path s.cache.tree.tree node rows) :
      KvRun size pageSize dpSize disable { s with
        cache := { s.cache with tree := (s.cache.tree.incLockRef node).1 }
        locks := node :: s.locks }
  | decLockRef {s : KvState} {node : Nat} {locks : List Nat}
      (run : KvRun size pageSize dpSize disable s) (hperm : s.locks.Perm (node :: locks)) :
      KvRun size pageSize dpSize disable { s with
        cache := { s.cache with tree := (s.cache.tree.decLockRef node).1 }
        locks := locks }
  /-- Whole pages for requests that end at a page boundary; at page size one that
  is every request. -/
  | alloc {s : KvState} {batch : List Growth} {others : List KvReq} {dpRank : Nat}
      {allocator : PoolAllocator} {out : List Nat} (run : KvRun size pageSize dpSize disable s)
      (hperm : s.reqs.Perm (batch.map Growth.req ++ others))
      (hrank : ∀ g ∈ batch, g.req.key.rank = dpRank)
      (hwhole : ∀ g ∈ batch, g.req.row.length % pageSize = 0)
      (heq : s.cache.allocator.alloc (Growth.needSize pageSize batch) dpRank =
        .ok (allocator, some out)) :
      KvRun size pageSize dpSize disable { s with
        cache := { s.cache with allocator := allocator }
        reqs := Growth.writePages pageSize batch out ++ others }
  | allocExtend {s : KvState} {batch : List Growth} {others : List KvReq} {dpRank : Nat}
      {allocator : PoolAllocator} {out : List Nat} (run : KvRun size pageSize dpSize disable s)
      (hperm : s.reqs.Perm (batch.map Growth.req ++ others))
      (hrank : ∀ g ∈ batch, g.req.key.rank = dpRank)
      (heq : s.cache.allocator.allocExtend (batch.map Growth.toExtend)
        (batch.map Growth.extendLen).sum dpRank = .ok (allocator, some out)) :
      KvRun size pageSize dpSize disable { s with
        cache := { s.cache with allocator := allocator }
        reqs := Growth.writeAll batch out ++ others }
  | allocDecode {s : KvState} {batch : List Decoding} {others : List KvReq} {dpRank : Nat}
      {allocator : PoolAllocator} {out : List Nat} (run : KvRun size pageSize dpSize disable s)
      (hperm : s.reqs.Perm (batch.map Decoding.req ++ others))
      (hrank : ∀ g ∈ batch, g.req.key.rank = dpRank)
      (heq : s.cache.allocator.allocDecode (batch.map Decoding.toDecode) dpRank =
        .ok (allocator, some out)) :
      KvRun size pageSize dpSize disable { s with
        cache := { s.cache with allocator := allocator }
        reqs := Growth.writeAll (batch.map Decoding.toGrowth) out ++ others }
  /-- An allocation that finds no room may still have merged the page lists. -/
  | allocFails {s : KvState} {dpRank : Nat} {allocator : PoolAllocator}
      (run : KvRun size pageSize dpSize disable s)
      (heq : (∃ needSize, s.cache.allocator.alloc needSize dpRank = .ok (allocator, none)) ∨
        (∃ batch, s.cache.allocator.allocExtend batch (batch.map ExtendSeq.extendLen).sum dpRank =
          .ok (allocator, none)) ∨
        ∃ batch, s.cache.allocator.allocDecode batch dpRank = .ok (allocator, none)) :
      KvRun size pageSize dpSize disable
        { s with cache := { s.cache with allocator := allocator } }
  /-- The scheduler moves `kv_committed_len` within the row. -/
  | commit {s : KvState} {req : KvReq} {others : List KvReq} {kvCommittedLen : Nat}
      (run : KvRun size pageSize dpSize disable s) (hperm : s.reqs.Perm (req :: others))
      (hlow : req.cacheProtectedLen ≤ kvCommittedLen) (hhigh : kvCommittedLen ≤ req.row.length) :
      KvRun size pageSize dpSize disable
        { s with reqs := { req with kvCommittedLen := kvCommittedLen } :: others }
  /-- New output ids. -/
  | append {s : KvState} {req : KvReq} {others : List KvReq} {tokens : List Token}
      (run : KvRun size pageSize dpSize disable s) (hperm : s.reqs.Perm (req :: others))
      (hids : OfKind false tokens) :
      KvRun size pageSize dpSize disable { s with reqs :=
        { req with key := { req.key with tokenIds := req.key.tokenIds ++ tokens } } :: others }
  /-- The ids that are filled in have committed slots, at least those of the tree. -/
  | cacheUnfinishedReq {s : KvState} {req req' : KvReq} {others : List KvReq} {fillLen : Nat}
      {cache : KvCache} (run : KvRun size pageSize dpSize disable s)
      (hperm : s.reqs.Perm (req :: others)) (hlow : req.cacheProtectedLen ≤ fillLen)
      (hslots : fillLen ≤ req.kvCommittedLen) (hids : fillLen ≤ req.key.length)
      (heq : s.cache.cacheUnfinishedReq req fillLen = .ok (cache, req')) :
      KvRun size pageSize dpSize disable { s with cache := cache, reqs := req' :: others }
  /-- What is inserted are slots of tokens the request has. -/
  | releaseKvCache {s : KvState} {req : KvReq} {others : List KvReq}
      {isInsert allowOverallocated : Bool} {cache : KvCache}
      (run : KvRun size pageSize dpSize disable s) (hperm : s.reqs.Perm (req :: others))
      (hids : isInsert = true → req.kvCommittedLen ≤ req.key.length)
      (heq : s.cache.releaseKvCache req isInsert allowOverallocated = .ok cache) :
      KvRun size pageSize dpSize disable { s with cache := cache, reqs := others }
  | evict {s : KvState} (run : KvRun size pageSize dpSize disable s) (order : PopOrder)
      (numTokens : Nat) (dpRank : Option Nat) :
      KvRun size pageSize dpSize disable
        { s with cache := s.cache.evict order numTokens dpRank }

end SglJax.MemCache
