import SglJax.MemCache.KvAllocator
import SglJax.MemCache.KvRequests
import SglJax.Managers.ScheduleBatch

/-! The memory a decode step needs: what `check_decode_mem` asks for, what
`retract_decode` gives up to get it, and what `prepare_for_decode` then takes.
The tree cache is any of those the scheduler can have. -/
namespace SglJax.Managers

open Foundation MemCache

structure EvictParams where
  numTokens : Nat
  swaNumTokens : Nat
  dpRank : Nat
deriving DecidableEq, Repr

inductive TreeCacheError where
  | cache (e : CacheError)
  | alloc (e : AllocError)
deriving DecidableEq, Repr

inductive DecodeError where
  | outOfMemory
  | alloc (e : AllocError)
  | tree (e : TreeCacheError)
  | batch (e : BatchError)
deriving DecidableEq, Repr

/-- The classes the batch tells apart with `isinstance`. -/
inductive TreeCacheKind where
  | chunk
  | unified
  | radix
deriving DecidableEq, Repr

/-- `req_to_token`, indexed by a request slot and a position. -/
abbrev ReqToToken := Nat → Int → Nat

/-- What a batch calls of its tree cache: `evict`, `release_kv_cache` without
insertion and `evict_req_swa`. A cache has no other way to the allocator in these
calls than to give slots back. -/
structure TreeCache (τ ρ : Type) where
  kind : TreeCacheKind
  evict : τ → KvAllocator → EvictParams → Except TreeCacheError (τ × KvAllocator)
  releaseKvCache : τ → KvAllocator → ReqToToken → BatchReq ρ →
    Except TreeCacheError (τ × KvAllocator)
  evictReqSwa : τ → KvAllocator → ReqToToken → BatchReq ρ → Nat → Nat →
    Except TreeCacheError (τ × KvAllocator)
  evict_frees : ∀ {t t' a a' params}, evict t a params = .ok (t', a') → KvAllocator.Frees a a'
  releaseKvCache_frees : ∀ {t t' a a' table req},
    releaseKvCache t a table req = .ok (t', a') → KvAllocator.Frees a a'
  evictReqSwa_frees : ∀ {t t' a a' table req preLen dpRank},
    evictReqSwa t a table req preLen dpRank = .ok (t', a') → KvAllocator.Frees a a'

/-- What decoding reads of a request beside the fields of the batch. -/
structure DecodeProgress where
  originInputLen : Nat
  outputLen : Nat
  decodeBatchIdx : Nat
deriving DecidableEq, Repr

structure DecodeConfig (ρ : Type) where
  slidingWindowSize : Option Nat
  evictionIntervalMultiplier : ℚ
  enableOverlap : Bool
  retractDecodeSteps : Nat
  progress : BatchReq ρ → DecodeProgress

/-- The cache with the pools behind it, and the requests whose KV cache was
released so far. -/
structure DecodeMem (τ ρ : Type) where
  tree : τ
  allocator : KvAllocator
  reqToToken : ReqToToken
  released : List (BatchReq ρ)

variable {τ ρ : Type}

/-- `_is_available_size_sufficient` -/
def isAvailableSizeSufficient (a : KvAllocator) (numTokensPerDp : List (Nat × Nat)) : Bool :=
  numTokensPerDp.all fun (dpRank, numTokens) =>
    match a with
    | .swa s =>
      decide (s.fullAvailableSize dpRank ≥ numTokens) &&
        decide (s.swaAvailableSize dpRank ≥ numTokens)
    | .pool p => !decide (p.availableSize dpRank < numTokens)

/-- What `evict_from_tree_cache` asks the cache to evict. -/
def evictParams (a : KvAllocator) (numTokens dpRank : Nat) : Option EvictParams :=
  match a with
  | .swa s =>
    let fullAvailableSize := s.fullAvailableSize dpRank
    let swaAvailableSize := s.swaAvailableSize dpRank
    if fullAvailableSize < numTokens ∨ swaAvailableSize < numTokens then
      some ⟨numTokens - fullAvailableSize, numTokens - swaAvailableSize, dpRank⟩
    else none
  | .pool p => if p.availableSize dpRank < numTokens then some ⟨numTokens, 0, dpRank⟩ else none

/-- Tokens for the requests that begin a page with their next token. -/
def newTokens (pageSize : Nat) (reqs : List (BatchReq ρ)) : Nat :=
  reqs.countP (fun r => r.kvCommittedLen % pageSize == 0) * pageSize

/-- `new_tokens_required_next_decode` -/
def newTokensRequiredNextDecode (pageSize : Nat) (info : ScheduleReqsInfo ρ)
    (selectedIndices : Option (List Nat)) : Except BatchError Nat :=
  if info.reqs.isEmpty then .ok 0
  else newTokens pageSize <$> selectedIndices.elim (.ok info.reqs) (takeIndices info.reqs)

/-- When `maybe_evict_swa` looks at a request in a decode step. -/
def swaEvictionDue (enableOverlap : Bool) (evictInterval decodeBatchIdx : Nat) :
    TreeCacheKind → Bool
  | .unified =>
    let safeOffset := if enableOverlap then 1 else 0
    decide (safeOffset ≤ decodeBatchIdx) && (decodeBatchIdx - safeOffset) % evictInterval == 0
  | .chunk => decodeBatchIdx % evictInterval == 0
  | .radix => decodeBatchIdx % evictInterval == 1

/-- `swa_eviction_interval` -/
def swaEvictionInterval (slidingWindowSize pageSize : Nat) (multiplier : ℚ) : Nat :=
  max pageSize ⌊slidingWindowSize * multiplier⌋.toNat / pageSize * pageSize

/-- The requests `maybe_evict_swa` hands to the cache before a decode step. -/
def dueSwaEvictions (kind : TreeCacheKind) (cfg : DecodeConfig ρ) (evictInterval : Nat)
    (batch : ScheduleBatch ρ) : List (Nat × BatchReq ρ) :=
  batch.reqsInfo.zipIdx.flatMap fun (info, dpRank) =>
    (info.reqs.filter fun r => swaEvictionDue cfg.enableOverlap evictInterval
      (cfg.progress r).decodeBatchIdx kind).map fun r => (dpRank, r)

namespace TreeCache

variable (cache : TreeCache τ ρ) (cfg : DecodeConfig ρ)

/-- `evict_from_tree_cache` -/
def evictFromTreeCache (numTokens dpRank : Nat) (m : DecodeMem τ ρ) :
    Except DecodeError (DecodeMem τ ρ) :=
  if cache.kind = .chunk then .ok m
  else
    match evictParams m.allocator numTokens dpRank with
    | none => .ok m
    | some params => do
      let (tree, allocator) ← (cache.evict m.tree m.allocator params).mapError .tree
      return { m with tree := tree, allocator := allocator }

/-- `_evict_tree_cache_if_needed` -/
def evictTreeCacheIfNeeded (numTokensPerDp : List (Nat × Nat)) (m : DecodeMem τ ρ) :
    Except DecodeError (DecodeMem τ ρ) :=
  numTokensPerDp.foldlM (fun m need => cache.evictFromTreeCache need.2 need.1 m) m

/-- The ranks with requests, and what each of them needs. -/
def requirements (pageSize : Nat) (selectedIndices : Option (Nat → Option (List Nat))) :
    Nat → List (ScheduleReqsInfo ρ) → Except BatchError (List (Nat × Nat))
  | _, [] => .ok []
  | dpRank, info :: infos => do
    let numTokens ← newTokensRequiredNextDecode pageSize info (selectedIndices.bind (· dpRank))
    let rest ← requirements pageSize selectedIndices (dpRank + 1) infos
    return if info.reqs.isEmpty then rest else (dpRank, numTokens) :: rest

/-- `check_decode_mem` -/
def checkDecodeMem (selectedIndices : Option (Nat → Option (List Nat))) (batch : ScheduleBatch ρ)
    (m : DecodeMem τ ρ) : Except DecodeError (DecodeMem τ ρ × Bool) := do
  let numTokensPerDp ←
    (requirements m.allocator.pageSize selectedIndices 0 batch.reqsInfo).mapError .batch
  let m ← cache.evictTreeCacheIfNeeded numTokensPerDp m
  return (m, isAvailableSizeSufficient m.allocator numTokensPerDp)

/-! ### Retraction -/

/-- `release_kv_cache(req, tree_cache, is_insert=False)`; a request without a slot
in the pool has nothing to release. -/
def releaseKv (req : BatchReq ρ) (m : DecodeMem τ ρ) : Except DecodeError (DecodeMem τ ρ) :=
  if req.reqPoolIdx.isNone then .ok { m with released := m.released ++ [req] }
  else do
    let (tree, allocator) ←
      (cache.releaseKvCache m.tree m.allocator m.reqToToken req).mapError .tree
    return { m with tree := tree, allocator := allocator, released := m.released ++ [req] }

/-- `release_req` -/
def releaseReq (req : BatchReq ρ) (dpRank remainingReqCount : Nat) (m : DecodeMem τ ρ) :
    Except DecodeError (DecodeMem τ ρ) := do
  let m ← cache.releaseKv req m
  cache.evictTreeCacheIfNeeded [(dpRank, remainingReqCount * cfg.retractDecodeSteps)] m

/-- What `retract_decode` decides for the requests of a rank, by their indices. -/
structure RetractSplit where
  kept : List Nat
  retracted : List Nat
  aborted : List Nat
deriving DecidableEq, Repr

/-- The sort key `(len(output_ids), -len(origin_input_ids))` of one request is at
most that of another. -/
def keyLe (a b : DecodeProgress) : Bool :=
  decide (a.outputLen < b.outputLen) ||
    (a.outputLen == b.outputLen && decide (b.originInputLen ≤ a.originInputLen))

/-- The indices of a rank with the largest sort keys first; `reverse=True` keeps the
order of equal ones. -/
def sortedIndices (info : ScheduleReqsInfo ρ) : List Nat :=
  (List.range info.reqs.length).mergeSort fun i j =>
    match info.reqs[i]?, info.reqs[j]? with
    | some a, some b => keyLe (cfg.progress b) (cfg.progress a)
    | _, _ => true

/-- The loop of `retract_decode` over one rank. The list holds the sorted indices
from the last to the first, as they are popped. -/
def retractLoop (dpRank : Nat) (info : ScheduleReqsInfo ρ) :
    List Nat → DecodeMem τ ρ → Except DecodeError (DecodeMem τ ρ × RetractSplit)
  | [], m => .ok (m, ⟨[], [], []⟩)
  | retractIdx :: others, m => do
    let sortedIndices := (retractIdx :: others).reverse
    let numTokens ←
      (newTokensRequiredNextDecode m.allocator.pageSize info (some sortedIndices)).mapError .batch
    let m ← cache.evictTreeCacheIfNeeded [(dpRank, numTokens)] m
    if isAvailableSizeSufficient m.allocator [(dpRank, numTokens)] then
      return (m, ⟨sortedIndices, [], []⟩)
    else do
      let req ← info.reqs[retractIdx]?.elim (.error (.batch .indexError)) .ok
      let m ← cache.releaseReq cfg req dpRank others.length m
      if others.isEmpty then return (m, ⟨[], [], [retractIdx]⟩)
      else do
        let (m, split) ← retractLoop dpRank info others m
        return (m, { split with retracted := retractIdx :: split.retracted })

/-- One rank of `retract_decode`. -/
def retractRank (dpRank : Nat) (info : ScheduleReqsInfo ρ) (m : DecodeMem τ ρ) :
    Except DecodeError (DecodeMem τ ρ × RetractSplit) :=
  if info.reqs.isEmpty then .ok (m, ⟨[], [], []⟩)
  else cache.retractLoop cfg dpRank info (sortedIndices cfg info).reverse m

def retractRanks : Nat → List (ScheduleReqsInfo ρ) → DecodeMem τ ρ →
    Except DecodeError (DecodeMem τ ρ × List RetractSplit)
  | _, [], m => .ok (m, [])
  | dpRank, info :: infos, m => do
    let (m, split) ← cache.retractRank cfg dpRank info m
    let (m, splits) ← retractRanks (dpRank + 1) infos m
    return (m, split :: splits)

/-- `reset_for_retract`, and the slot in the pool that `release_kv_cache` takes away. -/
def resetForRetract (req : BatchReq ρ) : BatchReq ρ :=
  { req with kvCommittedLen := 0, isChunked := 0, reqPoolIdx := none }

/-- The requests of all ranks that a part of the splits picks. -/
def pickedReqs (part : RetractSplit → List Nat) (infos : List (ScheduleReqsInfo ρ))
    (splits : List RetractSplit) : List (BatchReq ρ) :=
  (infos.zip splits).flatMap fun (info, split) => picked info.reqs (part split)

/-- What is left and what is returned by `retract_decode`. -/
structure RetractResult (τ ρ : Type) where
  batch : ScheduleBatch ρ
  mem : DecodeMem τ ρ
  retractedReqs : List (BatchReq ρ)
  newEstimateRatio : ℚ
  reqsToAbort : List (BatchReq ρ)

def newEstimateRatio (allReqs : List (BatchReq ρ)) : ℚ :=
  let totalDecodedTokens : Nat := (allReqs.map fun r => (cfg.progress r).outputLen).sum
  let totalMaxNewTokens : Nat := (allReqs.map fun r => r.samplingParams.maxNewTokens).sum
  min 1 ((totalDecodedTokens + cfg.retractDecodeSteps * allReqs.length : Nat) /
    (totalMaxNewTokens + 1 : Nat))

/-- `retract_decode` -/
def retractDecode (batch : ScheduleBatch ρ) (m : DecodeMem τ ρ) :
    Except DecodeError (RetractResult τ ρ) := do
  let (m, splits) ← cache.retractRanks cfg 0 batch.reqsInfo m
  let keepIndicesPerDp := fun dpRank => splits[dpRank]?.map RetractSplit.kept
  let kept ← (batch.filterBatch (fun _ => none) (some keepIndicesPerDp)).mapError .batch
  return {
    batch := kept
    mem := m
    retractedReqs := (pickedReqs RetractSplit.retracted batch.reqsInfo splits).map resetForRetract
    newEstimateRatio := newEstimateRatio cfg kept.allReqs
    reqsToAbort := (pickedReqs RetractSplit.aborted batch.reqsInfo splits).map resetForRetract }

/-! ### Allocation -/

/-- `maybe_evict_swa` in decode mode -/
def maybeEvictSwa (batch : ScheduleBatch ρ) (m : DecodeMem τ ρ) :
    Except DecodeError (DecodeMem τ ρ) :=
  match m.allocator, cfg.slidingWindowSize with
  | .swa s, some (slidingWindowSize + 1) =>
    let evictInterval := swaEvictionInterval (slidingWindowSize + 1) s.full.pageSize
      cfg.evictionIntervalMultiplier
    (dueSwaEvictions cache.kind cfg evictInterval batch).foldlM (fun m due => do
      let (tree, allocator) ← (cache.evictReqSwa m.tree m.allocator m.reqToToken due.2
        ((cfg.progress due.2).originInputLen + (cfg.progress due.2).outputLen - 1)
        due.1).mapError .tree
      return { m with tree := tree, allocator := allocator }) m
  | _, _ => .ok m

/-- The slots of an allocation, or `Out of memory`. -/
def takeSlots (m : DecodeMem τ ρ)
    (result : Except AllocError (KvAllocator × Option (List Nat))) :
    Except DecodeError (DecodeMem τ ρ × List Nat) := do
  let (allocator, out) ← result.mapError .alloc
  let outCacheLoc ← out.elim (.error .outOfMemory) .ok
  return ({ m with allocator := allocator }, outCacheLoc)

/-- `alloc_token_slots` -/
def allocTokenSlots (numTokens dpRank : Nat) (m : DecodeMem τ ρ) :
    Except DecodeError (DecodeMem τ ρ × List Nat) := do
  let m ← cache.evictFromTreeCache numTokens dpRank m
  takeSlots m (m.allocator.alloc numTokens dpRank)

/-- `alloc_paged_token_slots_decode` -/
def allocPagedTokenSlotsDecode (seqs : List DecodeSeq) (dpRank : Nat) (m : DecodeMem τ ρ) :
    Except DecodeError (DecodeMem τ ρ × List Nat) := do
  let m ← cache.evictTreeCacheIfNeeded [(dpRank, seqs.length * m.allocator.pageSize)] m
  takeSlots m (m.allocator.allocDecode seqs dpRank)

/-- The arguments of `alloc_decode`: the lengths with the new token, and
`req_to_token[req_pool_indices, seq_lens - 2]`. -/
def decodeSeqs (table : ReqToToken) (reqPoolIndices seqLens : List Nat) : List DecodeSeq :=
  List.zipWith (fun idx seqLen => ⟨seqLen + 1, table idx ((seqLen : Int) - 1), Nat.succ_pos _⟩)
    reqPoolIndices seqLens

/-- `req_to_token_pool.write((req_pool_indices, locs), out_cache_loc)` -/
def writeSlots (table : ReqToToken) (reqPoolIndices locs outCacheLoc : List Nat) : ReqToToken :=
  ((reqPoolIndices.zip locs).zip outCacheLoc).foldl (fun table w =>
    Function.update table w.1.1 (Function.update (table w.1.1) (w.1.2 : Int) w.2)) table

/-- The request slots and the lengths of a rank; the two arrays index the pool
together. -/
def poolRows (info : ScheduleReqsInfo ρ) : Except BatchError (List Nat × List Nat) :=
  match info.reqPoolIndices, info.seqLens with
  | some reqPoolIndices, some seqLens =>
    if reqPoolIndices.length = seqLens.length then .ok (reqPoolIndices, seqLens)
    else .error .indexError
  | _, _ => .error .attributeOfNone

/-- The allocation of one rank of `prepare_for_decode`. -/
def allocDecodeSlots (dpRank : Nat) (info : ScheduleReqsInfo ρ) (m : DecodeMem τ ρ) :
    Except DecodeError (DecodeMem τ ρ × List Nat) :=
  if m.allocator.pageSize = 1 then cache.allocTokenSlots info.reqs.length dpRank m
  else do
    let rows ← (poolRows info).mapError .batch
    cache.allocPagedTokenSlotsDecode (decodeSeqs m.reqToToken rows.1 rows.2) dpRank m

/-- One rank of `prepare_for_decode`. -/
def prepareRank (dpRank : Nat) (info : ScheduleReqsInfo ρ) (m : DecodeMem τ ρ) :
    Except DecodeError (ScheduleReqsInfo ρ × DecodeMem τ ρ) := do
  let next ← (info.prepareForDecode true).mapError .batch
  if info.reqs.isEmpty then return (next, m)
  else do
    let (m, outCacheLoc) ← cache.allocDecodeSlots dpRank info m
    let rows ← (poolRows info).mapError .batch
    return (next, { m with reqToToken := writeSlots m.reqToToken rows.1 rows.2 outCacheLoc })

def prepareRanks : Nat → List (ScheduleReqsInfo ρ) → DecodeMem τ ρ →
    Except DecodeError (List (ScheduleReqsInfo ρ) × DecodeMem τ ρ)
  | _, [], m => .ok ([], m)
  | dpRank, info :: infos, m => do
    let (info, m) ← cache.prepareRank dpRank info m
    let (infos, m) ← prepareRanks (dpRank + 1) infos m
    return (info :: infos, m)

/-- `prepare_for_decode` over the pools -/
def prepareForDecode (batch : ScheduleBatch ρ) (m : DecodeMem τ ρ) :
    Except DecodeError (ScheduleBatch ρ × DecodeMem τ ρ) := do
  let m ← cache.maybeEvictSwa cfg batch m
  let (infos, m) ← cache.prepareRanks 0 batch.reqsInfo m
  return ({ batch with reqsInfo := infos }, m)

end TreeCache
end SglJax.Managers
