import SglJax.Managers.DecodeSafety

/-! The radix cache and the chunk caches as caches of a decode batch, and what
checking and retracting promise with any such cache. -/
namespace SglJax.MemCache

/-- `token_to_kv_pool_allocator.free` -/
def KvAllocator.free : KvAllocator → List Nat → Nat → Except AllocError KvAllocator
  | .pool a, slots, dpRank => .ok (.pool (a.free slots dpRank))
  | .swa s, slots, dpRank => (s.free slots dpRank).map .swa

theorem KvAllocator.frees_free {a b : KvAllocator} {slots : List Nat} {dpRank : Nat}
    (hok : a.free slots dpRank = .ok b) : a.Frees b := by
  cases a with
  | pool a =>
    cases hok
    exact .step (.free slots dpRank)
  | swa s =>
    obtain ⟨s', hs, rfl⟩ := map_eq_ok.mp hok
    exact .step (.freeBoth hs)

@[simp] theorem PoolAllocator.pageSize_init (size pageSize dpSize : Nat) :
    (PoolAllocator.init size pageSize dpSize).pageSize = pageSize := by
  unfold PoolAllocator.init
  split
  · rename_i hone
    exact hone.symm
  · rfl

/-- Allocators as the constructors make them. -/
theorem KvAllocator.wellFormed_pool {size pageSize dpSize : Nat} (hpage : 0 < pageSize) :
    WellFormed (.pool (.init size pageSize dpSize)) where
  page_pos := by simpa [KvAllocator.pageSize] using hpage
  same_pages := by simp [pools, KvAllocator.pageSize]

theorem KvAllocator.wellFormed_swa {size sizeSwa pageSize dpSize : Nat} (hpage : 0 < pageSize) :
    WellFormed (.swa (.init size sizeSwa pageSize dpSize)) where
  page_pos := by simpa [KvAllocator.pageSize, SwaAllocator.init] using hpage
  same_pages := by simp [pools, KvAllocator.pageSize, SwaAllocator.init]

namespace KvCache

theorem frees_free (s : KvCache) (slots : List Nat) (dpRank : Nat) :
    KvAllocator.Frees (.pool s.allocator) (.pool (s.free slots dpRank).allocator) :=
  .step (.free slots dpRank)

theorem cacheFinishedReq_frees {s next : KvCache} {req : KvReq}
    (hok : s.cacheFinishedReq req false = .ok next) :
    KvAllocator.Frees (.pool s.allocator) (.pool next.allocator) := by
  unfold cacheFinishedReq at hok
  split at hok
  · cases hok
    exact s.frees_free _ _
  · cases hok
    dsimp only
    split
    · exact (s.frees_free _ _).trans (KvCache.frees_free _ _ _)
    · exact s.frees_free _ _

theorem releaseKvCache_frees {s next : KvCache} {req : KvReq} {allowOverallocated : Bool}
    (hok : s.releaseKvCache req false allowOverallocated = .ok next) :
    KvAllocator.Frees (.pool s.allocator) (.pool next.allocator) := by
  unfold releaseKvCache at hok
  cases hfinish : s.cacheFinishedReq req false with
  | error e =>
    rw [hfinish] at hok
    cases hok
  | ok finished =>
    rw [hfinish] at hok
    have hfirst := cacheFinishedReq_frees hfinish
    simp only [bind, Except.bind] at hok
    split at hok
    · cases hok
    · split at hok
      · split at hok
        all_goals cases hok
        · exact hfirst.trans (KvCache.frees_free _ _ _)
        · exact hfirst
      · split at hok
        all_goals cases hok
        · exact hfirst.trans (KvCache.frees_free _ _ _)
        · exact hfirst

theorem evict_frees (s : KvCache) (order : Foundation.PopOrder) (numTokens : Nat)
    (dpRank : Option Nat) :
    KvAllocator.Frees (.pool s.allocator) (.pool (s.evict order numTokens dpRank).allocator) := by
  unfold evict
  dsimp only
  generalize (s.tree.evict order numTokens dpRank).2.1 = freed
  generalize s.allocator = a
  induction freed generalizing a with
  | nil => exact .refl _
  | cons call freed ih => exact .trans (.step (.free call.indices call.dpRank)) (ih _)

end KvCache
end SglJax.MemCache

namespace SglJax.Managers

open Foundation MemCache

variable {ρ : Type}

/-- What a chunk cache reads of a request object. -/
structure ChunkReq where
  dpRank : Nat
  kvAllocatedLen : Nat
deriving DecidableEq, Repr

/-- `req_to_token[req.req_pool_idx, start:stop]` -/
def rowSlots (table : ReqToToken) (req : BatchReq ρ) (start stop : Nat) : List Nat :=
  (List.range' start (stop - start)).map fun i : Nat => table (req.reqPoolIdx.getD 0) i

/-- `release_kv_cache` with a chunk cache: the committed slots, then those past
them from the next page on. -/
def chunkRelease (pageSize : Nat) (r : ChunkReq) (allocator : KvAllocator) (table : ReqToToken)
    (req : BatchReq ρ) : Except TreeCacheError KvAllocator := do
  let allocator ← (allocator.free (rowSlots table req 0 req.kvCommittedLen) r.dpRank).mapError .alloc
  if req.kvCommittedLen ≠ r.kvAllocatedLen then .error (.cache .assertionError)
  else
    let startP :=
      if pageSize > 1 then pagesFor pageSize req.kvCommittedLen * pageSize else req.kvCommittedLen
    if startP < r.kvAllocatedLen then
      (allocator.free ((rowSlots table req startP r.kvAllocatedLen).filter (· ≠ 0))
        r.dpRank).mapError .alloc
    else return allocator

/-- Up to where `_evict_swa` gives window slots back. -/
def newSwaEvicted (slidingWindowSize pageSize evicted preLen : Nat) : Nat :=
  let newEvicted := max evicted (preLen - slidingWindowSize - pageSize)
  if pageSize > 1 then newEvicted / pageSize * pageSize else newEvicted

/-- `_evict_swa` with a chunk cache; the state is `swa_evicted_seqlen` by request. -/
def chunkEvictSwa (slidingWindowSize pageSize : Nat) (evicted : Nat → Nat)
    (allocator : KvAllocator) (table : ReqToToken) (req : BatchReq ρ) (preLen dpRank : Nat) :
    Except TreeCacheError ((Nat → Nat) × KvAllocator) :=
  let newEvicted := newSwaEvicted slidingWindowSize pageSize (evicted req.uid) preLen
  if newEvicted ≤ evicted req.uid then .ok (evicted, allocator)
  else
    match allocator with
    | .swa s =>
      .ok (Function.update evicted req.uid newEvicted,
        .swa (s.freeSwa (rowSlots table req (evicted req.uid) newEvicted) dpRank))
    | .pool _ => .error (.cache .assertionError)

theorem chunkRelease_frees {pageSize : Nat} {r : ChunkReq} {a b : KvAllocator}
    {table : ReqToToken} {req : BatchReq ρ} (hok : chunkRelease pageSize r a table req = .ok b) :
    a.Frees b := by
  obtain ⟨a₁, hfree, hrest⟩ := bind_eq_ok.mp hok
  have hfirst := KvAllocator.frees_free (mapError_eq_ok.mp hfree)
  split at hrest
  · cases hrest
  · dsimp only at hrest
    split at hrest
    all_goals split at hrest
    · exact hfirst.trans (KvAllocator.frees_free (mapError_eq_ok.mp hrest))
    · cases hrest
      exact hfirst
    · exact hfirst.trans (KvAllocator.frees_free (mapError_eq_ok.mp hrest))
    · cases hrest
      exact hfirst

/-- `ChunkCache` and `SWAChunkCache`. -/
def chunkTreeCache (slidingWindowSize pageSize : Nat) (reqOf : BatchReq ρ → ChunkReq) :
    TreeCache (Nat → Nat) ρ where
  kind := .chunk
  evict evicted allocator _ := .ok (evicted, allocator)
  releaseKvCache evicted allocator table req :=
    (chunkRelease pageSize (reqOf req) allocator table req).map fun a =>
      (Function.update evicted req.uid 0, a)
  evictReqSwa := chunkEvictSwa slidingWindowSize pageSize
  evict_frees := by
    intro t t' a a' params hok
    cases hok
    exact .refl _
  releaseKvCache_frees := by
    intro t t' a a' table req hok
    obtain ⟨b, hb, heq⟩ := map_eq_ok.mp hok
    cases heq
    exact chunkRelease_frees hb
  evictReqSwa_frees := by
    intro t t' a a' table req preLen dpRank hok
    unfold chunkEvictSwa at hok
    dsimp only at hok
    split at hok
    · cases hok
      exact .refl _
    · cases a with
      | pool a => cases hok
      | swa s =>
        cases hok
        exact .step (.freeSwa _ dpRank)

/-- A decode step that was checked, or for which requests were retracted, never runs
out of memory; and retraction gives up no more than it has to. -/
theorem decode_memory_suffices {τ : Type} (cache : TreeCache τ ρ) (cfg : DecodeConfig ρ)
    (batch : ScheduleBatch ρ) (m : DecodeMem τ ρ) (hwf : m.allocator.WellFormed)
    (hlens : TreeCache.Committed batch.reqsInfo) :
    (∀ m', cache.checkDecodeMem none batch m = .ok (m', true) →
      ¬ TreeCache.OutOfMemory (cache.prepareForDecode cfg batch m')) ∧
    (∀ result, cache.retractDecode cfg batch m = .ok result →
      ¬ TreeCache.OutOfMemory (cache.prepareForDecode cfg result.batch result.mem) ∧
      ∃ splits, TreeCache.Retraction cache cfg batch m result splits) := by
  constructor
  · intro m' hcheck
    have hready := TreeCache.checkDecodeMem_ready cache hcheck
    obtain ⟨needs, -, hrest⟩ := bind_eq_ok.mp hcheck
    obtain ⟨m₁, hevict, heq⟩ := bind_eq_ok.mp hrest
    obtain ⟨rfl, -⟩ : m₁ = m' ∧ _ := Prod.mk.inj (Except.ok.inj heq)
    have hkeep := (TreeCache.evictTreeCacheIfNeeded_grows hevict).frees.keeps
    exact TreeCache.prepareForDecode_served cfg (hwf.keeps hkeep) hlens hready
  · intro result hretract
    obtain ⟨splits, hsound⟩ := TreeCache.retractDecode_retraction cfg hlens hretract
    refine ⟨?_, splits, hsound⟩
    have hkeep := hsound.ranks.frees.keeps
    apply TreeCache.prepareForDecode_served cfg (hwf.keeps hkeep) hsound.kept.committed
    exact hsound.kept.ready cfg hsound.ranks

/-! The loops of a step with one request at the first rank and one at the second;
the pool of the second has no slot left. -/

def smallReq (uid : Nat) : BatchReq Nat where
  uid := uid
  samplingParams := ⟨8, 0, 0, 0, 0, 0⟩
  returnLogprob := false
  returnOutputLogprobOnly := false
  returnHiddenStates := false
  stream := false
  hasGrammar := false
  topLogprobsNum := 0
  tokenIdsLogprob := none
  fillLen := 1
  kvCommittedLen := 1
  reqPoolIdx := some uid
  isChunked := 0
  finished := false
  nextToken := none

def smallRank (uid : Nat) : ScheduleReqsInfo Nat where
  reqs := [smallReq uid]
  samplingInfo := some (.fromScheduleBatch false [smallReq uid])
  reqPoolIndices := some [uid]
  seqLens := some [1]
  seqLensSum := 1

def smallBatch : ScheduleBatch Nat where
  reqsInfo := [smallRank 0, smallRank 1]
  returnLogprob := false
  returnOutputLogprobOnly := false
  hasStream := false
  hasGrammar := false
  returnHiddenStates := false
  isPrefillOnly := false

def smallConfig : DecodeConfig Nat where
  slidingWindowSize := none
  evictionIntervalMultiplier := 1
  enableOverlap := false
  retractDecodeSteps := 20
  progress _ := ⟨1, 0, 0⟩

def smallCache : TreeCache (Nat → Nat) Nat :=
  chunkTreeCache 0 1 fun r => ⟨r.uid, 1⟩

def smallMem (second : List Nat) : DecodeMem (Nat → Nat) Nat where
  tree _ := 0
  allocator := .pool (.token ⟨2, fun rank => if rank = 0 then [2] else second, fun _ => [], true⟩)
  reqToToken _ _ := 1
  released := []

theorem smallMem_wellFormed (second : List Nat) : (smallMem second).allocator.WellFormed where
  page_pos := Nat.one_pos
  same_pages := by simp [smallMem, KvAllocator.pools, KvAllocator.pageSize]

theorem smallBatch_committed : TreeCache.Committed smallBatch.reqsInfo := by
  simp [TreeCache.Committed, smallBatch, smallRank, smallReq]

theorem smallRank_sorted (uid : Nat) :
    TreeCache.sortedIndices smallConfig (smallRank uid) = [0] := by
  simp [TreeCache.sortedIndices, smallRank]

/-- The request of the second rank does not fit, and it is the last one there. -/
theorem smallMem_retracts : ∃ result,
    smallCache.retractDecode smallConfig smallBatch (smallMem []) = .ok result ∧
      result.reqsToAbort.map (·.uid) = [1] ∧ result.batch.allReqs.map (·.uid) = [0] := by
  have hfirst : ∃ m, smallCache.retractRank smallConfig 0 (smallRank 0) (smallMem []) =
      .ok (m, ⟨[0], [], []⟩) ∧ m = smallMem [] := by
    unfold TreeCache.retractRank
    rw [smallRank_sorted]
    exact ⟨_, rfl, rfl⟩
  obtain ⟨m, hfirst, rfl⟩ := hfirst
  have hsecond : ∃ m, smallCache.retractRank smallConfig 1 (smallRank 1) (smallMem []) =
      .ok (m, ⟨[], [], [0]⟩) := by
    unfold TreeCache.retractRank
    rw [smallRank_sorted]
    exact ⟨_, rfl⟩
  obtain ⟨m, hsecond⟩ := hsecond
  have hranks : smallCache.retractRanks smallConfig 0 smallBatch.reqsInfo (smallMem []) =
      .ok (m, [⟨[0], [], []⟩, ⟨[], [], [0]⟩]) :=
    bind_eq_ok.mpr ⟨_, hfirst, bind_eq_ok.mpr
      ⟨_, bind_eq_ok.mpr ⟨_, hsecond, bind_eq_ok.mpr ⟨_, rfl, rfl⟩⟩, rfl⟩⟩
  unfold TreeCache.retractDecode
  exact ⟨_, bind_eq_ok.mpr ⟨_, hranks, bind_eq_ok.mpr ⟨_, rfl, rfl⟩⟩, rfl, rfl⟩

theorem smallMem_suffices :
    smallCache.checkDecodeMem none smallBatch (smallMem [2]) = .ok (smallMem [2], true) ∧
      ¬ TreeCache.OutOfMemory
        (smallCache.prepareForDecode smallConfig smallBatch (smallMem [2])) ∧
      ∃ result, smallCache.retractDecode smallConfig smallBatch (smallMem []) = .ok result ∧
        ¬ TreeCache.OutOfMemory
          (smallCache.prepareForDecode smallConfig result.batch result.mem) := by
  have hfits : smallCache.checkDecodeMem none smallBatch (smallMem [2]) =
      .ok (smallMem [2], true) := rfl
  obtain ⟨result, hresult, -⟩ := smallMem_retracts
  have hchecked := (decode_memory_suffices smallCache smallConfig smallBatch (smallMem [2])
    (smallMem_wellFormed _) smallBatch_committed).1 _ hfits
  have hretracted := (decode_memory_suffices smallCache smallConfig smallBatch (smallMem [])
    (smallMem_wellFormed _) smallBatch_committed).2 result hresult
  exact ⟨hfits, hchecked, result, hresult, hretracted.1⟩

end SglJax.Managers
