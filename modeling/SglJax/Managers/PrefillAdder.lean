import SglJax.Managers.DecodeMemory

/-! `PrefillAdder`: which waiting requests the next prefill batch takes. The
rationals stand for the floats. What a mutable request object holds is passed
through the calls and returned with its changes. -/
namespace SglJax.Managers

open MemCache

inductive AddReqResult where
  | continue_
  | noToken
  | dpBudgetExhausted
  | other
deriving DecidableEq, Repr

/-- What admission reads and changes of a request. `lockParams` is the receipt of
the lock on its last node. -/
structure WaitingReq (R : Type) where
  uid : Nat
  dpRank : Nat
  originInputLen : Nat
  outputLen : Nat
  maxNewTokens : Nat
  ignoreEos : Bool
  fillIds : List Nat
  prefixIndices : List Nat
  extendInputLen : Int
  hostHitLength : Nat
  lastNode : Nat
  lastHostNode : Nat
  lastMatchedPrefixLen : Nat
  lockParams : Option R
deriving DecidableEq, Repr

/-- A plan to copy host pages to device pages. -/
abbrev FlushPlan := List (List Nat × List Nat)

/-- What `init_load_back` leaves and returns. -/
structure LoadBack (τ : Type) where
  tree : τ
  allocator : KvAllocator
  newIndices : List Nat
  lastNode : Nat
  flushPlan : FlushPlan

/-- What admission calls of the tree cache. `locks` is what the locks of a tree
are; a release gives them back, also when nothing could be loaded in between. -/
structure AdmissionCache (τ R Λ : Type) where
  disable : τ → Bool
  hicacheEnabled : Bool
  recurrentTrackInterval : Option Nat
  slidingWindowSize : Nat
  evictionIntervalMultiplier : ℚ
  evictableSize : τ → Nat → Int
  fullEvictableSize : τ → Nat → Int
  swaEvictableSize : τ → Nat → Int
  incLockRef : τ → Nat → τ × R
  decLockRef : τ → Nat → R → τ
  initLoadBack : τ → KvAllocator → Nat → Nat → Nat → LoadBack τ
  locks : τ → Λ
  locks_release : ∀ t node,
    locks (decLockRef (incLockRef t node).1 node (incLockRef t node).2) = locks t
  nothing_loaded : ∀ t a node hostNode hostHitLength memQuota,
    let load := initLoadBack (incLockRef t node).1 a hostNode hostHitLength memQuota
    load.newIndices = [] → load.allocator = a ∧
      locks (decLockRef load.tree node (incLockRef t node).2) = locks t

/-- `CLIP_MAX_NEW_TOKENS_ESTIMATION`, without the environment variable. -/
def clipMaxNewTokensEstimation : Nat := 4096

/-- `IGNORE_EOS_RESERVE_TOKENS` -/
def ignoreEosReserveTokens : Nat := 1

structure PrefillAdder (τ R : Type) where
  pageSize : Nat
  dpSize : Nat
  tree : τ
  allocator : KvAllocator
  runningReqs : Nat → List (WaitingReq R)
  newTokenRatio : ℚ
  remInputTokens : Int
  remChunkTokens : Option Int
  remChunkTokensList : Option (Nat → Int)
  remTotalTokenOffset : Nat → ℚ
  curRemTokenOffset : Nat → ℚ
  remSwaTokenOffset : Nat → Int
  reqStates : Nat → Option (List (ℚ × Nat))
  canRunList : Nat → List (WaitingReq R)
  newChunkedReqs : Nat → Option (WaitingReq R)
  pendingH2d : FlushPlan
  logHitTokens : Nat
  logInputTokens : Int

/-- `ceil_paged_tokens` -/
def ceilPagedTokens (pageSize : Nat) (tokens : Int) : Int := -(-tokens / pageSize) * pageSize

theorem ceilPagedTokens_mono (pageSize : Nat) {tokens more : Int} (h : tokens ≤ more) :
    ceilPagedTokens pageSize tokens ≤ ceilPagedTokens pageSize more := by
  unfold ceilPagedTokens
  rcases Nat.eq_zero_or_pos pageSize with rfl | hpage
  · simp
  · have hdiv := Int.ediv_le_ediv (Int.natCast_pos.mpr hpage) (Int.neg_le_neg h)
    exact mul_le_mul_of_nonneg_right (Int.neg_le_neg hdiv) (Int.natCast_nonneg _)

/-- `align_page_size`, which is given a float. -/
def alignPageSize (pageSize : Nat) (size : ℚ) : ℚ := ⌊(size + pageSize - 1) / pageSize⌋ * pageSize

/-- `swa_eviction_peak_tokens` -/
def swaEvictionPeakTokens (slidingWindowSize pageSize : Nat) (multiplier : ℚ) : Nat :=
  slidingWindowSize + swaEvictionInterval slidingWindowSize pageSize multiplier + 2 * pageSize

variable {τ R Λ : Type}

def WaitingReq.clippedNewTokens (req : WaitingReq R) : Nat :=
  min req.maxNewTokens clipMaxNewTokensEstimation

namespace PrefillAdder

section Budgets

variable (cache : AdmissionCache τ R Λ) (a : PrefillAdder τ R) (dpRank : Nat)

def isHybrid (a : PrefillAdder τ R) : Bool :=
  match a.allocator with
  | .swa _ => true
  | .pool _ => false

def availableAndEvictable : Int :=
  match a.allocator with
  | .swa s => s.fullAvailableSize dpRank + cache.fullEvictableSize a.tree dpRank
  | .pool p => p.availableSize dpRank + cache.evictableSize a.tree dpRank

def remTotalTokensForDp : ℚ := availableAndEvictable cache a dpRank - a.remTotalTokenOffset dpRank

def curRemTokensForDp : ℚ := availableAndEvictable cache a dpRank - a.curRemTokenOffset dpRank

/-- `rem_swa_tokens_for_dp`, for a hybrid allocator. -/
def remSwaTokensForDp : Int :=
  match a.allocator with
  | .swa s =>
    s.swaAvailableSize dpRank + cache.swaEvictableSize a.tree dpRank - a.remSwaTokenOffset dpRank
  | .pool _ => 0

def swaDecodePeakTokens : Int :=
  ceilPagedTokens a.pageSize
    (swaEvictionPeakTokens cache.slidingWindowSize a.pageSize cache.evictionIntervalMultiplier)

/-- `_swa_budget_for_req` -/
def swaBudgetForReq (extendInputLen : Int) : Int :=
  let alloc := a.remChunkTokensList.elim extendInputLen fun rem => min extendInputLen (rem dpRank)
  ceilPagedTokens a.pageSize (max alloc (swaDecodePeakTokens cache a))

/-- `_recurrent_boundary_cap` -/
def recurrentBoundaryCap (prefixLen : Nat) : Option Nat :=
  cache.recurrentTrackInterval.map fun interval =>
    (prefixLen / interval + 1) * interval - prefixLen

/-- `_budget_state_after_add` -/
def budgetStateAfterAdd : AddReqResult :=
  if a.remInputTokens ≤ 0 ∨ a.remChunkTokens.any (· ≤ 0) then .other
  else if isHybrid a ∧ remSwaTokensForDp cache a dpRank ≤ 0 then .noToken
  else .continue_

/-- `sum(len(v) for v in self.can_run_list.values())` -/
def totalCanRun (a : PrefillAdder τ R) : Nat :=
  ((List.range a.dpSize).map fun rank => (a.canRunList rank).length).sum

/-- `_update_prefill_budget` -/
def updatePrefillBudget (prefixLen : Nat) (extendInputLen : Int) (maxNewTokens : Nat) :
    PrefillAdder τ R :=
  let paged := ceilPagedTokens a.pageSize extendInputLen
  { a with
    remTotalTokenOffset := Function.update a.remTotalTokenOffset dpRank
      (a.remTotalTokenOffset dpRank + (paged + maxNewTokens))
    curRemTokenOffset := Function.update a.curRemTokenOffset dpRank
      (a.curRemTokenOffset dpRank + paged)
    remInputTokens := a.remInputTokens - paged
    remSwaTokenOffset :=
      if isHybrid a then Function.update a.remSwaTokenOffset dpRank
        (a.remSwaTokenOffset dpRank + swaBudgetForReq cache a dpRank paged)
      else a.remSwaTokenOffset
    remChunkTokensList :=
      a.remChunkTokensList.map fun rem => Function.update rem dpRank (rem dpRank - paged)
    logHitTokens := a.logHitTokens + prefixLen
    logInputTokens := a.logInputTokens + paged }

/-- The request goes into `can_run_list`, and into `new_chunked_reqs` when only a
part of it runs. -/
def append (chunked : Bool) (req : WaitingReq R) : PrefillAdder τ R :=
  { a with
    canRunList := Function.update a.canRunList dpRank (a.canRunList dpRank ++ [req])
    newChunkedReqs :=
      if chunked then Function.update a.newChunkedReqs dpRank (some req) else a.newChunkedReqs }

end Budgets

/-! ### The ignore-eos path -/

section IgnoreEos

variable (cache : AdmissionCache τ R Λ) (a : PrefillAdder τ R)

/-- What a request may still decode. -/
def tokensLeft (r : WaitingReq R) : ℚ :=
  alignPageSize a.pageSize (r.maxNewTokens * (if r.ignoreEos then 1 else a.newTokenRatio)) -
    r.outputLen

def tokensOccupied (r : WaitingReq R) : Nat := r.originInputLen + r.outputLen

/-- `add_req_state` at the end of the list -/
def addReqState (states : List (ℚ × Nat)) (r : WaitingReq R) : List (ℚ × Nat) :=
  if tokensLeft a r ≤ 0 then states else states ++ [(tokensLeft a r, tokensOccupied r)]

/-- Where `insert_sort` puts a request: before the first one with as many tokens
left, and before the last one when there is none. -/
def insertPos (states : List (ℚ × Nat)) (left : ℚ) : Nat :=
  (states.findIdx? fun s => decide (left ≤ s.1)).getD (states.length - 1)

/-- `add_req_state` with `insert_sort` -/
def insertReqState (states : List (ℚ × Nat)) (r : WaitingReq R) : List (ℚ × Nat) :=
  if tokensLeft a r ≤ 0 then states
  else states.insertIdx (insertPos states (tokensLeft a r)) (tokensLeft a r, tokensOccupied r)

/-- `req_states` of the rank with the request in it. -/
def reqStatesWith (req : WaitingReq R) : List (ℚ × Nat) :=
  match a.reqStates req.dpRank with
  | none =>
    (([req] ++ a.runningReqs req.dpRank ++ a.canRunList req.dpRank).foldl (addReqState a)
      []).mergeSort fun x y => decide (x.1 ≤ y.1)
  | some states => insertReqState a states req

/-- The loop over `req_states`: whether enough tokens are free at each moment a
request ends. -/
def tokensSuffice (curRemTokens : ℚ) : List (ℚ × Nat) → Nat → Bool
  | [], _ => true
  | (left, occupied) :: rest, tokensFreed =>
    let bs := rest.length + 1
    if curRemTokens + tokensFreed - left * bs ≤ ignoreEosReserveTokens * bs then false
    else tokensSuffice curRemTokens rest (tokensFreed + occupied)

/-- The tests before the candidate is put into `req_states`. -/
def ignoreEosNoToken (req : WaitingReq R) : Bool :=
  let pagedInput := ceilPagedTokens a.pageSize req.extendInputLen
  decide ((pagedInput : ℚ) >
      min (curRemTokensForDp cache a req.dpRank) (remTotalTokensForDp cache a req.dpRank)) ||
    (isHybrid a && decide (swaBudgetForReq cache a req.dpRank req.extendInputLen >
      remSwaTokensForDp cache a req.dpRank))

/-- The test of `add_one_req_ignore_eos` with the candidate in `req_states`. -/
def ignoreEosFits (req : WaitingReq R) : Bool :=
  tokensSuffice (curRemTokensForDp cache a req.dpRank -
    ceilPagedTokens a.pageSize req.extendInputLen) (reqStatesWith a req) 0

/-- The rest of `add_one_req_ignore_eos`. -/
def ignoreEosAdmit (req : WaitingReq R) : PrefillAdder τ R × WaitingReq R × AddReqResult :=
  let dpRank := req.dpRank
  match a.remChunkTokensList with
  | some rem =>
    if req.extendInputLen ≤ rem dpRank then
      let a := updatePrefillBudget cache (append a dpRank false req) dpRank 0 req.extendInputLen
        req.clippedNewTokens
      (a, req, budgetStateAfterAdd cache a dpRank)
    else if rem dpRank ≤ 0 then (a, req, .dpBudgetExhausted)
    else
      let truncLen := rem dpRank
      let req := { req with extendInputLen := truncLen, fillIds := req.fillIds.take truncLen.toNat }
      let a := updatePrefillBudget cache (append a dpRank true req) dpRank 0 truncLen 0
      (a, req, budgetStateAfterAdd cache a dpRank)
  | none =>
    let a := updatePrefillBudget cache (append a dpRank false req) dpRank 0 req.extendInputLen
      req.clippedNewTokens
    (a, req, budgetStateAfterAdd cache a dpRank)

/-- `add_one_req_ignore_eos` -/
def addOneReqIgnoreEos (req : WaitingReq R) : PrefillAdder τ R × WaitingReq R × AddReqResult :=
  if ignoreEosNoToken cache a req then (a, req, .noToken)
  else
    let b := { a with
      reqStates := Function.update a.reqStates req.dpRank (some (reqStatesWith a req)) }
    if ignoreEosFits cache a req then ignoreEosAdmit cache b req else (b, req, .noToken)

end IgnoreEos

/-! ### The cached path -/

section Cached

variable (cache : AdmissionCache τ R Λ) (a : PrefillAdder τ R) (req : WaitingReq R)

def totalTokens (req : WaitingReq R) : Int := req.extendInputLen + req.clippedNewTokens

/-- The budget tests, made before and after the lock. -/
def noToken : Bool :=
  decide ((totalTokens req : ℚ) ≥ remTotalTokensForDp cache a req.dpRank) ||
    (isHybrid a && decide (swaBudgetForReq cache a req.dpRank req.extendInputLen ≥
      remSwaTokensForDp cache a req.dpRank))

/-- Without chunked prefill only the first request may use up the input budget. -/
def inputBudgetSpent (inputTokens : Int) : Bool :=
  a.remChunkTokensList.isNone && decide (inputTokens ≥ a.remInputTokens) && totalCanRun a != 0

/-- The rank's chunk budget is gone. -/
def chunkExhausted (dpRank : Nat) : Bool :=
  a.remChunkTokensList.any fun rem => decide (rem dpRank ≤ 0)

/-- The chunk budget holds no whole page of a request that is too long for it. -/
def chunkTooShort : Bool :=
  a.remChunkTokensList.any fun rem =>
    let left : Int := rem req.dpRank
    decide (ceilPagedTokens a.pageSize req.extendInputLen > left) &&
      decide (left / a.pageSize * a.pageSize ≤ 0)

/-- `allocator.available_size`, the quota of a load. -/
def memQuota (dpRank : Nat) : Nat :=
  match a.allocator with
  | .swa s => min (s.fullAvailableSize dpRank) (s.swaAvailableSize dpRank)
  | .pool p => p.availableSize dpRank

def wantsLoadBack : Bool := cache.hicacheEnabled && decide (0 < req.hostHitLength)

/-- The call of `init_load_back`, when it is made. -/
def load : LoadBack τ :=
  cache.initLoadBack a.tree a.allocator req.lastHostNode req.hostHitLength (memQuota a req.dpRank)

/-- The host-only prefix is pulled back to the device. -/
def loadBack : PrefillAdder τ R × WaitingReq R :=
  if wantsLoadBack cache req then
    let loaded := load cache a req
    let a := { a with tree := loaded.tree, allocator := loaded.allocator }
    if loaded.newIndices = [] then (a, req)
    else
      let prefixIndices := req.prefixIndices ++ loaded.newIndices
      ({ a with pendingH2d := a.pendingH2d ++ loaded.flushPlan },
        { req with
          prefixIndices := prefixIndices
          lastNode := loaded.lastNode
          lastHostNode := loaded.lastNode
          hostHitLength := req.hostHitLength - loaded.newIndices.length
          extendInputLen := (req.fillIds.length : Int) - prefixIndices.length })
  else (a, req)

/-- The request would cross a recurrent track boundary. -/
def boundaryTruncated : Bool :=
  (recurrentBoundaryCap cache req.prefixIndices.length).any fun cap =>
    decide (req.extendInputLen > cap)

/-- The request cut at the boundary. -/
def capAtBoundary : WaitingReq R :=
  match recurrentBoundaryCap cache req.prefixIndices.length with
  | some cap =>
    if req.extendInputLen > cap then
      { req with
        extendInputLen := cap
        fillIds := req.fillIds.take (req.prefixIndices.length + cap) }
    else req
  | none => req

/-- The request is appended and its last node locked. -/
def appendLocked (chunked : Bool) (extendInputLen : Int) (maxNewTokens : Nat) :
    PrefillAdder τ R × WaitingReq R :=
  let (tree, receipt) := cache.incLockRef a.tree req.lastNode
  let req := { req with lockParams := some receipt }
  (updatePrefillBudget cache { append a req.dpRank chunked req with tree := tree } req.dpRank
    req.prefixIndices.length extendInputLen maxNewTokens, req)

/-- The tests and the admission after the load; `none` stands for an admission. -/
def admitLoaded : PrefillAdder τ R × WaitingReq R × Option AddReqResult :=
  let req := { req with lastMatchedPrefixLen := req.prefixIndices.length }
  let truncated := boundaryTruncated cache req
  let req := capAtBoundary cache req
  let inputTokens := ceilPagedTokens a.pageSize req.extendInputLen
  if inputBudgetSpent a inputTokens then (a, req, some .other)
  else
    match a.remChunkTokensList with
    | none =>
      let (a, req) :=
        appendLocked cache a req truncated inputTokens
          (if truncated then 0 else req.clippedNewTokens)
      (a, req, none)
    | some rem =>
      if inputTokens ≤ rem req.dpRank then
        let (a, req) :=
          appendLocked cache a req truncated inputTokens
            (if truncated then 0 else req.clippedNewTokens)
        (a, req, none)
      else
        let truncLen : Int := rem req.dpRank / a.pageSize * a.pageSize
        if truncLen ≤ 0 then (a, req, some .dpBudgetExhausted)
        else
          let req := { req with
            extendInputLen := truncLen
            fillIds := req.fillIds.take (req.prefixIndices.length + truncLen.toNat) }
          let (a, req) := appendLocked cache a req true truncLen 0
          (a, req, none)

/-- What `add_one_req` does while the request's last node is locked. -/
def addLocked : PrefillAdder τ R × WaitingReq R × Option AddReqResult :=
  if noToken cache a req then (a, req, some .noToken)
  else if chunkTooShort a req then (a, req, some .dpBudgetExhausted)
  else
    let (a, req) := loadBack cache a req
    admitLoaded cache a req

/-- The tests of `add_one_req` before the lock. -/
def rejectsEarly : Option AddReqResult :=
  if noToken cache a req then some .noToken
  else if inputBudgetSpent a
      (ceilPagedTokens a.pageSize (req.extendInputLen - req.hostHitLength)) then some .other
  else none

/-- `add_one_req` -/
def addOneReq : PrefillAdder τ R × WaitingReq R × AddReqResult :=
  if chunkExhausted a req.dpRank then (a, req, .dpBudgetExhausted)
  else if req.ignoreEos && cache.disable a.tree then addOneReqIgnoreEos cache a req
  else
    match rejectsEarly cache a req with
    | some result => (a, req, result)
    | none =>
      let (tree, receipt) := cache.incLockRef a.tree req.lastNode
      let (b, req', result) := addLocked cache { a with tree := tree } req
      let b := { b with tree := cache.decLockRef b.tree req.lastNode receipt }
      (b, req', result.getD (budgetStateAfterAdd cache b req.dpRank))

end Cached

end PrefillAdder
end SglJax.Managers
