import SglJax.MemCache.PageLayout

/-! The host side of the two KV tiers of HCA: request slots, recurrent slots, a ring
of window pages for every request and compressed pages that grow with it. -/
namespace SglJax.MemCache.Hca

/-- The settings of `HCAKVPool` and of the request pool, as their constructors check
them. -/
structure Pool where
  size : Nat
  pageSize : Nat
  maxNumRequests : Nat
  maxContextLen : Nat
  windowSize : Nat
  compressRatio : Nat
  dpSize : Nat
  recurrentSize : Nat
  pageSize_ge : 2 ≤ pageSize
  windowSize_mod : windowSize % pageSize = 0
  windowSize_pos : 0 < windowSize
  compressRatio_pos : 0 < compressRatio
  dpSize_pos : 0 < dpSize

/-- `_align`, `math.ceil(n / multiple) * multiple` -/
def align (value multiple : Nat) : Nat := (value + multiple - 1) / multiple * multiple

namespace Pool

variable (pool : Pool)

def windowPagesPerRank : Nat :=
  pool.maxNumRequests / pool.dpSize * (pool.windowSize / pool.pageSize)

/-- One page more for every request, as its last page is not full. -/
def compressedPagesPerRank : Nat :=
  pagesFor pool.pageSize (pool.size / pool.dpSize / pool.compressRatio) +
    pool.maxNumRequests / pool.dpSize

def createWindowAllocator : PagedAllocator :=
  .init (pool.windowPagesPerRank * pool.pageSize * pool.dpSize) pool.pageSize pool.dpSize

def createCompressedAllocator : PagedAllocator :=
  .init (pool.compressedPagesPerRank * pool.pageSize * pool.dpSize) pool.pageSize pool.dpSize

/-- `max_entries`, the length of a row of `compressed_slots`. -/
def maxEntries : Nat := align (pagesFor pool.compressRatio pool.maxContextLen) pool.pageSize

def slotsPerRank : Nat := pool.recurrentSize / pool.dpSize

end Pool

inductive HcaError where
  | valueError (message : String)
  | runtimeError (message : String)
  | assertionError (message : String)
  | typeError
  | indexError
  | resetFailed
deriving DecidableEq, Repr

/-- What `PagedTokenToKVPoolAllocator.alloc` asserts. -/
def notPageAligned : HcaError :=
  .assertionError "The allocation size should be page-aligned"

/-- The allocator with its request pool, and the two slots in every request object. -/
structure Allocator where
  windowAllocator : PagedAllocator
  compressedAllocator : PagedAllocator
  freeSlots : List Nat
  recurrentFreeSlots : Nat → List Nat
  windowSlots : Nat → List Nat
  compressedSlots : Nat → List Nat
  compressedCapacity : Nat → Nat
  requestDpRanks : Nat → Nat
  reqPoolIdx : Nat → Option Nat
  recurrentPoolIdx : Nat → Option Nat

/-- The rank that the scheduler gave a request. -/
structure Requests where
  dpRank : Nat → Option Nat

/-- `req.dp_rank or 0` -/
def Requests.rank (reqs : Requests) (r : Nat) : Nat := (reqs.dpRank r).getD 0

/-- What can fail in `alloc` after the preflight: the window of a request, and the
reset of the recurrent state. -/
structure Faults where
  window : Nat → Bool
  reset : Bool

namespace Allocator

variable (pool : Pool) (reqs : Requests)

/-- A new `HCAKVPoolAllocator` with a new `HybridReqToTokenPool`. -/
def init : Allocator where
  windowAllocator := pool.createWindowAllocator
  compressedAllocator := pool.createCompressedAllocator
  freeSlots := List.range pool.maxNumRequests
  recurrentFreeSlots := fun _ => List.range' 1 pool.slotsPerRank
  windowSlots := fun _ => List.replicate pool.windowSize 0
  compressedSlots := fun _ => List.replicate pool.maxEntries 0
  compressedCapacity := fun _ => 0
  requestDpRanks := fun _ => 0
  reqPoolIdx := fun _ => none
  recurrentPoolIdx := fun _ => none

end Allocator

/-- The requests without a slot take the first free ones, in order. -/
def assign : List Nat → List Nat → (Nat → Option Nat) → List Nat × (Nat → Option Nat)
  | [], free, idx => (free, idx)
  | r :: requests, free, idx =>
    match idx r, free with
    | none, slot :: free => assign requests free (Function.update idx r (some slot))
    | _, free => assign requests free idx

namespace Allocator

/-- `ReqToTokenPool.alloc`. A request is reused when it is chunked or has committed
KV. -/
def reqToTokenAlloc (isReused : Nat → Bool) (a : Allocator) (requests : List Nat) :
    Except HcaError (Allocator × Option (List Nat)) :=
  let chunked := requests.filter fun r => (a.reqPoolIdx r).isSome
  if chunked.length > 1 then
    .error (.assertionError "only one chunked request may reuse req_pool_idx in a batch")
  else if ¬ chunked.all isReused then
    .error (.assertionError "request has req_pool_idx but is not chunked")
  else
    let needSize := requests.length - chunked.length
    if needSize > a.freeSlots.length then .ok (a, none)
    else
      let (_, reqPoolIdx) := assign requests (a.freeSlots.take needSize) a.reqPoolIdx
      .ok ({ a with freeSlots := a.freeSlots.drop needSize, reqPoolIdx },
        some (requests.filterMap reqPoolIdx))

/-- `HybridReqToTokenPool.alloc` without the ping-pong buffer, which HCA does not
use. -/
def hybridAlloc (reqs : Requests) (isReused : Nat → Bool) (a : Allocator)
    (requests : List Nat) : Except HcaError (Allocator × Option (List Nat)) :=
  let dpRank := (requests.head?.map reqs.rank).getD 0
  let needed := requests.countP fun r => (a.recurrentPoolIdx r).isNone
  if needed > (a.recurrentFreeSlots dpRank).length then .ok (a, none)
  else
    match a.reqToTokenAlloc isReused requests with
    | .ok (a, some result) =>
      let (slots, recurrentPoolIdx) :=
        assign requests (a.recurrentFreeSlots dpRank) a.recurrentPoolIdx
      .ok ({ a with
        recurrentFreeSlots := Function.update a.recurrentFreeSlots dpRank slots
        recurrentPoolIdx }, some result)
    | other => other

/-- `HybridReqToTokenPool.free`: the recurrent slot, then the request slot. -/
def hybridFree (reqs : Requests) (a : Allocator) (r : Nat) :
    Allocator × Except HcaError Unit :=
  let a := match a.recurrentPoolIdx r with
    | none => a
    | some slot => { a with
      recurrentFreeSlots := Function.update a.recurrentFreeSlots (reqs.rank r)
        (a.recurrentFreeSlots (reqs.rank r) ++ [slot])
      recurrentPoolIdx := Function.update a.recurrentPoolIdx r none }
  match a.reqPoolIdx r with
  | none => (a, .error (.assertionError "request must have req_pool_idx"))
  | some slot => ({ a with
    freeSlots := a.freeSlots ++ [slot]
    reqPoolIdx := Function.update a.reqPoolIdx r none }, .ok ())

/-- The loop of `alloc` over the new requests: every one gets a window. It says which
requests got theirs, and what was raised. -/
def takeWindows (pool : Pool) (faults : Faults) (dpRank : Nat) : List Nat → Allocator →
    Allocator × List Nat × Option HcaError
  | [], a => (a, [], none)
  | r :: requests, a =>
    let slots := if faults.window r then .ok (a.windowAllocator, none)
      else a.windowAllocator.alloc pool.windowSize dpRank
    match slots with
    | .error _ => (a, [], some notPageAligned)
    | .ok (windowAllocator, none) => ({ a with windowAllocator }, [],
      some (.runtimeError "HCA window allocation failed after preflight"))
    | .ok (windowAllocator, some slots) =>
      match a.reqPoolIdx r with
      | none => ({ a with windowAllocator }, [], some .typeError)
      | some reqIndex =>
        let (a, allocated, raised) := takeWindows pool faults dpRank requests
          { a with
            windowAllocator
            windowSlots := Function.update a.windowSlots reqIndex slots
            requestDpRanks := Function.update a.requestDpRanks reqIndex dpRank }
        (a, r :: allocated, raised)

/-- A window goes back to its allocator. -/
def returnWindow (dpRank : Nat) (a : Allocator) (r : Nat) : Allocator :=
  match a.reqPoolIdx r with
  | none => a
  | some reqIndex => { a with
    windowAllocator := a.windowAllocator.free (a.windowSlots reqIndex) dpRank
    windowSlots := Function.update a.windowSlots reqIndex
      (List.replicate (a.windowSlots reqIndex).length 0) }

/-- The request slots of the new requests go back. -/
def returnRequests (reqs : Requests) : List Nat → Allocator → Allocator × Except HcaError Unit
  | [], a => (a, .ok ())
  | r :: requests, a =>
    if (a.reqPoolIdx r).isSome then
      match a.hybridFree reqs r with
      | (a, .error raised) => (a, .error raised)
      | (a, .ok ()) => returnRequests reqs requests a
    else returnRequests reqs requests a

/-- The `except` branch of `alloc`. -/
def rollback (reqs : Requests) (dpRank : Nat) (allocated newRequests : List Nat)
    (raised : HcaError) (a : Allocator) : Allocator × HcaError :=
  match returnRequests reqs newRequests (allocated.foldl (returnWindow dpRank) a) with
  | (a, .error raised) => (a, raised)
  | (a, .ok ()) => (a, raised)

/-- `HCAKVPoolAllocator.alloc` -/
def alloc (pool : Pool) (reqs : Requests) (isReused : Nat → Bool) (faults : Faults)
    (a : Allocator) (requests : List Nat) : Allocator × Except HcaError (Option (List Nat)) :=
  match requests with
  | [] => (a, .ok (some []))
  | first :: _ =>
    let dpRank := reqs.rank first
    if requests.any fun r => reqs.rank r ≠ dpRank then
      (a, .error (.valueError "one HCA allocation call must contain one DP rank"))
    else if pool.dpSize ≤ dpRank then (a, .error .indexError)
    else
      let newRequests := requests.filter fun r => (a.reqPoolIdx r).isNone
      let windowTokens := newRequests.length * pool.windowSize
      if a.windowAllocator.availableSize dpRank < windowTokens then (a, .ok none)
      else
        match a.hybridAlloc reqs isReused requests with
        | .error raised => (a, .error raised)
        | .ok (a, none) => (a, .ok none)
        | .ok (a, some result) =>
          match takeWindows pool faults dpRank newRequests a with
          | (a, allocated, some raised) =>
            let (a, raised) := a.rollback reqs dpRank allocated newRequests raised
            (a, .error raised)
          | (a, allocated, none) =>
            if newRequests ≠ [] ∧ faults.reset then
              let (a, raised) := a.rollback reqs dpRank allocated newRequests .resetFailed
              (a, .error raised)
            else (a, .ok (some result))

/-- The capacities to grow to, from the active rows of a batch. -/
def desired (pool : Pool) (reqPoolIndices seqLens : List Int) : List (Nat × Nat) :=
  ((reqPoolIndices.zip seqLens).filter fun row => 0 < row.2).map fun row =>
    (row.1.toNat, row.2.toNat / pool.compressRatio)

/-- `needed_by_rank` -/
def neededByRank (a : Allocator) (aligned : List (Nat × Nat)) (dpRank : Nat) : Nat :=
  (aligned.map fun (reqIndex, newCapacity) =>
    if a.requestDpRanks reqIndex = dpRank then newCapacity - a.compressedCapacity reqIndex
    else 0).sum

def exhausted (dpRank : Nat) : HcaError :=
  .runtimeError ("HCA compressed cache exhausted on DP rank " ++ toString dpRank)

/-- The loop of `ensure_compressed_capacity` that takes the pages. -/
def grow (a : Allocator) : List (Nat × Nat) → Allocator × Except HcaError Unit
  | [] => (a, .ok ())
  | (reqIndex, newCapacity) :: rest =>
    let oldCapacity := a.compressedCapacity reqIndex
    if newCapacity ≤ oldCapacity then grow a rest
    else
      let rank := a.requestDpRanks reqIndex
      match a.compressedAllocator.alloc (newCapacity - oldCapacity) rank with
      | .error _ => (a, .error notPageAligned)
      | .ok (compressedAllocator, none) => ({ a with compressedAllocator }, .error (exhausted rank))
      | .ok (compressedAllocator, some slots) =>
        let row := a.compressedSlots reqIndex
        grow { a with
          compressedAllocator
          compressedSlots := Function.update a.compressedSlots reqIndex
            (row.take oldCapacity ++ slots ++ row.drop newCapacity)
          compressedCapacity := Function.update a.compressedCapacity reqIndex newCapacity } rest

/-- What `ensure_compressed_capacity` and `page_tables` check first. -/
def checkBatch (pool : Pool) (reqPoolIndices seqLens : List Int) : Except HcaError Unit :=
  if reqPoolIndices.length ≠ seqLens.length then
    .error (.valueError "req_pool_indices and seq_lens must have the same shape")
  else if seqLens.any (· < 0) then
    .error (.valueError "HCA sequence lengths must be non-negative")
  else if (reqPoolIndices.zip seqLens).any fun row =>
      0 < row.2 ∧ (row.1 < 0 ∨ pool.maxNumRequests ≤ row.1) then
    .error (.valueError "active HCA requests require allocated request slots")
  else .ok ()

/-- `HCAKVPoolAllocator.ensure_compressed_capacity` -/
def ensureCompressedCapacity (pool : Pool) (a : Allocator) (reqPoolIndices seqLens : List Int) :
    Allocator × Except HcaError Unit :=
  match checkBatch pool reqPoolIndices seqLens with
  | .error raised => (a, .error raised)
  | .ok () =>
    let desired := desired pool reqPoolIndices seqLens
    if desired.any fun row => pool.maxEntries < row.2 then
      (a, .error (.valueError "sequence exceeds HCA max_context_len"))
    else
      let aligned := desired.map fun (reqIndex, value) =>
        (reqIndex, if value ≠ 0 then align value pool.pageSize else 0)
      match (List.range pool.dpSize).find? fun rank =>
          a.compressedAllocator.availableSize rank < a.neededByRank aligned rank with
      | some rank => (a, .error (exhausted rank))
      | none => a.grow aligned

/-- `HCAKVPoolAllocator.free` -/
def free (reqs : Requests) (a : Allocator) (r : Nat) : Allocator × Except HcaError Unit :=
  match a.reqPoolIdx r with
  | none => (a, .error (.valueError "request is not allocated"))
  | some reqIndex =>
    let dpRank := reqs.rank r
    let window := a.windowSlots reqIndex
    let a := if window.any (· ≠ 0) then { a with
        windowAllocator := a.windowAllocator.free window dpRank
        windowSlots := Function.update a.windowSlots reqIndex (List.replicate window.length 0) }
      else a
    let capacity := a.compressedCapacity reqIndex
    let row := a.compressedSlots reqIndex
    let a := if capacity ≠ 0 then { a with
        compressedAllocator := a.compressedAllocator.free (row.take capacity) dpRank
        compressedSlots := Function.update a.compressedSlots reqIndex
          (List.replicate row.length 0)
        compressedCapacity := Function.update a.compressedCapacity reqIndex 0 }
      else a
    let a := { a with requestDpRanks := Function.update a.requestDpRanks reqIndex 0 }
    a.hybridFree reqs r

/-- `PagedTokenToKVPoolAllocator.clear` makes every page free again. -/
def clear (pool : Pool) (a : Allocator) : Allocator :=
  { init pool with reqPoolIdx := a.reqPoolIdx, recurrentPoolIdx := a.recurrentPoolIdx }

/-- `page_tables`: the pages of the two tiers, one request after the other, and where
each request starts in them. -/
structure PageTables where
  windowPages : List Nat
  windowCu : List Nat
  compressedPages : List Nat
  compressedCu : List Nat
  compressedLens : List Nat
deriving DecidableEq, Repr

def logicalPages (pool : Pool) (len : Nat) : Nat := max 1 (pagesFor pool.pageSize len)

/-- The pages of a ring, repeated over a sequence. -/
def windowRow (pool : Pool) (a : Allocator) (reqIndex : Int) (seqLen : Nat) : List Nat :=
  if seqLen ≠ 0 then
    let physicalPages := pagesOf pool.pageSize (a.windowSlots reqIndex.toNat)
    (List.range (logicalPages pool seqLen)).map fun k =>
      physicalPages.getD (k % physicalPages.length) 0
  else [0]

def compressedRow (pool : Pool) (a : Allocator) (reqIndex : Int) (logicalLen : Nat) :
    List Nat :=
  if logicalLen ≠ 0 then
    pagesOf pool.pageSize ((a.compressedSlots reqIndex.toNat).take
      (logicalPages pool logicalLen * pool.pageSize))
  else [0]

/-- The first position of every row, and the end of the last one. -/
def cumulative : Nat → List Nat → List Nat
  | start, [] => [start]
  | start, size :: sizes => start :: cumulative (start + size) sizes

/-- `HCAKVPoolAllocator.page_tables` -/
def pageTables (pool : Pool) (a : Allocator) (reqPoolIndices seqLens : List Int) :
    Except HcaError PageTables := do
  checkBatch pool reqPoolIndices seqLens
  if (desired pool reqPoolIndices seqLens).any fun row =>
      a.compressedCapacity row.1 < row.2 then
    .error (.runtimeError "ensure_compressed_capacity must run before page_tables")
  else
    let seqLens := seqLens.map Int.toNat
    let compressedLens := seqLens.map (· / pool.compressRatio)
    .ok {
      windowPages := (List.zipWith (a.windowRow pool) reqPoolIndices seqLens).flatten
      windowCu := cumulative 0 (seqLens.map fun len => logicalPages pool len * pool.pageSize)
      compressedPages :=
        (List.zipWith (a.compressedRow pool) reqPoolIndices compressedLens).flatten
      compressedCu :=
        cumulative 0 (compressedLens.map fun len => logicalPages pool len * pool.pageSize)
      compressedLens }

end Allocator
end SglJax.MemCache.Hca
