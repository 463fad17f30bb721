import SglJax.MemCache.KvRoom

/-! The pathways scheduler: requests are admitted to prefill slices against a limit for
all decode slices, and migrate to one of them when their prefill is done. -/
namespace SglJax.Disaggregation.Pathways

open MemCache

/-- What the scheduler is built with. A decode slice has at least as many request slots as
the running limits of its ranks. -/
structure Settings where
  nPrefill : Nat
  nDecode : Nat
  dpSize : Nat
  perDpMaxRunningRequests : Nat
  reqSlots : Nat
  pageSize : Nat
  numReservedDecodeTokens : Nat
  maxInflightTransfers : Nat
  allocators : Nat → KvAllocator
  limit : dpSize * perDpMaxRunningRequests ≤ reqSlots
  dpSize_pos : 0 < dpSize
  nDecode_pos : 0 < nDecode
  wellFormed : ∀ d, (allocators d).WellFormed
  samePages : ∀ d, (allocators d).pageSize = pageSize

/-- A request; `numPages` is the length of its `p_pages`. -/
structure Req where
  rid : String
  dpRank : Nat
  numPages : Nat
  isChunked : Int
  kvCommittedLen : Nat
deriving DecidableEq, Repr

/-- A batch of a prefill slice: requests in their last chunk and chunked ones. -/
structure PrefillBatch where
  pIdx : Nat
  done : List Req
  mid : List Req

/-- An item of `_pd_ready_q`. -/
structure ReadyItem where
  dIdx : Nat
  batch : PrefillBatch

/-- A request of a running batch; it has no slot any more when it is finished. -/
structure RunningReq where
  req : Req
  reqPoolIdx : Option Nat
deriving DecidableEq, Repr

/-- The pools and the running batch of a decode slice. -/
structure DecodeSlice where
  reqToTokenPool : ReqToTokenPool
  allocator : KvAllocator
  running : List RunningReq

/-- An entry of `p_chunked_reqs`. -/
structure ChunkedReq where
  pIdx : Nat
  req : Req

structure Scheduler where
  /-- The keys of `_pd_inflight`. -/
  inflight : List String
  chunkedReqs : List ChunkedReq
  /-- The batches of all prefill queues, in the order in which they were pushed. -/
  prefillQ : List PrefillBatch
  readyQ : List ReadyItem
  deferred : List ReadyItem
  nextDPerDp : Nat → Nat
  slices : Nat → DecodeSlice

def Scheduler.init (settings : Settings) : Scheduler where
  inflight := []
  chunkedReqs := []
  prefillQ := []
  readyQ := []
  deferred := []
  nextDPerDp := fun _ => 0
  slices := fun d => ⟨.init settings.reqSlots, settings.allocators d, []⟩

namespace Scheduler

variable (settings : Settings) (s : Scheduler)

/-! ### Admission -/

/-- `_pd_track_inflight` -/
def trackInflight (inflight : List String) (req : Req) : List String :=
  if req.rid ∈ inflight then inflight else inflight ++ [req.rid]

/-- `_pd_untrack_inflight` -/
def untrackInflight (inflight : List String) (req : Req) : List String :=
  inflight.filter (· ≠ req.rid)

/-- `_pd_total_d_running` -/
def totalDRunning : Nat :=
  (Finset.range settings.nDecode).sum fun d => (s.slices d).running.length

/-- `per_dp_max_running_requests` while a batch is built. -/
def newRequestLimit : Nat :=
  settings.perDpMaxRunningRequests * settings.nDecode -
    (s.inflight.length + s.totalDRunning settings + settings.dpSize - 1) / settings.dpSize

/-- The slice's queue takes the batch; the chunked requests in it own the slice's next
chunks, beside those of `kept`. -/
def push (batch : PrefillBatch) (kept : List ChunkedReq) : Scheduler :=
  { s with
    inflight := (batch.done ++ batch.mid).foldl trackInflight s.inflight
    chunkedReqs := kept ++ batch.mid.map (ChunkedReq.mk batch.pIdx)
    prefillQ := s.prefillQ ++ [batch] }

/-! ### Prefill -/

/-- The first batch of a queue, and the other batches. -/
def popQueue (pIdx : Nat) : List PrefillBatch → Option (PrefillBatch × List PrefillBatch)
  | [] => none
  | batch :: rest =>
    if batch.pIdx = pIdx then some (batch, rest)
    else (popQueue pIdx rest).map fun popped => (popped.1, batch :: popped.2)

/-- What `_pd_prefill_loop` does with a batch: it goes to the next decode slice of the rank
of its first request that is done. -/
def route (batch : PrefillBatch) : Scheduler :=
  match batch.done with
  | [] => { s with readyQ := s.readyQ ++ [⟨0, batch⟩] }
  | lead :: _ =>
    let next := s.nextDPerDp lead.dpRank
    { s with
      readyQ := s.readyQ ++ [⟨next % settings.nDecode, batch⟩]
      nextDPerDp := Function.update s.nextDPerDp lead.dpRank (next + 1) }

/-- A full ready queue blocks the prefill thread. -/
def prefill (pIdx : Nat) : Option Scheduler :=
  if s.readyQ.length < settings.maxInflightTransfers then
    (popQueue pIdx s.prefillQ).map fun popped =>
      ({ s with prefillQ := popped.2 } : Scheduler).route settings popped.1
  else none

/-! ### Migration -/

inductive MigrateError where
  | alloc (e : AllocError)
  | dPoolOom
deriving DecidableEq, Repr

/-- The pages and the slot of a request on its decode slice. -/
def migrateOne (slice : DecodeSlice) (req : Req) : Except MigrateError (DecodeSlice × RunningReq) :=
  match slice.allocator.alloc (req.numPages * settings.pageSize) req.dpRank with
  | .error e => .error (.alloc e)
  | .ok (_, none) => .error .dPoolOom
  | .ok (allocator, some _) =>
    match slice.reqToTokenPool.alloc [⟨none, req.isChunked, req.kvCommittedLen⟩] with
    | .error e => .error (.alloc e)
    | .ok (pool, slots) =>
      .ok ({ slice with allocator := allocator, reqToTokenPool := pool },
        ⟨req, slots.bind List.head?⟩)

def migrateAll (slice : DecodeSlice) : List Req → Except MigrateError (DecodeSlice × List RunningReq)
  | [] => .ok (slice, [])
  | req :: rest =>
    match migrateOne settings slice req with
    | .error e => .error e
    | .ok (slice, first) =>
      match migrateAll slice rest with
      | .error e => .error e
      | .ok (slice, later) => .ok (slice, first :: later)

/-- `need_by_rank` -/
def needByRank (done : List Req) (rank : Nat) : Nat :=
  done.foldl (fun need req => if req.dpRank = rank then need + req.numPages * settings.pageSize
    else need) 0

def reservedPerRank (slice : DecodeSlice) : Nat :=
  settings.numReservedDecodeTokens * (slice.running.length + s.inflight.length) /
    max 1 settings.dpSize

/-- The capacity gate. -/
def isDeferred (item : ReadyItem) : Bool :=
  item.batch.done.any fun req =>
    (s.slices item.dIdx).allocator.availableSize req.dpRank <
      needByRank settings item.batch.done req.dpRank +
        s.reservedPerRank settings (s.slices item.dIdx)

/-- A deferred item comes first. -/
def popReady : Option (ReadyItem × Scheduler) :=
  match s.deferred, s.readyQ with
  | item :: rest, _ => some (item, { s with deferred := rest })
  | [], item :: rest => some (item, { s with readyQ := rest })
  | [], [] => none

/-- `_pd_drain_ready` for an item, with the requests that it migrates. One that is finished
by its first token gives its slot back in a step of its own. -/
def drainReady (item : ReadyItem) : Except MigrateError (Scheduler × List RunningReq) :=
  if s.isDeferred settings item then .ok ({ s with deferred := s.deferred ++ [item] }, [])
  else
    match migrateAll settings (s.slices item.dIdx) item.batch.done with
    | .error e => .error e
    | .ok (slice, migrated) =>
      .ok ({ s with
          inflight := item.batch.done.foldl untrackInflight s.inflight
          slices := Function.update s.slices item.dIdx
            { slice with running := slice.running ++ migrated } },
        migrated)

end Scheduler

/-! ### Runs -/

/-- What decoding does to a slice. -/
inductive DecodeStep : DecodeSlice → DecodeSlice → Prop where
  /-- Pages are taken for new tokens, or given back. -/
  | pages {slice : DecodeSlice} (allocator : KvAllocator) (hwf : allocator.WellFormed)
      (hpages : allocator.pageSize = slice.allocator.pageSize) :
      DecodeStep slice { slice with allocator := allocator }
  /-- A request is finished and stays in the batch without a slot. -/
  | finish {slice : DecodeSlice} {before after : List RunningReq} {r : RunningReq}
      {pool : ReqToTokenPool} (hrunning : slice.running = before ++ r :: after)
      (hfree : slice.reqToTokenPool.free r.reqPoolIdx = .ok pool) :
      DecodeStep slice
        { slice with
          reqToTokenPool := pool
          running := before ++ { r with reqPoolIdx := none } :: after }
  /-- The finished requests leave the batch. -/
  | filter {slice : DecodeSlice} :
      DecodeStep slice { slice with running := slice.running.filter fun r => r.reqPoolIdx.isSome }
  /-- A request goes back to the waiting queue. -/
  | retract {slice : DecodeSlice} {before after : List RunningReq} {r : RunningReq}
      {pool : ReqToTokenPool} (hrunning : slice.running = before ++ r :: after)
      (hfree : slice.reqToTokenPool.free r.reqPoolIdx = .ok pool) :
      DecodeStep slice { slice with reqToTokenPool := pool, running := before ++ after }

inductive Act where
  | push (fresh : List Req)
  | prefill
  | drain
  | decode

/-- A batch holds new requests, as many of each rank as the limit allows, and chunked
requests of its slice. Which of them the builder takes is left open. -/
inductive Step (settings : Settings) : Act → Scheduler → Scheduler → Prop where
  | push {s : Scheduler} {batch : PrefillBatch} {fresh : List Req}
      {continued kept : List ChunkedReq} (hslice : batch.pIdx < settings.nPrefill)
      (howners : s.chunkedReqs.Perm (continued ++ kept))
      (hcontinued : ∀ owner ∈ continued, owner.pIdx = batch.pIdx)
      (hbatch : (batch.done ++ batch.mid).Perm (fresh ++ continued.map ChunkedReq.req))
      (hranks : ∀ req ∈ fresh, req.dpRank < settings.dpSize)
      (hlimit : ∀ rank, (fresh.filter fun req => req.dpRank = rank).length ≤
        s.newRequestLimit settings) :
      Step settings (.push fresh) s (s.push batch kept)
  | prefill {s s' : Scheduler} (pIdx : Nat) (heq : s.prefill settings pIdx = some s') :
      Step settings .prefill s s'
  | drain {s popped s' : Scheduler} {item : ReadyItem} {migrated : List RunningReq}
      (hpop : s.popReady = some (item, popped))
      (heq : popped.drainReady settings item = .ok (s', migrated)) : Step settings .drain s s'
  | decode {s : Scheduler} {slice : DecodeSlice} (d : Nat)
      (hstep : DecodeStep (s.slices d) slice) :
      Step settings .decode s { s with slices := Function.update s.slices d slice }

/-- The states of the runs whose steps all meet `ok`. -/
inductive Reaches (settings : Settings) (ok : Scheduler → Act → Prop) : Scheduler → Prop where
  | init : Reaches settings ok (.init settings)
  | step {s s' : Scheduler} {act : Act} (hrun : Reaches settings ok s) (hok : ok s act)
      (hstep : Step settings act s s') : Reaches settings ok s'

/-- How many slots of a decode slice are taken. -/
def DecodeSlice.taken (slice : DecodeSlice) : Nat :=
  (slice.running.filter fun r => r.reqPoolIdx.isSome).length

/-- An item that passes the gate goes to a slice that has a slot for each of its requests. -/
def HasSlots (settings : Settings) (s : Scheduler) : Act → Prop
  | .drain => ∀ item popped, s.popReady = some (item, popped) →
      popped.isDeferred settings item = false →
      (s.slices item.dIdx).taken + item.batch.done.length ≤ settings.reqSlots
  | _ => True

/-- New requests have names of their own. -/
def OwnNames (s : Scheduler) : Act → Prop
  | .push fresh => (fresh.map Req.rid).Nodup ∧ ∀ req ∈ fresh, req.rid ∉ s.inflight
  | _ => True

end SglJax.Disaggregation.Pathways
