import SglJax.Disaggregation.TransferDrain
import SglJax.MemCache.ChunkCache

/-! The scheduler of a decode server that has no radix tree: how the KV pages go from
the allocator to a transfer, from there to a waiting request, on to a running one and
back. A step that raises out of the event loop is the end of the run, and there is no
state after it. -/
namespace SglJax.Disaggregation.DecodePages

open MemCache

/-! ### Requests and queues -/

/-- `uid` is the object. -/
structure Req where
  uid : Nat
  rid : String
  dpRank : Nat
  /-- `len(origin_input_ids)` and `len(output_ids)` -/
  originLen : Nat
  outputLen : Nat
  bootstrapRoom : Option Int
  pdSkipPrefixMatch : Bool
  /-- `prefix_indices` while it waits, its row of `req_to_token` once it runs. -/
  indices : List Nat
  kvCommittedLen : Nat
deriving DecidableEq

structure DecodeBookkeeping where
  req : Req
  kvIndices : Option (List Nat)
  cancelled : Bool
deriving DecidableEq

structure DecodeServer where
  allocator : PoolAllocator
  waitingQueue : List Req
  pendingBootstrap : List Req
  preallocQueue : List DecodeBookkeeping
  transferQueue : List DecodeBookkeeping
  /-- The requests of the batches. -/
  running : List Req
  /-- How many requests were received. -/
  received : Nat

def DecodeServer.init (size pageSize dpSize : Nat) : DecodeServer where
  allocator := .init size pageSize dpSize
  waitingQueue := []
  pendingBootstrap := []
  preallocQueue := []
  transferQueue := []
  running := []
  received := 0

/-- `add` of both queues; `none` when the id is tracked already. -/
def addEntry (entries : List DecodeBookkeeping) (entry : DecodeBookkeeping) :
    Option (List DecodeBookkeeping) :=
  if entries.any (·.req.rid == entry.req.rid) then none else some (entries ++ [entry])

/-- `_release_decode_kv_indices` -/
def releaseDecodeKvIndices (a : PoolAllocator) (kvIndices : Option (List Nat)) (dpRank : Nat) :
    PoolAllocator :=
  match kvIndices with
  | none => a
  | some slots => a.free slots dpRank

/-! ### Intake -/

/-- What the lookup of a prefill server comes to: an exception or a mismatch, no
server yet, or one that fits. -/
inductive Peer where
  | refused
  | absent
  | found
deriving DecidableEq

namespace DecodeServer

variable (s : DecodeServer)

/-- The body of the loop of `process_input_requests_disagg_decode`. -/
def routeOne (peer : Nat → Peer) (s : DecodeServer) (req : Req) : Option DecodeServer :=
  match peer req.uid with
  | .refused => some s
  | .absent => some { s with pendingBootstrap := s.pendingBootstrap ++ [req] }
  | .found =>
    (addEntry s.preallocQueue ⟨req, none, false⟩).map fun entries =>
      { s with preallocQueue := entries }

/-- `req.rid in rids and req.bootstrap_room is not None` -/
def isExtracted (rids : List String) (req : Req) : Bool :=
  rids.contains req.rid && req.bootstrapRoom.isSome

/-- `process_input_requests_disagg_decode` after the requests are in the waiting
queue; `rids` are those that came with a room. -/
def route (rids : List String) (peer : Nat → Peer) : Option DecodeServer :=
  let pdReqs := s.pendingBootstrap ++ s.waitingQueue.filter (isExtracted rids)
  pdReqs.foldlM (routeOne peer)
    { s with
      waitingQueue := s.waitingQueue.filter fun req => !isExtracted rids req
      pendingBootstrap := [] }

end DecodeServer

/-! ### `_admit_decode_prealloc` -/

structure AdmitSettings where
  numReservedDecodeTokens : Nat
  maxInflightTransfers : Int
  dpSize : Nat

/-- `per_rank_inflight_limit` -/
def perRankInflightLimit (maxInflight : Int) (dpSize : Nat) : Int :=
  if maxInflight ≤ 0 then maxInflight else max 1 ((maxInflight + dpSize - 1) / dpSize)

/-- What `try_start_decode` comes to. -/
inductive Admission where
  | admitted
  | deferred
  | raises
deriving DecidableEq

/-- What a sweep meets: the requests of the running batch, and how metadata, clock and
transfer engine answer for a request. -/
structure AdmitSweep where
  runningCount : Nat → Nat
  metadataReady : Nat → Bool
  expired : Nat → Bool
  tryStartDecode : Nat → Admission

structure AdmitState where
  allocator : PoolAllocator
  transferQueue : List DecodeBookkeeping
  admitted : Nat
  admittedPerDp : Nat → Nat
  capacityBlockedRanks : List Nat

/-- What becomes of an entry: the sweep ends at it, it stays in the queue, it leaves
the queue, or the sweep raises. -/
inductive Visit where
  | stop
  | keep (st : AdmitState)
  | leave (st : AdmitState)
  | raises

section Admit

variable (settings : AdmitSettings) (sweep : AdmitSweep) (transferPerDp : Nat → Nat)
  (nTransfer : Nat)

/-- `_expire_decode_prealloc` -/
def expire (entry : DecodeBookkeeping) (st : AdmitState) : Visit :=
  if sweep.expired entry.req.uid then .leave st else .keep st

/-- The entry once pages are allocated for it. -/
def startTransfer (entry : DecodeBookkeeping) (kvIndices : List Nat) (st : AdmitState) : Visit :=
  let dpRank := entry.req.dpRank
  match sweep.tryStartDecode entry.req.uid with
  | .raises => .leave { st with allocator := st.allocator.free kvIndices dpRank }
  | .deferred => expire sweep entry { st with allocator := st.allocator.free kvIndices dpRank }
  | .admitted =>
    match addEntry st.transferQueue { entry with kvIndices := some kvIndices } with
    | none => .raises
    | some entries =>
      .leave { st with
        transferQueue := entries
        admitted := st.admitted + 1
        admittedPerDp :=
          Function.update st.admittedPerDp dpRank (st.admittedPerDp dpRank + 1) }

def blockRank (dpRank : Nat) (st : AdmitState) : AdmitState :=
  { st with capacityBlockedRanks := st.capacityBlockedRanks ++ [dpRank] }

/-- The body of the loop. -/
def admitEntry (entry : DecodeBookkeeping) (st : AdmitState) : Visit :=
  let dpRank := entry.req.dpRank
  let perRankInflight := perRankInflightLimit settings.maxInflightTransfers settings.dpSize
  let inflight := transferPerDp dpRank + st.admittedPerDp dpRank
  let pageAligned := pagesFor st.allocator.pageSize entry.req.originLen * st.allocator.pageSize
  let reserved := settings.numReservedDecodeTokens * (sweep.runningCount dpRank + inflight)
  if 0 < settings.maxInflightTransfers ∧
      settings.maxInflightTransfers ≤ ((nTransfer + st.admitted : Nat) : Int) then .stop
  else if dpRank ∈ st.capacityBlockedRanks then .keep st
  else if 0 < perRankInflight ∧ perRankInflight ≤ (inflight : Int) then .keep st
  else if st.allocator.availableSize dpRank < pageAligned + reserved then
    .keep (blockRank dpRank st)
  else if !sweep.metadataReady entry.req.uid then expire sweep entry st
  else
    match st.allocator.alloc pageAligned dpRank with
    | .error _ => .raises
    | .ok (a, none) => .keep (blockRank dpRank { st with allocator := a })
    | .ok (a, some kvIndices) => startTransfer sweep entry kvIndices { st with allocator := a }

/-- The loop over the entries, with those that stay. -/
def admitLoop : List DecodeBookkeeping → AdmitState →
    Option (List DecodeBookkeeping × AdmitState)
  | [], st => some ([], st)
  | entry :: rest, st =>
    match admitEntry settings sweep transferPerDp nTransfer entry st with
    | .stop => some (entry :: rest, st)
    | .raises => none
    | .keep st => (admitLoop rest st).map fun (left, st) => (entry :: left, st)
    | .leave st => admitLoop rest st

end Admit

/-- `count_by_rank` -/
def countByRank (entries : List DecodeBookkeeping) (dpRank : Nat) : Nat :=
  entries.countP fun entry => entry.req.dpRank == dpRank

namespace DecodeServer

variable (s : DecodeServer)

def admitDecodePrealloc (settings : AdmitSettings) (sweep : AdmitSweep) : Option DecodeServer :=
  (admitLoop settings sweep (countByRank s.transferQueue) s.transferQueue.length s.preallocQueue
    { allocator := s.allocator
      transferQueue := s.transferQueue
      admitted := 0
      admittedPerDp := fun _ => 0
      capacityBlockedRanks := [] }).map fun (left, st) =>
    { s with
      allocator := st.allocator
      preallocQueue := left
      transferQueue := st.transferQueue }

/-! ### `_drain_decode_transfer_terminals` -/

/-- How the receivers answer: the poll of the queue, the one after it, and `commit`. -/
structure Receivers where
  poll : Nat → PollResult
  repoll : Nat → PollResult
  commitRaises : Nat → Bool

/-- The state an entry is finalized with. -/
def Receivers.finalState (receivers : Receivers) (uid : Nat) : KVPoll :=
  match receivers.repoll uid with
  | .ok state => state
  | .error _ => .failed

/-- `_set_decode_bookkeeping` -/
def setDecodeBookkeeping (req : Req) (kvIndices : List Nat) : Req :=
  { req with
    indices := kvIndices.take (req.originLen - 1)
    pdSkipPrefixMatch := true }

/-- `_enqueue_for_decode` -/
def enqueueForDecode (req : Req) : DecodeServer :=
  if req.uid ∈ s.waitingQueue.map (·.uid) then s
  else { s with waitingQueue := s.waitingQueue ++ [req] }

/-- The pages go back and the request is aborted. -/
def releaseEntry (entry : DecodeBookkeeping) : DecodeServer :=
  { s with allocator := releaseDecodeKvIndices s.allocator entry.kvIndices entry.req.dpRank }

/-- What follows a commit that went through. -/
def install (entry : DecodeBookkeeping) : DecodeServer :=
  match entry.kvIndices with
  -- without indices the slicing or the bookkeeping raises
  | none => s
  | some kvIndices =>
    let prefixLen := entry.req.originLen - 1
    if 1 ≤ entry.req.originLen ∧ prefixLen % s.allocator.pageSize = 0 then
      -- the last token alone is on the tail page, and D computes it again
      { s with
        allocator := s.allocator.free (kvIndices.drop prefixLen) entry.req.dpRank }.enqueueForDecode
        (setDecodeBookkeeping entry.req (kvIndices.take prefixLen))
    else s.enqueueForDecode (setDecodeBookkeeping entry.req kvIndices)

/-- The body of the loop over what was drained. -/
def finalize (receivers : Receivers) (s : DecodeServer) (entry : DecodeBookkeeping) :
    DecodeServer :=
  if entry.cancelled then s.releaseEntry entry
  else if receivers.finalState entry.req.uid = .success then
    if receivers.commitRaises entry.req.uid then s.releaseEntry entry else s.install entry
  else s.releaseEntry entry

/-- On one process. -/
def drainDecodeTransferTerminals (receivers : Receivers) : Option DecodeServer :=
  match drainLoop (fun entry => receivers.poll entry.req.uid) (fun _ => true) s.transferQueue with
  | (.error _, _) => none
  | (.ok out, left) => some (out.foldl (finalize receivers) { s with transferQueue := left })

end DecodeServer

/-! ### Aborts -/

structure AbortReq where
  rid : String
  abortAll : Bool

/-- `recv_req.abort_all or rid.startswith(recv_req.rid)` -/
def AbortReq.hits (recvReq : AbortReq) (req : Req) : Bool :=
  recvReq.abortAll || recvReq.rid.toList.isPrefixOf req.rid.toList

/-- `abort_request`. A running request is only told to finish. -/
def DecodeServer.abortRequest (s : DecodeServer) (recvReq : AbortReq) : DecodeServer :=
  let out := s.preallocQueue.filter fun entry => recvReq.hits entry.req
  { s with
    waitingQueue := s.waitingQueue.filter fun req => !recvReq.hits req
    preallocQueue := s.preallocQueue.filter fun entry => !recvReq.hits entry.req
    allocator := out.foldl
      (fun a entry => releaseDecodeKvIndices a entry.kvIndices entry.req.dpRank) s.allocator
    -- the pages stay until the receiver is terminal
    transferQueue := s.transferQueue.map fun entry =>
      if recvReq.hits entry.req then { entry with cancelled := true } else entry
    pendingBootstrap := s.pendingBootstrap.filter fun req => !recvReq.hits req }

/-! ### Batches -/

/-- `init_next_round_input`, with a cache that matches nothing. -/
def Req.initNextRoundInput (req : Req) : Req :=
  if req.pdSkipPrefixMatch then { req with pdSkipPrefixMatch := false }
  else if req.bootstrapRoom.isSome && req.outputLen == 0 then
    if req.kvCommittedLen = 0 then { req with indices := [] } else req
  else { req with indices := [] }

/-- `reset_for_retract` -/
def Req.resetForRetract (req : Req) : Req := { req with indices := [], kvCommittedLen := 0 }

/-- A request of a batch with the length its row shall have. -/
structure Extend where
  req : Req
  seqLen : Nat
  le : req.indices.length ≤ seqLen

namespace Extend

def extendLen (e : Extend) : Nat := e.seqLen - e.req.indices.length

def toExtend (e : Extend) : ExtendSeq :=
  ⟨e.req.indices.length, e.seqLen, lastLoc e.req.indices, e.le⟩

/-- Each request has its new slots written behind the others. -/
def writeAll : List Extend → List Nat → List Req
  | [], _ => []
  | e :: rest, out =>
    { e.req with indices := e.req.indices ++ out.take e.extendLen } ::
      writeAll rest (out.drop e.extendLen)

end Extend

/-- A request that decodes its next token. -/
structure Decode where
  req : Req
  pos : 0 < req.indices.length

namespace Decode

def toDecode (d : Decode) : DecodeSeq :=
  ⟨d.req.indices.length + 1, lastLoc d.req.indices, Nat.succ_pos _⟩

def toExtend (d : Decode) : Extend := ⟨d.req, d.req.indices.length + 1, Nat.le_succ _⟩

end Decode

/-! ### Runs -/

/-- What the event loop does next. -/
inductive Act where
  | receive
  | route (rids : List String)
  | sweep
  | drain
  | abort (recvReq : AbortReq)
  /-- `get_new_batch_prefill` comes to the request. -/
  | look (req : Req)
  | extend
  | decode
  | commit
  | release
  | retract

/-- The order of the waiting and of the running requests means nothing here, so a step
may pick any of them. -/
inductive Step (settings : AdmitSettings) : Act → DecodeServer → DecodeServer → Prop where
  | receive {s : DecodeServer} (req : Req) (huid : req.uid = s.received)
      (hindices : req.indices = []) (hcommitted : req.kvCommittedLen = 0) :
      Step settings .receive s
        { s with waitingQueue := s.waitingQueue ++ [req], received := s.received + 1 }
  | route {s s' : DecodeServer} (rids : List String) (peer : Nat → Peer)
      (heq : s.route rids peer = some s') : Step settings (.route rids) s s'
  | sweep {s s' : DecodeServer} (sweep : AdmitSweep)
      (heq : s.admitDecodePrealloc settings sweep = some s') : Step settings .sweep s s'
  | drain {s s' : DecodeServer} (receivers : DecodeServer.Receivers)
      (heq : s.drainDecodeTransferTerminals receivers = some s') : Step settings .drain s s'
  | abort {s : DecodeServer} (recvReq : AbortReq) :
      Step settings (.abort recvReq) s (s.abortRequest recvReq)
  /-- The request is not admitted in this round, -/
  | pass {s : DecodeServer} {req : Req} {others : List Req}
      (hperm : s.waitingQueue.Perm (req :: others)) :
      Step settings (.look req) s { s with waitingQueue := req.initNextRoundInput :: others }
  /-- or it goes into the batch. -/
  | admitted {s : DecodeServer} {req : Req} {others : List Req}
      (hperm : s.waitingQueue.Perm (req :: others)) :
      Step settings (.look req) s
        { s with waitingQueue := others, running := req.initNextRoundInput :: s.running }
  | extend {s : DecodeServer} {batch : List Extend} {others : List Req} {dpRank : Nat}
      {allocator : PoolAllocator} {out : List Nat}
      (hperm : s.running.Perm (batch.map Extend.req ++ others))
      (hrank : ∀ e ∈ batch, e.req.dpRank = dpRank)
      (heq : s.allocator.allocExtend (batch.map Extend.toExtend)
        (batch.map Extend.extendLen).sum dpRank = .ok (allocator, some out)) :
      Step settings .extend s
        { s with allocator := allocator, running := Extend.writeAll batch out ++ others }
  | decode {s : DecodeServer} {batch : List Decode} {others : List Req} {dpRank : Nat}
      {allocator : PoolAllocator} {out : List Nat}
      (hperm : s.running.Perm (batch.map Decode.req ++ others))
      (hrank : ∀ d ∈ batch, d.req.dpRank = dpRank)
      (heq : s.allocator.allocDecode (batch.map Decode.toDecode) dpRank =
        .ok (allocator, some out)) :
      Step settings .decode s
        { s with
          allocator := allocator
          running := Extend.writeAll (batch.map Decode.toExtend) out ++ others }
  /-- `kv_committed_len` and the output ids move on, within the row. -/
  | commit {s : DecodeServer} {req : Req} {others : List Req} {kvCommittedLen outputLen : Nat}
      (hperm : s.running.Perm (req :: others)) (hle : kvCommittedLen ≤ req.indices.length) :
      Step settings .commit s
        { s with running :=
          { req with kvCommittedLen := kvCommittedLen, outputLen := outputLen } :: others }
  /-- The request is finished. -/
  | release {s : DecodeServer} {req : Req} {others : List Req} {allocator : PoolAllocator}
      (allowOverallocated : Bool) (hperm : s.running.Perm (req :: others))
      (heq : ChunkCache.releaseKvCache s.allocator req.indices req.kvCommittedLen req.dpRank
        allowOverallocated = .ok allocator) :
      Step settings .release s { s with allocator := allocator, running := others }
  | retract {s : DecodeServer} {req : Req} {others : List Req} {allocator : PoolAllocator}
      (allowOverallocated : Bool) (hperm : s.running.Perm (req :: others))
      (heq : ChunkCache.releaseKvCache s.allocator req.indices req.kvCommittedLen req.dpRank
        allowOverallocated = .ok allocator) :
      Step settings .retract s
        { s with
          allocator := allocator
          running := others
          waitingQueue := s.waitingQueue ++ [req.resetForRetract] }

/-- The states of the runs whose steps all meet `ok`. -/
inductive Reaches (settings : AdmitSettings) (ok : DecodeServer → Act → Prop)
    (s₀ : DecodeServer) : DecodeServer → Prop where
  | start : Reaches settings ok s₀ s₀
  | step {s s' : DecodeServer} {act : Act} (hrun : Reaches settings ok s₀ s) (hok : ok s act)
      (hstep : Step settings act s s') : Reaches settings ok s₀ s'

/-- No waiting request that has pages is aborted, taken for a new one, or looked at once
more after a look did not put it into a batch. -/
def KeepsPrefixes (s : DecodeServer) : Act → Prop
  | .abort recvReq => ∀ req ∈ s.waitingQueue, recvReq.hits req = true → req.indices = []
  | .route rids =>
    ∀ req ∈ s.waitingQueue, DecodeServer.isExtracted rids req = true → req.indices = []
  | .look req => req.pdSkipPrefixMatch = true ∨ req.indices = []
  | _ => True

/-! ### Who holds what -/

def Req.holding (req : Req) : Holding := ⟨req.dpRank, req.indices⟩

def DecodeBookkeeping.holding (entry : DecodeBookkeeping) : Holding :=
  ⟨entry.req.dpRank, entry.kvIndices.getD []⟩

/-- The `kv_indices` of the transfer queue, and the slots of the waiting and the running
requests. -/
def DecodeServer.holdings (s : DecodeServer) : List Holding :=
  s.transferQueue.map DecodeBookkeeping.holding ++
    (s.waitingQueue.map Req.holding ++ s.running.map Req.holding)

/-- Each page of each rank is in the free list or with one entry or request, and in the
free list when there is none of these. -/
structure PagesOwned (pagesPerRank : Nat) (s : DecodeServer) : Prop where
  owned : ∀ rank, OneHolder pagesPerRank s.allocator.pageSize s.allocator s.holdings rank
  idle : s.transferQueue = [] → s.waitingQueue = [] → s.running = [] →
    ∀ rank, (s.allocator.freeList rank).Perm (List.range' 1 pagesPerRank)

end SglJax.Disaggregation.DecodePages
