import Mathlib.Logic.Relation
import SglJax.Managers.PrefillAdder

/-! Host staging of a prefill server, with D2H staging on: a round reserves a slot of
the host pool for each request it is about to admit, the transfer of the request uses
it, and the end of the transfer releases it. What the pools, the tree and the batches
hold otherwise is given to a round as its input. -/
namespace SglJax.Managers

open MemCache

/-! ### The pool -/

structure QueueHostKVPool where
  poolSize : Nat
  freeIds : List Nat
deriving DecidableEq, Repr

inductive HostSlotError where
  | doubleFree (bufferId : Nat)
  | outsidePool (bufferId poolSize : Nat)
deriving DecidableEq, Repr

namespace QueueHostKVPool

def init (poolSize : Nat) : QueueHostKVPool := ⟨poolSize, List.range poolSize⟩

variable (pool : QueueHostKVPool)

def reserve : Option (Nat × QueueHostKVPool) :=
  match pool.freeIds with
  | [] => none
  | bufferId :: rest => some (bufferId, { pool with freeIds := rest })

def release (bufferId : Nat) : Except HostSlotError QueueHostKVPool :=
  if bufferId ∈ pool.freeIds then .error (.doubleFree bufferId)
  else if ¬ bufferId < pool.poolSize then .error (.outsidePool bufferId pool.poolSize)
  else .ok { pool with freeIds := pool.freeIds ++ [bufferId] }

end QueueHostKVPool

/-- The pool and what the requests record of it. -/
structure HostSlots where
  pool : QueueHostKVPool
  /-- `disagg_host_buffer_id`, by request. -/
  bufferId : Nat → Option Nat
  /-- How often a slot was handed out, and how often it was to be released. -/
  reserved : Nat → Nat
  released : Nat → Nat
  /-- Releases that raised. -/
  errors : List HostSlotError

namespace HostSlots

def init (poolSize : Nat) : HostSlots where
  pool := .init poolSize
  bufferId := fun _ => none
  reserved := fun _ => 0
  released := fun _ => 0
  errors := []

variable (slots : HostSlots)

def reserve : Option (Nat × HostSlots) :=
  match slots.pool.reserve with
  | none => none
  | some (b, pool) =>
    some (b, { slots with
      pool := pool
      reserved := Function.update slots.reserved b (slots.reserved b + 1) })

def release (b : Nat) : HostSlots :=
  let released := Function.update slots.released b (slots.released b + 1)
  match slots.pool.release b with
  | .ok pool => { slots with pool := pool, released := released }
  | .error e => { slots with released := released, errors := slots.errors ++ [e] }

/-- A reservation that was not recorded goes back. -/
def releaseReserved (reservedBid : Option Nat) : HostSlots :=
  match reservedBid with
  | none => slots
  | some b => slots.release b

def record (uid : Nat) (reservedBid : Option Nat) : HostSlots :=
  match reservedBid with
  | none => slots
  | some b => { slots with bufferId := Function.update slots.bufferId uid (some b) }

/-- `_reserve_host_slot_for_pd`; `none` leaves the request in the queue. -/
def reserveHostSlotForPd (bootstrapRoom : Option Int) (uid : Nat) :
    Option (Option Nat × HostSlots) :=
  if bootstrapRoom.isNone || (slots.bufferId uid).isSome then some (none, slots)
  else slots.reserve.map fun (b, slots) => (some b, slots)

/-- `reserve_prefill_buffer`, with its result recorded; `none` stands for the
exception `host KV pool is full`. -/
def reservePrefillBuffer (uid : Nat) : Option HostSlots :=
  if (slots.bufferId uid).isSome then some slots
  else slots.reserve.map fun (b, slots) => slots.record uid (some b)

/-- `_release_prefill_host_buffer` -/
def releasePrefillHostBuffer (uid : Nat) : HostSlots :=
  match slots.bufferId uid with
  | none => slots
  | some b => { slots with bufferId := Function.update slots.bufferId uid none }.release b

end HostSlots

/-! ### A round of `get_new_batch_prefill` -/

variable {τ R Λ : Type}

/-- `recurrent_admission_blocked` -/
def recurrentAdmissionBlocked (free evictable demand keepsLocked : Int) : Bool :=
  decide (free + evictable - keepsLocked < demand)

/-- `int()` of a float. -/
def truncate (q : ℚ) : Int := if 0 ≤ q then ⌊q⌋ else ⌈q⌉

namespace PrefillAdder

variable (cache : AdmissionCache τ R Λ) (a : PrefillAdder τ R) (req : WaitingReq R)

/-- The slice `xs[:stop]`, which counts from the end when `stop` is negative. -/
def upTo (xs : List Nat) (stop : Int) : List Nat :=
  xs.take (if stop < 0 then xs.length + stop else stop).toNat

/-- What is left for a chunk: the budgets, and their minimum with the boundary. -/
def chunkRemTokens (rem : Nat → Int) : Int :=
  let left := min (rem req.dpRank) (truncate (remTotalTokensForDp cache a req.dpRank))
  if isHybrid a then min left (remSwaTokensForDp cache a req.dpRank - a.pageSize) else left

/-- `add_chunked_req`: the request that stays chunked. It raises without chunk
budgets. -/
def addChunkedReq : Option (PrefillAdder τ R × Option (WaitingReq R)) :=
  match a.remChunkTokensList with
  | none => none
  | some rem =>
    let left := chunkRemTokens cache a req rem
    if left ≤ 0 ∧ isHybrid a then
      some (a, some { req with fillIds := req.fillIds.take req.prefixIndices.length })
    else
      let left := if left ≤ 0 then rem req.dpRank else left
      let boundaryTruncated := boundaryTruncated cache req
      let left := (recurrentBoundaryCap cache req.prefixIndices.length).elim left (min left ·)
      let truncated := decide (req.extendInputLen > left)
      let extendInputLen := min req.extendInputLen left
      let req := { req with
        extendInputLen := extendInputLen
        fillIds := upTo req.fillIds (req.prefixIndices.length + extendInputLen) }
      let more := truncated || boundaryTruncated
      some (updatePrefillBudget cache (append a req.dpRank false req) req.dpRank 0 extendInputLen
        (if more then 0 else req.clippedNewTokens), if more then some req else none)

end PrefillAdder

/-- The recurrent slots of the ranks, where the cache supports recurrent states. -/
structure RecurrentSlots (τ R : Type) where
  requestOwnedSlots : Nat
  recurrentAvailableSize : Nat → Int
  recurrentEvictableSize : τ → Nat → Int
  /-- `recurrent_cow_src_index` is set. -/
  cowHit : τ → WaitingReq R → Bool

structure LoraLimit where
  maxLorasPerBatch : Nat
  /-- The adapters of the running batch. -/
  loraSet : List String
  loraId : Nat → String

/-- What a round finds. -/
structure PrefillRound (τ R : Type) where
  adder : PrefillAdder τ R
  /-- The adder has just been made. -/
  nothingAdded : adder.canRunList = (fun _ => []) ∧ adder.newChunkedReqs = fun _ => none
  batchIsFull : Nat → Bool
  runningLen : Nat → Nat
  perDpMaxRunningRequests : Nat
  pendingChunkedAbort : Nat → Bool
  recurrent : Option (RecurrentSlots τ R)
  lora : Option LoraLimit
  /-- `init_next_round_input` with and without the tree cache. -/
  initNextRoundInput : τ → WaitingReq R → τ × WaitingReq R
  initChunkedInput : WaitingReq R → WaitingReq R
  init_uid : ∀ t req, (initNextRoundInput t req).2.uid = req.uid
  init_dpRank : ∀ t req, (initNextRoundInput t req).2.dpRank = req.dpRank
  chunked_uid : ∀ req, (initChunkedInput req).uid = req.uid
  chunked_dpRank : ∀ req, (initChunkedInput req).dpRank = req.dpRank

/-- What the loop over the waiting queue changes. -/
structure AdmitState (τ R : Type) where
  adder : PrefillAdder τ R
  slots : HostSlots
  batchIsFull : Nat → Bool
  chunkExhaustedDps : List Nat

/-- A look at a request of the waiting queue: it is passed over, possibly ending the
loop, or `add_one_req` is called. -/
inductive Look (τ R : Type) where
  | pass (stop : Bool) (req : WaitingReq R) (st : AdmitState τ R)
  | call (reservedBid : Option Nat) (req : WaitingReq R) (st : AdmitState τ R)

namespace PrefillRound

variable (cache : AdmissionCache τ R Λ) (bootstrapRoom : Nat → Option Int)
  (round : PrefillRound τ R) (chunkedReqs : Nat → Option (WaitingReq R)) (st : AdmitState τ R)

/-- The rank takes no further request; the loop ends when no rank does. -/
def markFull (dpRank : Nat) : Bool × AdmitState τ R :=
  let full := Function.update st.batchIsFull dpRank true
  ((List.range round.adder.dpSize).all full, { st with batchIsFull := full })

def recurrentBlocked (dpRank : Nat) (keepsLocked : Int) : Bool :=
  round.recurrent.any fun r =>
    recurrentAdmissionBlocked (r.recurrentAvailableSize dpRank)
      (r.recurrentEvictableSize st.adder.tree dpRank)
      (r.requestOwnedSlots * ((st.adder.canRunList dpRank).length + 1)) keepsLocked

/-- `set` of the adapters of the batch with the request. -/
def loraExceeded (req : WaitingReq R) : Bool :=
  round.lora.any fun l =>
    let admitted := (List.range round.adder.dpSize).flatMap fun rank =>
      (st.adder.canRunList rank).map fun r => l.loraId r.uid
    decide (l.maxLorasPerBatch < (l.loraSet ++ admitted ++ [l.loraId req.uid]).eraseDups.length)

/-- The tests before a slot is reserved; `none` goes on. -/
def gate (req : WaitingReq R) : Option (Bool × AdmitState τ R) :=
  let dpRank := req.dpRank
  if dpRank ∈ st.chunkExhaustedDps then some (false, st)
  else if st.batchIsFull dpRank || decide (round.perDpMaxRunningRequests ≤
      round.runningLen dpRank + (st.adder.canRunList dpRank).length) then some (false, st)
  else if round.recurrentBlocked st dpRank 0 then some (round.markFull st dpRank)
  else if (chunkedReqs dpRank).isSome || (st.adder.newChunkedReqs dpRank).isSome then
    some (false, st)
  else if round.loraExceeded st req then some (true, st)
  else none

/-- The test after the match, where a snapshot of the tree stays locked. -/
def cowBlocked (req : WaitingReq R) : Bool :=
  round.recurrent.any (fun r => r.cowHit st.adder.tree req) &&
    round.recurrentBlocked st req.dpRank 1

def look (req : WaitingReq R) : Look τ R :=
  match round.gate chunkedReqs st req with
  | some (stop, st) => .pass stop req st
  | none =>
    match st.slots.reserveHostSlotForPd (bootstrapRoom req.uid) req.uid with
    | none => .pass false req st
    | some (reservedBid, slots) =>
      let (tree, req) := round.initNextRoundInput st.adder.tree req
      let st := { st with slots := slots, adder := { st.adder with tree := tree } }
      if round.cowBlocked st req then
        let (stop, st) :=
          round.markFull { st with slots := st.slots.releaseReserved reservedBid } req.dpRank
        .pass stop req st
      else .call reservedBid req st

/-- What the loop does with the verdict of `add_one_req`. -/
def settle (reservedBid : Option Nat) (uid dpRank : Nat) (result : AddReqResult) :
    Bool × AdmitState τ R :=
  match result with
  | .continue_ => (false, { st with slots := st.slots.record uid reservedBid })
  | .dpBudgetExhausted =>
    let exhausted := st.chunkExhaustedDps ++ [dpRank]
    (exhausted.length == round.adder.dpSize,
      { st with slots := st.slots.releaseReserved reservedBid, chunkExhaustedDps := exhausted })
  | .noToken =>
    round.markFull { st with slots := st.slots.releaseReserved reservedBid } dpRank
  | .other => (true, { st with slots := st.slots.releaseReserved reservedBid })

/-- The body of the loop: whether it ends, and the request as it is then. -/
def visit (req : WaitingReq R) : Bool × WaitingReq R × AdmitState τ R :=
  match round.look bootstrapRoom chunkedReqs st req with
  | .pass stop req st => (stop, req, st)
  | .call reservedBid req st =>
    let (adder, req', result) := PrefillAdder.addOneReq cache st.adder req
    let (stop, st) := round.settle { st with adder := adder } reservedBid req.uid req.dpRank result
    (stop, req', st)

/-- The loop over the waiting queue, and the queue's requests after it. -/
def admitLoop : List (WaitingReq R) → AdmitState τ R → List (WaitingReq R) × AdmitState τ R
  | [], st => ([], st)
  | req :: rest, st =>
    match round.visit cache bootstrapRoom chunkedReqs st req with
    | (true, req, st) => (req :: rest, st)
    | (false, req, st) =>
      let (left, st) := admitLoop rest st
      (req :: left, st)

/-- The loop over the chunked requests of the ranks. -/
def addChunkedReqs : List Nat → PrefillAdder τ R × (Nat → Option (WaitingReq R)) →
    Option (PrefillAdder τ R × (Nat → Option (WaitingReq R)))
  | [], p => some p
  | rank :: ranks, (adder, chunkedReqs) =>
    match chunkedReqs rank with
    | none => addChunkedReqs ranks (adder, chunkedReqs)
    | some req =>
      if round.pendingChunkedAbort rank then addChunkedReqs ranks (adder, chunkedReqs)
      else
        match PrefillAdder.addChunkedReq cache adder (round.initChunkedInput req) with
        | none => none
        | some (adder, more) =>
          addChunkedReqs ranks (adder, Function.update chunkedReqs rank more)

end PrefillRound

/-! ### The server -/

/-- What a request brings along: its `bootstrap_room` and the rank it was given, by
number. -/
structure Intake where
  bootstrapRoom : Nat → Option Int
  dpRank : Nat → Nat

/-- The requests of a prefill server, by number. `batch` is `can_run_list` of the last
round until its forward returns. -/
structure PrefillServer (R : Type) where
  dpSize : Nat
  waitingQueue : List (WaitingReq R)
  chunkedReqs : Nat → Option (WaitingReq R)
  batch : List Nat
  /-- The entries of `disagg_prefill_queue`. -/
  transferring : List Nat
  slots : HostSlots
  /-- How many requests were received. -/
  received : Nat
  /-- The requests that failed with `host KV pool is full`. -/
  hostPoolFull : List Nat

def PrefillServer.init (R : Type) (dpSize poolSize : Nat) : PrefillServer R where
  dpSize := dpSize
  waitingQueue := []
  chunkedReqs := fun _ => none
  batch := []
  transferring := []
  slots := .init poolSize
  received := 0
  hostPoolFull := []

/-- The requests of `can_run_list`, rank by rank. -/
def PrefillAdder.canRunUids (adder : PrefillAdder τ R) : List Nat :=
  (List.range adder.dpSize).flatMap fun rank => (adder.canRunList rank).map (·.uid)

namespace PrefillServer

variable (cache : AdmissionCache τ R Λ) (intake : Intake) (s : PrefillServer R)

/-- The state in which the loop over the waiting queue starts. -/
def admitStart (round : PrefillRound τ R) (adder : PrefillAdder τ R) : AdmitState τ R where
  adder := adder
  slots := s.slots
  batchIsFull := round.batchIsFull
  chunkExhaustedDps := []

/-- `get_new_batch_prefill` after its early returns; `queue` is the waiting queue as
`calc_priority` left it. -/
def getNewBatchPrefill (round : PrefillRound τ R) (queue : List (WaitingReq R)) :
    Option (PrefillServer R) :=
  match round.addChunkedReqs cache (List.range s.dpSize) (round.adder, s.chunkedReqs) with
  | none => none
  | some (adder, chunkedReqs) =>
    let (queue, st) := round.admitLoop cache intake.bootstrapRoom chunkedReqs queue
      (s.admitStart round adder)
    let uids := st.adder.canRunUids
    some { s with
      waitingQueue := queue.filter fun req => !uids.contains req.uid
      chunkedReqs := fun rank => (st.adder.newChunkedReqs rank).or (chunkedReqs rank)
      batch := uids
      slots := st.slots }

/-- The request is one of `chunked_reqs`. -/
def isMidChunk (uid : Nat) : Bool :=
  (List.range s.dpSize).any fun rank => (s.chunkedReqs rank).any fun req => req.uid == uid

/-- `process_prefill_chunk` at one request; `startOk` says whether `start_prefill`
returns. -/
def handoff (startOk : Nat → Bool) (s : PrefillServer R) (uid : Nat) : PrefillServer R :=
  if (intake.bootstrapRoom uid).isNone then s
  else if s.isMidChunk uid then s
  else if uid ∈ s.transferring then s
  else
    match s.slots.reservePrefillBuffer uid with
    | none =>
      { s with
        slots := s.slots.releasePrefillHostBuffer uid
        hostPoolFull := s.hostPoolFull ++ [uid] }
    | some slots =>
      if startOk uid then { s with slots := slots, transferring := s.transferring ++ [uid] }
      else { s with slots := slots.releasePrefillHostBuffer uid }

/-- One step of the event loop. `ok` is what a round is assumed to meet. -/
inductive Step (ok : PrefillServer R → PrefillRound τ R → List (WaitingReq R) → Prop) :
    PrefillServer R → PrefillServer R → Prop where
  | receive {s : PrefillServer R} (req : WaitingReq R) (huid : req.uid = s.received)
      (hrank : req.dpRank = intake.dpRank req.uid) (hlt : req.dpRank < s.dpSize) :
      Step ok s
        { s with waitingQueue := s.waitingQueue ++ [req], received := s.received + 1 }
  | round {s s' : PrefillServer R} (round : PrefillRound τ R) (queue : List (WaitingReq R))
      (hbatch : s.batch = []) (hdp : round.adder.dpSize = s.dpSize)
      (hqueue : (queue.map fun req => (req.uid, req.dpRank)).Perm
        (s.waitingQueue.map fun req => (req.uid, req.dpRank)))
      (hok : ok s round queue) (hround : s.getNewBatchPrefill cache intake round queue = some s') :
      Step ok s s'
  /-- The forward returned. -/
  | forward {s : PrefillServer R} (startOk : Nat → Bool) :
      Step ok s { s.batch.foldl (handoff intake startOk) s with batch := [] }
  /-- `_on_prefill_transfer_terminal`, whatever the state of the sender. -/
  | terminal {s : PrefillServer R} (uid : Nat) (huid : uid ∈ s.transferring) :
      Step ok s
        { s with
          transferring := s.transferring.filter (· ≠ uid)
          slots := s.slots.releasePrefillHostBuffer uid }
  /-- An abort of waiting requests. -/
  | abortWaiting {s : PrefillServer R} (keep : WaitingReq R → Bool) :
      Step ok s { s with waitingQueue := s.waitingQueue.filter keep }
  /-- `_finalize_chunked_abort` -/
  | abortChunked {s : PrefillServer R} (rank : Nat) {req : WaitingReq R} (hbatch : s.batch = [])
      (hreq : s.chunkedReqs rank = some req) :
      Step ok s
        { s with
          chunkedReqs := Function.update s.chunkedReqs rank none
          slots := s.slots.releasePrefillHostBuffer req.uid }
  /-- `_retract_parked_chunked_reqs` at one request, which `reset_for_retract` changed. -/
  | retractChunked {s : PrefillServer R} (rank : Nat) {req req' : WaitingReq R}
      (hbatch : s.batch = []) (hreq : s.chunkedReqs rank = some req) (huid : req'.uid = req.uid)
      (hrank : req'.dpRank = req.dpRank) :
      Step ok s
        { s with
          chunkedReqs := Function.update s.chunkedReqs rank none
          slots := s.slots.releasePrefillHostBuffer req.uid
          waitingQueue := s.waitingQueue ++ [req'] }

/-- A run of a server with a pool of the size. -/
def Reaches (ok : PrefillServer R → PrefillRound τ R → List (WaitingReq R) → Prop)
    (dpSize poolSize : Nat) (s : PrefillServer R) : Prop :=
  Relation.ReflTransGen (Step cache intake ok) (.init R dpSize poolSize) s

end PrefillServer

/-! ### Budgets that last -/

namespace PrefillRound

variable (cache : AdmissionCache τ R Λ) (bootstrapRoom : Nat → Option Int)
  (round : PrefillRound τ R) (chunkedReqs : Nat → Option (WaitingReq R))

/-- If the request is added, the round still has budget left. -/
def BudgetLasts (a : PrefillAdder τ R) (req : WaitingReq R) : Prop :=
  let b := (PrefillAdder.addOneReq cache a req).1
  b.canRunList ≠ a.canRunList → PrefillAdder.budgetStateAfterAdd cache b req.dpRank = .continue_

/-- No request of the loop that has a slot uses up the round's budget. -/
def BudgetsLast : List (WaitingReq R) → AdmitState τ R → Prop
  | [], _ => True
  | req :: rest, st =>
    (∀ b req' st', round.look bootstrapRoom chunkedReqs st req = .call (some b) req' st' →
      BudgetLasts cache st'.adder req') ∧
    ((round.visit cache bootstrapRoom chunkedReqs st req).1 = false →
      BudgetsLast rest (round.visit cache bootstrapRoom chunkedReqs st req).2.2)

end PrefillRound

/-- `BudgetsLast` in a round of the server. -/
def PrefillServer.RoundLasts (cache : AdmissionCache τ R Λ) (intake : Intake)
    (s : PrefillServer R) (round : PrefillRound τ R) (queue : List (WaitingReq R)) : Prop :=
  ∀ adder chunkedReqs,
    round.addChunkedReqs cache (List.range s.dpSize) (round.adder, s.chunkedReqs) =
      some (adder, chunkedReqs) →
    round.BudgetsLast cache intake.bootstrapRoom chunkedReqs queue (s.admitStart round adder)

end SglJax.Managers
