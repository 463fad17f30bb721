import SglJax.Managers.PrefillResult

/-! The scheduler's prefill loop: which requests a round puts into a batch, who
owns the chunked prefill of a DP rank, and what happens when results return.
Token budgets come from the pools and are inputs of a round; requests are named
by their `rid`. Speculative decoding, grammars and disaggregation are left out. -/
namespace SglJax.Managers

/-- The part of a request that chunked prefill reads and changes. -/
structure Progress where
  isChunked : Int
  finished : Bool
  isRetracted : Bool
  outputIds : List Nat
deriving DecidableEq, Repr

def Req.progress {α : Type} (req : Req α) : Progress :=
  ⟨req.isChunked, req.finished, req.isRetracted, req.outputIds⟩

namespace Progress

/-- A request that has just been received. -/
def fresh : Progress := ⟨0, false, false, []⟩

/-- `process_batch_result_prefill` at one request; the flag says that its pending
abort is finalized next. -/
def visit (nextTokenId : Nat) (pendingAbort finishes : Bool) (p : Progress) : Progress × Bool :=
  if p.finished || p.isRetracted then (p, false)
  else if p.isChunked ≤ 0 then
    ({ p with outputIds := p.outputIds ++ [nextTokenId], finished := finishes }, false)
  else ({ p with isChunked := p.isChunked - 1 }, pendingAbort)

/-- `process_batch_result_decode` at one request. -/
def decode (nextTokenId : Nat) (finishes : Bool) (p : Progress) : Progress :=
  if p.finished || p.isRetracted then p
  else { p with outputIds := p.outputIds ++ [nextTokenId], finished := finishes }

end Progress

theorem addInputLogprobReturnValues_progress {α : Type} (req : Req α) (values : List α)
    (logprobPt num : Nat) (last : Bool) :
    (addInputLogprobReturnValues req values logprobPt num last).1.progress = req.progress := by
  unfold addInputLogprobReturnValues
  dsimp only
  split
  · rfl
  · split <;> rfl

/-- The log probabilities aside, visiting a request is `Progress.visit`. -/
theorem visitReq_progress {α : Type} (values : List α) (num logprobPt nextTokenId : Nat)
    (pendingAbort finishes : Bool) (req : Req α) :
    let v := visitReq values num logprobPt nextTokenId pendingAbort finishes req
    (v.req.progress, v.finalizeAbort) = req.progress.visit nextTokenId pendingAbort finishes := by
  dsimp only
  unfold visitReq Progress.visit
  change _ = if (req.finished || req.isRetracted) = true then _ else if req.isChunked ≤ 0 then _ else _
  split
  · rfl
  split
  · dsimp only
    split
    · exact congrArg (·, false) (addInputLogprobReturnValues_progress ..)
    · rfl
  · cases pendingAbort with
    | true => rfl
    | false =>
      dsimp only
      split
      · contradiction
      split
      · exact congrArg (·, false) (addInputLogprobReturnValues_progress ..)
      · rfl

/-! ### The prefill adder -/

/-- What `add_chunked_req` reads: the tokens that are left to prefill and the
budgets of the rank. `remSwaTokens` is there for hybrid models only. -/
structure ChunkBudget where
  extendInputLen : Nat
  remChunkTokens : Int
  remTotalTokens : Int
  remSwaTokens : Option Int
  pageSize : Nat
  boundaryCap : Option Nat
deriving DecidableEq, Repr

inductive ChunkOutcome where
  | parked
  | added (truncated : Bool)
deriving DecidableEq, Repr

/-- `add_chunked_req` -/
def ChunkBudget.addChunkedReq (b : ChunkBudget) : ChunkOutcome :=
  let remTokens := min b.remChunkTokens b.remTotalTokens
  let remTokens := match b.remSwaTokens with
    | some swa => min remTokens (swa - b.pageSize)
    | none => remTokens
  if remTokens ≤ 0 ∧ b.remSwaTokens.isSome then .parked
  else
    let remTokens := if remTokens ≤ 0 then b.remChunkTokens else remTokens
    match b.boundaryCap with
    | none => .added (decide ((b.extendInputLen : Int) > remTokens))
    | some cap =>
      let boundaryTruncated := decide (b.extendInputLen > cap)
      let remTokens := min remTokens cap
      .added (decide ((b.extendInputLen : Int) > remTokens) || boundaryTruncated)

/-- What becomes of a request of the waiting queue when its budgets are looked
at: it is passed over, it ends the loop, or it is added, as a chunk or whole,
and may end the loop after that. -/
inductive Verdict where
  | skip
  | stop
  | add (chunked stop : Bool)
deriving DecidableEq, Repr

structure Adder where
  canRunList : Nat → List String
  newChunkedReqs : Nat → Option String

/-- The ranks and the one each request was assigned to before it was queued. -/
structure Ranks where
  dpSize : Nat
  dpRank : String → Nat
  dpRank_lt : ∀ rid, dpRank rid < dpSize

/-- The loop over the waiting queue. A rank whose chunked prefill has an owner
takes no further request. -/
def admitAll (c : Ranks) (chunkedReqs : Nat → Option String) (verdict : String → Verdict) :
    List String → Adder → Adder
  | [], adder => adder
  | rid :: rest, adder =>
    let r := c.dpRank rid
    match verdict rid with
    | .skip => admitAll c chunkedReqs verdict rest adder
    | .stop => adder
    | .add chunked stop =>
      if (chunkedReqs r).isSome || (adder.newChunkedReqs r).isSome then
        admitAll c chunkedReqs verdict rest adder
      else
        let adder : Adder :=
          { canRunList := Function.update adder.canRunList r (adder.canRunList r ++ [rid])
            newChunkedReqs := if chunked then Function.update adder.newChunkedReqs r (some rid)
              else adder.newChunkedReqs }
        if stop then adder else admitAll c chunkedReqs verdict rest adder

/-! ### The scheduler -/

/-- `reqs_info` of a batch, rank by rank. -/
structure Batch where
  isExtend : Bool
  reqs : Nat → List String
  chunkedReq : Nat → Option String

structure Scheduler where
  progress : String → Progress
  received : List String
  waitingQueue : List String
  running : Nat → List String
  chunkedReqs : Nat → Option String
  pendingChunkedAbortReqs : Nat → Option String
  lastBatch : Option Batch
  curBatch : Option Batch
  resultQueue : List Batch

/-- What the pools and the clock decide in a round. -/
structure RoundInput where
  prefillAllowed : Bool
  budget : Nat → ChunkBudget
  verdict : String → Verdict
  mixed : Bool
  retracted : String → Bool

/-- What the model runner returns for a batch. -/
structure BatchOutput where
  nextTokenId : String → Nat
  finishes : String → Bool

namespace Scheduler

def init : Scheduler where
  progress := fun _ => Progress.fresh
  received := []
  waitingQueue := []
  running := fun _ => []
  chunkedReqs := fun _ => none
  pendingChunkedAbortReqs := fun _ => none
  lastBatch := none
  curBatch := none
  resultQueue := []

def setProgress (s : Scheduler) (rid : String) (p : Progress) : Scheduler :=
  { s with progress := Function.update s.progress rid p }

/-- A new request is queued; its `rid` is not used twice. -/
def receive (s : Scheduler) (rid : String) : Scheduler :=
  if rid ∈ s.received then s
  else { s.setProgress rid Progress.fresh with
    received := rid :: s.received
    waitingQueue := s.waitingQueue ++ [rid] }

/-- `_finalize_chunked_abort`; `none` when one of its assertions fails. -/
def finalizeChunkedAbort (s : Scheduler) (rid : String) (r : Nat) : Option Scheduler :=
  if s.chunkedReqs r = some rid ∧ s.pendingChunkedAbortReqs r = some rid ∧
      (s.progress rid).isChunked = 0 then
    let s := s.setProgress rid { s.progress rid with finished := true }
    some { s with
      chunkedReqs := Function.update s.chunkedReqs r none
      pendingChunkedAbortReqs := Function.update s.pendingChunkedAbortReqs r none }
  else none

/-- `_sync_chunked_req_owners` -/
def syncChunkedReqOwners (c : Ranks) (s : Scheduler) : Option Scheduler :=
  match s.lastBatch with
  | none => some s
  | some b =>
    if b.isExtend then
      if (List.range c.dpSize).all fun r => (b.chunkedReq r).isNone || (s.chunkedReqs r).isNone ||
          s.chunkedReqs r == b.chunkedReq r then
        some { s with chunkedReqs := fun r => (s.chunkedReqs r).or (b.chunkedReq r) }
      else none
    else some s

/-- `_mark_pending_chunked_aborts` for the requests that `matching` selects. -/
def markPendingChunkedAborts (c : Ranks) (matching : String → Bool) (s : Scheduler) :
    Option Scheduler :=
  let marked (r : Nat) : Bool := (s.chunkedReqs r).any matching
  if (List.range c.dpSize).all fun r => !marked r || (s.pendingChunkedAbortReqs r).isNone ||
      s.pendingChunkedAbortReqs r == s.chunkedReqs r then
    some { s with
      pendingChunkedAbortReqs := fun r =>
        if marked r then s.chunkedReqs r else s.pendingChunkedAbortReqs r }
  else none

/-- `abort_request`. A running request is told to finish, which shows in later
results only. -/
def abortRequest (c : Ranks) (matching : String → Bool) (s : Scheduler) : Option Scheduler := do
  let s ← s.syncChunkedReqOwners c
  let s ← s.markPendingChunkedAborts c matching
  return { s with waitingQueue := s.waitingQueue.filter fun rid => !matching rid }

/-- `_process_pending_chunked_aborts` at one rank. -/
def processPendingAt (s : Scheduler) (r : Nat) : Option Scheduler :=
  match s.pendingChunkedAbortReqs r with
  | none => some s
  | some rid =>
    if s.chunkedReqs r = some rid then
      if (s.progress rid).isChunked > 0 then some s else s.finalizeChunkedAbort rid r
    else none

def processPendingChunkedAborts (c : Ranks) (s : Scheduler) : Option Scheduler :=
  (List.range c.dpSize).foldlM processPendingAt s

/-- The last prefill batch joins the running batch, less the requests that are
finished or own a chunked prefill. -/
def mergeLastBatch (exclude : Nat → Option String) (s : Scheduler) : Scheduler :=
  match s.lastBatch with
  | none => s
  | some b =>
    if b.isExtend then
      { s with running := fun r => s.running r ++ (b.reqs r).filter fun rid =>
          !(s.progress rid).finished && exclude r != some rid }
    else s

/-- What the adder does with the owner of a rank. -/
def chunkOutcome (s : Scheduler) (budget : Nat → ChunkBudget) (r : Nat) :
    Option (String × ChunkOutcome) :=
  match s.chunkedReqs r, s.pendingChunkedAbortReqs r with
  | some rid, none => some (rid, (budget r).addChunkedReq)
  | _, _ => none

/-- `chunked_reqs` after the adder has seen every owner. -/
def ownersLeft (s : Scheduler) (budget : Nat → ChunkBudget) (r : Nat) : Option String :=
  match s.chunkOutcome budget r with
  | some (_, .added false) => none
  | _ => s.chunkedReqs r

/-- The adder before the waiting queue is looked at. -/
def ownersAdded (s : Scheduler) (budget : Nat → ChunkBudget) : Adder where
  canRunList r := match s.chunkOutcome budget r with
    | some (rid, .added _) => [rid]
    | _ => []
  newChunkedReqs := fun _ => none

/-- The adder of a round. -/
def adder (c : Ranks) (s : Scheduler) (inp : RoundInput) : Adder :=
  admitAll c (s.ownersLeft inp.budget) inp.verdict s.waitingQueue (s.ownersAdded inp.budget)

/-- Count the chunk that is about to be dispatched. -/
def countChunk (s : Scheduler) (r : Nat) : Scheduler :=
  match s.chunkedReqs r with
  | none => s
  | some rid =>
    s.setProgress rid { s.progress rid with isChunked := (s.progress rid).isChunked + 1 }

def unfinished (s : Scheduler) (rids : List String) : List String :=
  rids.filter fun rid => !(s.progress rid).finished

/-- `get_new_batch_prefill`; `none` when an assertion fails. -/
def getNewBatchPrefill (c : Ranks) (inp : RoundInput) (s : Scheduler) :
    Option (Scheduler × Option Batch) :=
  let adder := s.adder c inp
  let s := { s with chunkedReqs := s.ownersLeft inp.budget }
  if (List.range c.dpSize).all fun r => (adder.canRunList r).isEmpty then some (s, none)
  else if (List.range c.dpSize).any fun r =>
      (adder.newChunkedReqs r).isSome && (s.chunkedReqs r).isSome then none
  else
    let s := { s with
      waitingQueue := s.waitingQueue.filter fun rid => rid ∉ adder.canRunList (c.dpRank rid)
      chunkedReqs := fun r => (adder.newChunkedReqs r).or (s.chunkedReqs r) }
    let s := (List.range c.dpSize).foldl countChunk s
    -- `prepare_for_extend`
    let s := { s with
      progress := fun rid =>
        if rid ∈ adder.canRunList (c.dpRank rid) then { s.progress rid with isRetracted := false }
        else s.progress rid }
    if inp.mixed then
      some ({ s with running := fun _ => [] }, some
        { isExtend := true
          reqs := fun r => adder.canRunList r ++ s.unfinished (s.running r)
          chunkedReq := s.chunkedReqs })
    else
      some (s, some { isExtend := true, reqs := adder.canRunList, chunkedReq := s.chunkedReqs })

/-- `update_running_batch`: when the decode memory runs out, requests are
retracted and queued again. -/
def updateRunningBatch (c : Ranks) (inp : RoundInput) (s : Scheduler) :
    Scheduler × Option Batch :=
  let running (r : Nat) := s.unfinished (s.running r)
  let retracted := (List.range c.dpSize).flatMap fun r => (running r).filter inp.retracted
  let kept (r : Nat) := (running r).filter fun rid => !inp.retracted rid
  let s := { s with
    running := kept
    waitingQueue := s.waitingQueue ++ retracted
    progress := fun rid =>
      if rid ∈ retracted then { s.progress rid with isRetracted := true, isChunked := 0 }
      else s.progress rid }
  if (List.range c.dpSize).all fun r => (kept r).isEmpty then (s, none)
  else (s, some { isExtend := false, reqs := kept, chunkedReq := fun _ => none })

/-- What `get_next_batch_to_run` does before a prefill batch is built. -/
def prepareRound (c : Ranks) (s : Scheduler) : Option Scheduler := do
  let s ← s.syncChunkedReqOwners c
  let exclude := s.chunkedReqs
  let s ← s.processPendingChunkedAborts c
  return s.mergeLastBatch exclude

/-- `get_next_batch_to_run` -/
def getNextBatchToRun (c : Ranks) (inp : RoundInput) (s : Scheduler) :
    Option (Scheduler × Option Batch) := do
  let s ← s.prepareRound c
  let (s, batch) ← if inp.prefillAllowed then s.getNewBatchPrefill c inp else some (s, none)
  match batch with
  | some b => return (s, some b)
  | none => return s.updateRunningBatch c inp

/-- The first half of a round of the event loop: the next batch is found and
dispatched. -/
def schedule (c : Ranks) (inp : RoundInput) (s : Scheduler) : Option Scheduler := do
  let (s, batch) ← s.getNextBatchToRun c inp
  return { s with curBatch := batch, resultQueue := s.resultQueue ++ batch.toList }

/-- The loop body of `process_batch_result_prefill` at rank `r`. -/
def visitAt (out : BatchOutput) (r : Nat) (s : Scheduler) (rid : String) : Option Scheduler :=
  let (p, finalize) := (s.progress rid).visit (out.nextTokenId rid)
    (s.pendingChunkedAbortReqs r == some rid) (out.finishes rid)
  let s := s.setProgress rid p
  if finalize then s.finalizeChunkedAbort rid r else some s

def decodeAt (out : BatchOutput) (s : Scheduler) (rid : String) : Scheduler :=
  s.setProgress rid ((s.progress rid).decode (out.nextTokenId rid) (out.finishes rid))

/-- `process_batch_result` of the oldest batch whose result is outstanding. -/
def processBatchResult (c : Ranks) (out : BatchOutput) (s : Scheduler) : Option Scheduler :=
  match s.resultQueue with
  | [] => none
  | b :: rest =>
    (List.range c.dpSize).foldlM (fun s r =>
      if b.isExtend then (b.reqs r).foldlM (visitAt out r) s
      else some ((b.reqs r).foldl (decodeAt out) s)) { s with resultQueue := rest }

/-- The second half of a round: `event_loop_normal` waits for the batch it has
just dispatched, `event_loop_overlap` for the one before. -/
def finishRound (c : Ranks) (overlap : Bool) (out : BatchOutput) (s : Scheduler) :
    Option Scheduler := do
  let awaited := if overlap then s.lastBatch else s.curBatch
  let s ← if awaited.isSome then s.processBatchResult c out else some s
  return { s with lastBatch := s.curBatch }

end Scheduler
end SglJax.Managers
