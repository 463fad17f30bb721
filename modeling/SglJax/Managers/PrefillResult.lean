import Mathlib

/-! `process_batch_result_prefill`: what the scheduler does with the result of a
prefill batch, request by request. The log probabilities of the input tokens
arrive as one flat array for the whole batch; a walking pointer says where the
slice of the next request starts. The values themselves are left abstract. -/
namespace SglJax.Managers

/-- The part of a request that prefill results read and change. -/
structure Req (α : Type) where
  rid : String
  prefixLen : Nat
  extendInputLen : Nat
  seqlen : Nat
  logprobStartLen : Nat
  returnLogprob : Bool
  isChunked : Int
  finished : Bool
  isRetracted : Bool
  outputIds : List Nat
  inputTokenLogprobs : Option (List α)
  inputTokenLogprobsVal : Option (List (Option α))
deriving DecidableEq, Repr

namespace Req

variable {α : Type}

/-- `extend_logprob_start_len`, as `prepare_for_extend` computes it. -/
def extendLogprobStartLen (req : Req α) : Nat :=
  if req.logprobStartLen ≥ req.prefixLen then
    min (min (req.logprobStartLen - req.prefixLen) req.extendInputLen) (req.seqlen - 1)
  else 0

/-- The entries the request has in the flat array. -/
def numInputLogprobs (req : Req α) : Nat := req.extendInputLen - req.extendLogprobStartLen

end Req

section

variable {α : Type}

/-- `_num_input_logprobs`, on the lists collected when the batch was run. -/
def numInputLogprobs (reqIdx : Nat) (extendInputLens extendLogprobStartLens : List Nat) :
    Option Nat :=
  match extendInputLens[reqIdx]?, extendLogprobStartLens[reqIdx]? with
  | some len, some start => some (len - start)
  | _, _ => none

/-- `_input_logprob_lens_per_dp` -/
def inputLogprobLensPerDp (batch : List (List (Req α))) : List Nat :=
  batch.map fun reqs => (reqs.map Req.numInputLogprobs).sum

/-- Drop the padding after each rank's entries. -/
def compactValues (perDpTokenSize : Nat) : List Nat → List α → List α
  | [], _ => []
  | validLen :: rest, values =>
    values.take validLen ++ compactValues perDpTokenSize rest (values.drop perDpTokenSize)

/-- `_materialize_input_token_logprobs` -/
def materializeInputTokenLogprobs (values : List α) (lensPerDp : List Nat) : List α :=
  if lensPerDp ≠ [] ∧ values.length ≠ lensPerDp.sum ∧ values.length % lensPerDp.length = 0 then
    compactValues (values.length / lensPerDp.length) lensPerDp values
  else values

/-- `add_input_logprob_return_values`; besides the request, the slice that was
stored into it, if any. -/
def addInputLogprobReturnValues (req : Req α) (inputTokenLogprobs : List α)
    (logprobPt num : Nat) (lastPrefillChunk : Bool) : Req α × Option (List α) :=
  let collected := req.inputTokenLogprobs.getD []
  if req.inputTokenLogprobsVal.isSome then
    ({ req with inputTokenLogprobs := some collected }, none)
  else
    let slice := (inputTokenLogprobs.drop logprobPt).take num
    let collected := collected ++ slice
    if lastPrefillChunk then
      ({ req with
        inputTokenLogprobs := none
        inputTokenLogprobsVal := some ((none :: collected.map some).dropLast) }, some slice)
    else ({ req with inputTokenLogprobs := some collected }, some slice)

/-- What is left after one request of the batch has been looked at. -/
structure Visited (α : Type) where
  req : Req α
  logprobPt : Nat
  stored : Option (List α)
  finalizeAbort : Bool

/-- The body of the loop over the requests of a rank. `pendingAbort` says that
the request waits to be aborted, `finishes` what `check_finished` finds after
the new token. -/
def visitReq (inputTokenLogprobs : List α) (num logprobPt nextTokenId : Nat)
    (pendingAbort finishes : Bool) (req : Req α) : Visited α :=
  if req.finished || req.isRetracted then ⟨req, logprobPt, none, false⟩
  else if req.isChunked ≤ 0 then
    let req := { req with outputIds := req.outputIds ++ [nextTokenId], finished := finishes }
    if req.returnLogprob then
      let (req, stored) := addInputLogprobReturnValues req inputTokenLogprobs logprobPt num true
      ⟨req, logprobPt + num, stored, false⟩
    else ⟨req, logprobPt, none, false⟩
  else
    let req := { req with isChunked := req.isChunked - 1 }
    if pendingAbort then
      -- An aborted partial prefill has no complete prompt logprobs to emit.
      let logprobPt := if req.returnLogprob && num > 0 then logprobPt + num else logprobPt
      ⟨req, logprobPt, none, true⟩
    else if req.returnLogprob && num > 0 then
      let (req, stored) := addInputLogprobReturnValues req inputTokenLogprobs logprobPt num false
      ⟨req, logprobPt + num, stored, false⟩
    else ⟨req, logprobPt, none, false⟩

/-- A request of the batch with the token sampled for it and the scheduler's
verdicts about it. -/
structure BatchItem (α : Type) where
  req : Req α
  nextTokenId : Nat
  pendingAbort : Bool
  finishes : Bool
deriving DecidableEq, Repr

/-- The loop over the requests of a batch, all ranks one after the other. -/
def visitAll (inputTokenLogprobs : List α) (lens starts : List Nat) :
    List (BatchItem α) → Nat → Nat → Option (List (Visited α))
  | [], _, _ => some []
  | item :: rest, reqIdx, logprobPt => do
    let num ← numInputLogprobs reqIdx lens starts
    let visited := visitReq inputTokenLogprobs num logprobPt item.nextTokenId item.pendingAbort
      item.finishes item.req
    let more ← visitAll inputTokenLogprobs lens starts rest (reqIdx + 1) visited.logprobPt
    return visited :: more

/-- `process_batch_result_prefill` of a batch with `return_logprob`. -/
def processBatchResultPrefill (batch : List (List (BatchItem α))) (values : List α) :
    Option (List (Visited α)) :=
  let reqs := batch.map fun items => items.map BatchItem.req
  let inputTokenLogprobs := materializeInputTokenLogprobs values (inputLogprobLensPerDp reqs)
  let lens := reqs.flatten.map Req.extendInputLen
  let starts := reqs.flatten.map Req.extendLogprobStartLen
  visitAll inputTokenLogprobs lens starts batch.flatten 0 0

end
end SglJax.Managers
