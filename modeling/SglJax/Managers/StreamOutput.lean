import SglJax.Managers.Detokenizer

/-! The two ends of the detokenizer: what `stream_output_generation` sends for a
request, and what `TokenizerManager` collects. -/
namespace SglJax.Managers.StreamOutput

open Detokenizer

/-- The part of a request that its messages are made of. -/
structure Req where
  rid : String
  originInputIdsUnpadded : List Nat
  outputIds : List Nat
  finishedLen : Option Nat
  finishedReason : Option FinishReason
  decodedText : Text
  /-- Set by the first message. -/
  surrOffset : Option Nat
  readOffset : Option Nat
  surrAndDecodeIds : List Nat
  curDecodeIdsLen : Nat
  sendDecodeIdOffset : Nat
  flags : Flags
  noStopTrim : Bool
deriving DecidableEq, Repr

def initIncrementalDetokenizationOffset : Nat := 5

namespace Req

def new (rid : String) (originInputIdsUnpadded : List Nat) (flags : Flags) (noStopTrim : Bool) :
    Req where
  rid := rid
  originInputIdsUnpadded := originInputIdsUnpadded
  outputIds := []
  finishedLen := none
  finishedReason := none
  decodedText := []
  surrOffset := none
  readOffset := none
  surrAndDecodeIds := []
  curDecodeIdsLen := 0
  sendDecodeIdOffset := 0
  flags := flags
  noStopTrim := noStopTrim

variable (req : Req)

def outputIdsThroughStop : List Nat :=
  match req.finishedLen with
  | some finishedLen => req.outputIds.take finishedLen
  | none => req.outputIds

/-- `init_incremental_detokenize`: the request, its ids and its read offset. -/
def initIncrementalDetokenize : Req × List Nat × Nat :=
  let outputIds := req.outputIdsThroughStop
  match req.surrOffset, req.readOffset with
  | some surrOffset, some readOffset =>
    let ids := req.surrAndDecodeIds ++ outputIds.drop req.curDecodeIdsLen
    ({ req with surrAndDecodeIds := ids, curDecodeIdsLen := outputIds.length },
      ids, readOffset - surrOffset)
  | _, _ =>
    let readOffset := req.originInputIdsUnpadded.length
    let surrOffset := readOffset - initIncrementalDetokenizationOffset
    let ids := req.originInputIdsUnpadded.drop surrOffset ++ outputIds
    ({ req with
        surrOffset := some surrOffset
        readOffset := some readOffset
        surrAndDecodeIds := ids
        curDecodeIdsLen := outputIds.length },
      ids, readOffset - surrOffset)

/-- `stream_output_generation` for a request that has output to send. -/
def streamOutput : Req × Entry :=
  let sent := req.initIncrementalDetokenize
  ({ sent.1 with sendDecodeIdOffset := sent.2.1.length },
    { rid := req.rid
      finishedReason := req.finishedReason
      decodedText := req.decodedText
      decodeIds := sent.2.1.drop req.sendDecodeIdOffset
      readOffset := sent.2.2
      flags := req.flags
      noStopTrim := req.noStopTrim })

def generate (ids : List Nat) : Req := { req with outputIds := req.outputIds ++ ids }

def finish (finishedReason : FinishReason) (finishedLen : Option Nat) : Req :=
  { req with finishedReason := some finishedReason, finishedLen := finishedLen }

/-- A message after each chunk of output. -/
def streamChunks : Req → List (List Nat) → Req × List Entry
  | req, [] => (req, [])
  | req, chunk :: rest =>
    let sent := (req.generate chunk).streamOutput
    let later := streamChunks sent.1 rest
    (later.1, sent.2 :: later.2)

/-- The request after its last tokens. -/
def finished (chunks : List (List Nat)) (last : List Nat) (finishedReason : FinishReason)
    (finishedLen : Option Nat) : Req :=
  ((req.streamChunks chunks).1.generate last).finish finishedReason finishedLen

/-- All messages of a request. -/
def messages (chunks : List (List Nat)) (last : List Nat) (finishedReason : FinishReason)
    (finishedLen : Option Nat) : List Entry :=
  (req.streamChunks chunks).2 ++
    [(req.finished chunks last finishedReason finishedLen).streamOutput.2]

end Req

/-- `ReqState` of the tokenizer manager -/
structure ReqState where
  text : Text
  outputIds : List Nat
deriving DecidableEq, Repr

namespace ReqState

def new : ReqState := ⟨[], []⟩

/-- `_handle_batch_output` for a request of the message. -/
def handleBatchOutput (state : ReqState) (output : Output) : ReqState where
  text := state.text ++ output.outputStr
  outputIds := state.outputIds ++ output.outputIds

def collect (outputs : List Output) : ReqState := outputs.foldl handleBatchOutput new

theorem foldl_outputIds (state : ReqState) (outputs : List Output) :
    (outputs.foldl handleBatchOutput state).outputIds =
      state.outputIds ++ outputs.flatMap Output.outputIds := by
  induction outputs generalizing state with
  | nil => simp
  | cons output rest ih =>
    rw [List.foldl_cons, ih, List.flatMap_cons, ← List.append_assoc]
    rfl

theorem collect_outputIds (outputs : List Output) :
    (collect outputs).outputIds = outputs.flatMap Output.outputIds :=
  foldl_outputIds new outputs

end ReqState

end SglJax.Managers.StreamOutput
