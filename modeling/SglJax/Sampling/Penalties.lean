import Mathlib
import SglJax.Foundation.Columns

/-! `penaltylib`: the counters behind the frequency, presence and minimum-length
penalties of a batch, and how they follow the requests when the batch is filtered,
merged and decoded. Penalties are rational here, with `⊥` for minus infinity. -/
namespace SglJax.Sampling

open Foundation

/-- What the penalizers read of the sampling parameters and the tokenizer. -/
structure PenaltyParams where
  frequencyPenalty : ℚ
  presencePenalty : ℚ
  minNewTokens : Nat
  stopTokenIds : List Nat
  additionalStopTokenIds : List Nat
  eosTokenId : Option Nat
deriving DecidableEq

/-- The set a request's generation may stop on. -/
def PenaltyParams.stopTokens (params : PenaltyParams) : List Nat :=
  (params.stopTokenIds ++ params.additionalStopTokenIds ++ params.eosTokenId.toList).dedup

/-- What batches read and change of a request; `nextToken`s are appended to
`outputIds` when they are returned. -/
structure PenaltyReq where
  params : PenaltyParams
  originInputIds : List Nat
  nonempty : originInputIds ≠ []
  outputIds : List Nat
  decodeBatchIdx : Nat
  isChunked : Bool

/-- The last token known of a request before its next decode step. -/
def PenaltyReq.delayedOutputId (req : PenaltyReq) : Nat :=
  req.outputIds.getLast?.getD (req.originInputIds.getLast req.nonempty)

/-! ### One penalizer -/

/-- What the classes derived from `_BatchedPenalizer` differ in: the requests that need
them, what they keep of a request, how a token changes the counter and what is added
to a token's logit. -/
structure PenalizerClass (κ σ : Type) where
  required : PenaltyParams → Bool
  coefficient : PenaltyParams → κ
  start : σ
  feed : σ → Nat → σ
  penalty : κ → σ → Nat → WithBot ℚ

/-- The arrays of a penalizer, a row for each request. -/
structure BatchedPenalizer (κ σ : Type) where
  isPrepared : Bool := false
  rows : List (κ × σ) := []

/-- What is added to the logits of one request. -/
abbrev PenaltyRow := Nat → WithBot ℚ

namespace PenalizerClass

variable {κ σ : Type} (cls : PenalizerClass κ σ)

/-- `_is_required` -/
def isRequired (reqs : List PenaltyParams) : Bool := reqs.any cls.required

/-- `prepare` -/
def prepare (reqs : List PenaltyParams) (p : BatchedPenalizer κ σ) : BatchedPenalizer κ σ :=
  if p.isPrepared then p
  else ⟨true, reqs.map fun params => (cls.coefficient params, cls.start)⟩

/-- `prepare_if_required` of a new penalizer -/
def prepareIfRequired (reqs : List PenaltyParams) : BatchedPenalizer κ σ :=
  if cls.isRequired reqs then cls.prepare reqs {} else {}

/-- `cumulate_output_tokens` -/
def cumulateOutputTokens (outputIds : List Nat) (p : BatchedPenalizer κ σ) :
    BatchedPenalizer κ σ :=
  if p.isPrepared then
    { p with rows := List.zipWith (fun row id => (row.1, cls.feed row.2 id)) p.rows outputIds }
  else p

def teardown (p : BatchedPenalizer κ σ) : BatchedPenalizer κ σ := { p with isPrepared := false }

/-- What `BatchedPenalizerOrchestrator.filter` does with one penalizer, for the requests
that are left. -/
def filter (reqs : List PenaltyParams) (keepIndices : List Nat) (p : BatchedPenalizer κ σ) :
    BatchedPenalizer κ σ :=
  if cls.isRequired reqs then
    if p.isPrepared then { p with rows := picked p.rows keepIndices } else p
  else teardown p

/-- `merge` -/
def merge (reqs theirReqs : List PenaltyParams) (p their : BatchedPenalizer κ σ) :
    BatchedPenalizer κ σ :=
  if !p.isPrepared && !their.isPrepared then p
  else ⟨true, (cls.prepare reqs p).rows ++ (cls.prepare theirReqs their).rows⟩

/-- `add_to`, where the penalizer is prepared -/
def addTo (p : BatchedPenalizer κ σ) (out : List PenaltyRow) : List PenaltyRow :=
  if p.isPrepared then
    List.zipWith (fun f row t => f t + cls.penalty row.1 row.2 t) out p.rows
  else out

end PenalizerClass

/-- `BatchedFrequencyPenalizer` -/
def frequencyPenalizer : PenalizerClass ℚ (Nat → Nat) where
  required params := decide (params.frequencyPenalty ≠ 0)
  coefficient params := params.frequencyPenalty
  start _ := 0
  feed count id := Function.update count id (count id + 1)
  penalty penalty count t := ((count t : ℚ) * -penalty : ℚ)

/-- `BatchedPresencePenalizer` -/
def presencePenalizer : PenalizerClass ℚ (Nat → Bool) where
  required params := decide (params.presencePenalty ≠ 0)
  coefficient params := params.presencePenalty
  start _ := false
  feed seen id := Function.update seen id true
  penalty penalty seen t := ((if seen t then 1 else 0 : ℚ) * -penalty : ℚ)

/-- `BatchedMinNewTokensPenalizer` -/
def minNewTokensPenalizer : PenalizerClass (Nat × List Nat) Nat where
  required params := decide (0 < params.minNewTokens)
  coefficient params := (params.minNewTokens, params.stopTokens)
  start := 0
  feed len _ := len + 1
  penalty coefficient len t := if len < coefficient.1 ∧ t ∈ coefficient.2 then ⊥ else 0

/-! ### The orchestrator -/

structure BatchedPenalizerOrchestrator where
  isRequired : Bool := false
  presence : BatchedPenalizer ℚ (Nat → Bool) := {}
  frequency : BatchedPenalizer ℚ (Nat → Nat) := {}
  minNewTokens : BatchedPenalizer (Nat × List Nat) Nat := {}

namespace BatchedPenalizerOrchestrator

/-- Whether any of the classes is needed. -/
def anyRequired (reqs : List PenaltyParams) : Bool :=
  presencePenalizer.isRequired reqs || frequencyPenalizer.isRequired reqs ||
    minNewTokensPenalizer.isRequired reqs

/-- A new orchestrator for the requests of a rank. -/
def init (reqs : List PenaltyParams) : BatchedPenalizerOrchestrator where
  isRequired := anyRequired reqs
  presence := presencePenalizer.prepareIfRequired reqs
  frequency := frequencyPenalizer.prepareIfRequired reqs
  minNewTokens := minNewTokensPenalizer.prepareIfRequired reqs

def cumulateOutputTokens (outputIds : List Nat) (o : BatchedPenalizerOrchestrator) :
    BatchedPenalizerOrchestrator :=
  { o with
    presence := presencePenalizer.cumulateOutputTokens outputIds o.presence
    frequency := frequencyPenalizer.cumulateOutputTokens outputIds o.frequency
    minNewTokens := minNewTokensPenalizer.cumulateOutputTokens outputIds o.minNewTokens }

/-- `filter`; the requests are those that are left. -/
def filter (reqs : List PenaltyParams) (keepIndices : List Nat)
    (o : BatchedPenalizerOrchestrator) : BatchedPenalizerOrchestrator :=
  if !o.isRequired then o
  else if keepIndices.isEmpty then
    { isRequired := false
      presence := PenalizerClass.teardown o.presence
      frequency := PenalizerClass.teardown o.frequency
      minNewTokens := PenalizerClass.teardown o.minNewTokens }
  else
    { isRequired := anyRequired reqs
      presence := presencePenalizer.filter reqs keepIndices o.presence
      frequency := frequencyPenalizer.filter reqs keepIndices o.frequency
      minNewTokens := minNewTokensPenalizer.filter reqs keepIndices o.minNewTokens }

/-- `merge`; the requests are those before the batches are merged. -/
def merge (reqs theirReqs : List PenaltyParams) (o their : BatchedPenalizerOrchestrator) :
    BatchedPenalizerOrchestrator :=
  if !o.isRequired && !their.isRequired then o
  else
    { isRequired := true
      presence := presencePenalizer.merge reqs theirReqs o.presence their.presence
      frequency := frequencyPenalizer.merge reqs theirReqs o.frequency their.frequency
      minNewTokens :=
        minNewTokensPenalizer.merge reqs theirReqs o.minNewTokens their.minNewTokens }

/-- `update_penalties` into the slice of a fresh buffer: presence, frequency and minimum
length in this order. -/
def apply (bs : Nat) (o : BatchedPenalizerOrchestrator) : List PenaltyRow :=
  let out : List PenaltyRow := List.replicate bs fun _ => 0
  if o.isRequired then
    minNewTokensPenalizer.addTo o.minNewTokens
      (frequencyPenalizer.addTo o.frequency (presencePenalizer.addTo o.presence out))
  else out

end BatchedPenalizerOrchestrator

/-! ### The batch -/

/-- A rank of a batch: its requests, by their identities, the tokens of the last
forward pass and the orchestrator of its sampling info. -/
structure PenaltyInfo where
  reqs : List Nat := []
  outputIds : List Nat := []
  orchestrator : BatchedPenalizerOrchestrator := {}

/-- The requests, wherever they are held. -/
abbrev ReqStore := Nat → PenaltyReq

def ReqStore.modify (store : ReqStore) (uids : List Nat) (f : PenaltyReq → PenaltyReq) : ReqStore :=
  fun uid => if uid ∈ uids then f (store uid) else store uid

namespace PenaltyInfo

variable (store : ReqStore) (info : PenaltyInfo)

/-- The parameters of the rank's requests. -/
def params : List PenaltyParams := info.reqs.map fun uid => (store uid).params

/-- `prepare_for_extend` of one rank -/
def prefilled (reqs : List Nat) : PenaltyInfo where
  reqs := reqs
  outputIds := []
  orchestrator := .init (reqs.map fun uid => (store uid).params)

/-- What `prepare_for_decode` feeds to the penalizers: under overlap the last token
that was returned, or the end of the prompt when there is none. -/
def fedOutputIds (enableOverlap : Bool) : List Nat :=
  if enableOverlap then info.reqs.map fun uid => (store uid).delayedOutputId else info.outputIds

/-- `prepare_for_decode` of one rank -/
def prepareForDecode (enableOverlap : Bool) : PenaltyInfo :=
  if info.reqs.isEmpty then { info with outputIds := [] }
  else
    { info with
      outputIds := []
      orchestrator :=
        if info.orchestrator.isRequired then
          info.orchestrator.cumulateOutputTokens (info.fedOutputIds store enableOverlap)
        else info.orchestrator }

/-- `filter_batch` of one rank -/
def filterBatch (keepIndices : List Nat) : PenaltyInfo :=
  if info.reqs.isEmpty then info
  else if keepIndices.length = 0 then {}
  else if keepIndices.length = info.reqs.length then info
  else
    let reqs := picked info.reqs keepIndices
    { reqs := reqs
      outputIds := picked info.outputIds keepIndices
      orchestrator :=
        info.orchestrator.filter (reqs.map fun uid => (store uid).params) keepIndices }

/-- `merge_batch` of one rank -/
def mergeBatch (other : PenaltyInfo) : PenaltyInfo :=
  if other.reqs.isEmpty then info
  else if info.reqs.isEmpty then other
  else
    { reqs := info.reqs ++ other.reqs
      outputIds := info.outputIds.take info.reqs.length ++ other.outputIds.take other.reqs.length
      orchestrator :=
        info.orchestrator.merge (info.params store) (other.params store) other.orchestrator }

/-- The rows of the rank in `linear_penalty`. -/
def linearPenalty : List PenaltyRow := info.orchestrator.apply info.reqs.length

end PenaltyInfo
end SglJax.Sampling
