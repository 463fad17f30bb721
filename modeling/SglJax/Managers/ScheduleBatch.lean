import Mathlib
import SglJax.Foundation.Columns
import SglJax.Foundation.Results

/-! `ScheduleBatch`: the requests of each DP rank with the arrays that run beside
them, and the flags of the whole batch. The length of `reqs_info` is `dp_size`.
Speculative decoding, penalizers and the recurrent pool are left out, and so are
the arrays of a single forward pass (`input_ids`, `out_cache_loc` and the extend
lengths): the pools only say whether they serve an allocation. -/
namespace SglJax.Managers

open Foundation

/-- The sampling parameters of a request; `ρ` stands for the floats. -/
structure SamplingParams (ρ : Type) where
  maxNewTokens : Nat
  temperature : ρ
  topP : ρ
  topK : Int
  minP : ρ
  samplingSeed : Int
deriving DecidableEq, Repr

/-- What a batch reads and changes of a request. `uid` is the identity of the
object, `nextToken` what the last forward pass sampled for it. -/
structure BatchReq (ρ : Type) where
  uid : Nat
  samplingParams : SamplingParams ρ
  returnLogprob : Bool
  returnOutputLogprobOnly : Bool
  returnHiddenStates : Bool
  stream : Bool
  hasGrammar : Bool
  topLogprobsNum : Nat
  tokenIdsLogprob : Option (List Nat)
  fillLen : Nat
  kvCommittedLen : Nat
  reqPoolIdx : Option Nat
  isChunked : Nat
  finished : Bool
  nextToken : Option Int
deriving DecidableEq, Repr

structure SamplingBatchInfo (ρ : Type) where
  temperatures : List ρ
  topPs : List ρ
  topKs : List Int
  minPs : List ρ
  samplingSeeds : Option (List Int)
deriving DecidableEq, Repr

structure ScheduleReqsInfo (ρ : Type) where
  reqs : List (BatchReq ρ)
  samplingInfo : Option (SamplingBatchInfo ρ) := none
  reqPoolIndices : Option (List Nat) := none
  seqLens : Option (List Nat) := none
  outputIds : Option (List Int) := none
  seqLensSum : Nat := 0
  topLogprobsNums : Option (List Nat) := none
  tokenIdsLogprobs : Option (List (Option (List Nat))) := none
deriving DecidableEq, Repr

structure ScheduleBatch (ρ : Type) where
  reqsInfo : List (ScheduleReqsInfo ρ)
  returnLogprob : Bool
  returnOutputLogprobOnly : Bool
  hasStream : Bool
  hasGrammar : Bool
  returnHiddenStates : Bool
  isPrefillOnly : Bool
deriving DecidableEq, Repr

/-- What an operation on a batch can raise. -/
inductive BatchError where
  | dpSizeMismatch
  | indexError
  | concatNone
  | extendNone
  | attributeOfNone
  | chunkedReqsReuseSlots
  | slotWithoutChunk
  | reqSlotsOutOfMemory
  | kvOutOfMemory
deriving DecidableEq, Repr

variable {ρ : Type}

/-- `array[keep_indices]` -/
def takeIndices {α : Type} (col : List α) (keepIndices : List Nat) :
    Except BatchError (List α) :=
  (gather col keepIndices).elim (.error .indexError) .ok

/-- The same where the array may be `None`. -/
def takeIndices? {α : Type} (col : Option (List α)) (keepIndices : List Nat) :
    Except BatchError (Option (List α)) :=
  col.elim (.ok none) (fun c => some <$> takeIndices c keepIndices)

/-- `np.concat([a, b])`, where either may be `None`. -/
def concat {α : Type} : Option (List α) → Option (List α) → Except BatchError (List α)
  | some a, some b => .ok (a ++ b)
  | _, _ => .error .concatNone

namespace SamplingBatchInfo

/-- `from_schedule_batch` -/
def fromScheduleBatch (enableDeterministic : Bool) (reqs : List (BatchReq ρ)) :
    SamplingBatchInfo ρ where
  temperatures := reqs.map (·.samplingParams.temperature)
  topPs := reqs.map (·.samplingParams.topP)
  topKs := reqs.map (·.samplingParams.topK)
  minPs := reqs.map (·.samplingParams.minP)
  samplingSeeds :=
    if enableDeterministic then some (reqs.map (·.samplingParams.samplingSeed)) else none

/-- `filter_batch` -/
def filterBatch (info : SamplingBatchInfo ρ) (keepIndices : List Nat) :
    Except BatchError (SamplingBatchInfo ρ) := do
  let temperatures ← takeIndices info.temperatures keepIndices
  let topPs ← takeIndices info.topPs keepIndices
  let topKs ← takeIndices info.topKs keepIndices
  let minPs ← takeIndices info.minPs keepIndices
  let samplingSeeds ← takeIndices? info.samplingSeeds keepIndices
  return { temperatures, topPs, topKs, minPs, samplingSeeds }

/-- `merge_batch` -/
def mergeBatch (self other : SamplingBatchInfo ρ) : SamplingBatchInfo ρ where
  temperatures := self.temperatures ++ other.temperatures
  topPs := self.topPs ++ other.topPs
  topKs := self.topKs ++ other.topKs
  minPs := self.minPs ++ other.minPs
  samplingSeeds :=
    match self.samplingSeeds, other.samplingSeeds with
    | some a, some b => some (a ++ b)
    | seeds, _ => seeds

end SamplingBatchInfo

/-- `ReqToTokenPool.alloc` gives the slots out in order to the requests without
one. -/
def assignSlots : List (BatchReq ρ) → List Nat → List (BatchReq ρ)
  | [], _ => []
  | req :: reqs, slots =>
    match req.reqPoolIdx, slots with
    | none, slot :: slots => { req with reqPoolIdx := some slot } :: assignSlots reqs slots
    | _, slots => req :: assignSlots reqs slots

/-- `alloc_req_slots` over the free slots of the pool: the requests with their
slots and what stays free. -/
def allocReqSlots (freeSlots : List Nat) (reqs : List (BatchReq ρ)) :
    Except BatchError (List (BatchReq ρ) × List Nat) :=
  let chunked := reqs.filter (·.reqPoolIdx.isSome)
  let needSize := reqs.length - chunked.length
  if 1 < chunked.length then .error .chunkedReqsReuseSlots
  else if chunked.any (fun r => r.isChunked = 0 && r.kvCommittedLen = 0) then
    .error .slotWithoutChunk
  else if freeSlots.length < needSize then .error .reqSlotsOutOfMemory
  else .ok (assignSlots reqs (freeSlots.take needSize), freeSlots.drop needSize)

/-- What the pools and the server arguments say to one `prepare_for_extend`:
whether sampling is deterministic, the free request slots, and the ranks whose KV
allocation is served. -/
structure ExtendMemory where
  enableDeterministic : Bool
  freeSlots : List Nat
  kvServed : Nat → Bool

namespace ScheduleReqsInfo

/-- One rank of `prepare_for_extend`. -/
def prepareForExtend (returnLogprob enableDeterministic kvServed : Bool) (freeSlots : List Nat)
    (info : ScheduleReqsInfo ρ) : Except BatchError (ScheduleReqsInfo ρ × List Nat) :=
  if info.reqs.isEmpty then .ok ({ info with seqLens := none, seqLensSum := 0 }, freeSlots)
  else do
    let (reqs, freeSlots) ← allocReqSlots freeSlots info.reqs
    let reqs := reqs.map (fun r => { r with kvCommittedLen := r.fillLen })
    if !kvServed then throw .kvOutOfMemory
    return ({ info with
      reqs := reqs
      samplingInfo := some (.fromScheduleBatch enableDeterministic reqs)
      reqPoolIndices := some (reqs.filterMap (·.reqPoolIdx))
      seqLens := some (reqs.map (·.fillLen))
      seqLensSum := (reqs.map (·.fillLen)).sum
      topLogprobsNums :=
        if returnLogprob then some (reqs.map (·.topLogprobsNum)) else info.topLogprobsNums
      tokenIdsLogprobs :=
        if returnLogprob then some (reqs.map (·.tokenIdsLogprob))
        else info.tokenIdsLogprobs }, freeSlots)

/-- One rank of `_extract_dp_output_ids`; the sampled tokens are those of its
requests. -/
def extractOutputIds (nextTokenIds : List Int) (info : ScheduleReqsInfo ρ) :
    ScheduleReqsInfo ρ :=
  { info with
    reqs := info.reqs.mapIdx (fun i r => { r with nextToken := nextTokenIds[i]? })
    outputIds := some (nextTokenIds.take info.reqs.length) }

/-- One rank of `prepare_for_decode`. -/
def prepareForDecode (kvServed : Bool) (info : ScheduleReqsInfo ρ) :
    Except BatchError (ScheduleReqsInfo ρ) :=
  if info.reqs.isEmpty then
    .ok { info with outputIds := none, seqLens := none, seqLensSum := 0 }
  else
    match info.samplingInfo, info.seqLens with
    | some _, some seqLens =>
      if kvServed then
        .ok { info with
          reqs := info.reqs.map (fun r => { r with kvCommittedLen := r.kvCommittedLen + 1 })
          outputIds := none
          seqLens := some (seqLens.map (· + 1))
          seqLensSum := info.seqLensSum + info.reqs.length }
      else .error .kvOutOfMemory
    | _, _ => .error .attributeOfNone

/-- The indices that `filter_batch` keeps when it is given none. -/
def unfinishedIndices (info : ScheduleReqsInfo ρ) (chunkedReq : Option Nat) : List Nat :=
  (List.range info.reqs.length).filter (fun i =>
    info.reqs[i]?.any (fun r => !r.finished && !(chunkedReq == some r.uid)))

/-- A rank of which no request is kept. -/
def cleared : ScheduleReqsInfo ρ where
  reqs := []

/-- `token_ids_logprobs` is filtered when `top_logprobs_nums` is there. -/
def takeTokenIds (keepIndices : List Nat) : Option (List Nat) →
    Option (List (Option (List Nat))) → Except BatchError (Option (List (Option (List Nat))))
  | none, tokenIds => .ok tokenIds
  | some _, some tokenIds => some <$> takeIndices tokenIds keepIndices
  | some _, none => .error .attributeOfNone

/-- One rank of `filter_batch`. -/
def filterBatch (keepIndices : List Nat) (info : ScheduleReqsInfo ρ) :
    Except BatchError (ScheduleReqsInfo ρ) :=
  if info.reqs.isEmpty then .ok info
  else if keepIndices.length = 0 then .ok cleared
  else if keepIndices.length = info.reqs.length then .ok info
  else do
    let reqs ← takeIndices info.reqs keepIndices
    let reqPoolIndices ← takeIndices? info.reqPoolIndices keepIndices
    let seqLens ← takeIndices? info.seqLens keepIndices
    let outputIds ← takeIndices? info.outputIds keepIndices
    let topLogprobsNums ← takeIndices? info.topLogprobsNums keepIndices
    let tokenIdsLogprobs ← takeTokenIds keepIndices info.topLogprobsNums info.tokenIdsLogprobs
    let samplingInfo ←
      info.samplingInfo.elim (pure none) (fun s => some <$> s.filterBatch keepIndices)
    return { reqs, samplingInfo, reqPoolIndices, seqLens, outputIds,
             seqLensSum := (seqLens.map List.sum).getD 0, topLogprobsNums, tokenIdsLogprobs }

/-- How `merge_batch` joins the two logprob lists of a rank that has requests in
both batches. -/
def mergeLogprobs (selfReturns otherReturns : Bool) (self other : ScheduleReqsInfo ρ) :
    Except BatchError (Option (List Nat) × Option (List (Option (List Nat)))) :=
  if selfReturns && otherReturns then
    match self.tokenIdsLogprobs, other.tokenIdsLogprobs with
    | some a, some b =>
      match self.topLogprobsNums, other.topLogprobsNums with
      | some n, some m => .ok (some (n ++ m), some (a ++ b))
      | nums, _ => .ok (nums, some (a ++ b))
    | _, _ => .error .extendNone
  else
    match selfReturns, self.topLogprobsNums, otherReturns, other.topLogprobsNums with
    | true, some n, _, _ =>
      match self.tokenIdsLogprobs with
      | some a =>
        .ok (some (n ++ List.replicate other.reqs.length 0),
          some (a ++ List.replicate other.reqs.length none))
      | none => .error .extendNone
    | _, _, true, some m =>
      match other.tokenIdsLogprobs with
      | some b =>
        .ok (some (List.replicate self.reqs.length 0 ++ m),
          some (List.replicate self.reqs.length none ++ b))
      | none => .error .extendNone
    | _, nums, _, _ => .ok (nums, self.tokenIdsLogprobs)

/-- The output ids of both batches, when both have them; `selfLen` and `otherLen`
are the lengths of their `seq_lens`. -/
def mergeOutputIds (selfLen otherLen : Nat) :
    Option (List Int) → Option (List Int) → Option (List Int)
  | some a, some b => some (a.take selfLen ++ b.take otherLen)
  | ids, _ => ids

/-- One rank of `merge_batch`. -/
def mergeBatch (selfReturns otherReturns : Bool) (self other : ScheduleReqsInfo ρ) :
    Except BatchError (ScheduleReqsInfo ρ) :=
  if other.reqs.isEmpty then .ok self
  else if self.reqs.isEmpty then
    .ok { self with
      reqs := other.reqs
      samplingInfo := other.samplingInfo
      reqPoolIndices := other.reqPoolIndices
      seqLens := other.seqLens
      seqLensSum := other.seqLensSum
      outputIds := other.outputIds
      topLogprobsNums := other.topLogprobsNums
      tokenIdsLogprobs := other.tokenIdsLogprobs }
  else do
    let samplingInfo :=
      match self.samplingInfo, other.samplingInfo with
      | some a, some b =>
        -- both are tested for truth, and their length is that of the temperatures
        if a.temperatures.isEmpty || b.temperatures.isEmpty then some a
        else some (a.mergeBatch b)
      | info, _ => info
    let reqPoolIndices ← concat self.reqPoolIndices other.reqPoolIndices
    let seqLens ← concat self.seqLens other.seqLens
    let otherLen := (other.seqLens.getD []).length
    let (topLogprobsNums, tokenIdsLogprobs) ←
      mergeLogprobs selfReturns otherReturns self other
    return {
      reqs := self.reqs ++ other.reqs
      samplingInfo
      reqPoolIndices := some reqPoolIndices
      seqLens := some seqLens
      seqLensSum := self.seqLensSum + other.seqLensSum
      outputIds :=
        mergeOutputIds (seqLens.length - otherLen) otherLen self.outputIds other.outputIds
      topLogprobsNums
      tokenIdsLogprobs }

end ScheduleReqsInfo

namespace ScheduleBatch

def dpSize (b : ScheduleBatch ρ) : Nat := b.reqsInfo.length

def allReqs (b : ScheduleBatch ρ) : List (BatchReq ρ) := b.reqsInfo.flatMap (·.reqs)

/-- `init_new` -/
def initNew (reqs : List (List (BatchReq ρ))) (dpSize : Nat) :
    Except BatchError (ScheduleBatch ρ) :=
  if reqs.length ≠ dpSize then .error .dpSizeMismatch
  else
    let allReqs := reqs.flatten
    .ok {
      reqsInfo := reqs.map (fun rs => { reqs := rs })
      returnLogprob := allReqs.any (·.returnLogprob)
      returnOutputLogprobOnly := allReqs.all (·.returnOutputLogprobOnly)
      hasStream := allReqs.any (·.stream)
      hasGrammar := allReqs.any (·.hasGrammar)
      returnHiddenStates := allReqs.any (·.returnHiddenStates)
      isPrefillOnly := allReqs.all (·.samplingParams.maxNewTokens == 0) }

/-- A loop over the ranks that changes each one. -/
def forRanks {ι : Type} (f : Nat → ι → Except BatchError ι) : Nat → List ι →
    Except BatchError (List ι)
  | _, [] => .ok []
  | rank, info :: infos => do
    let info ← f rank info
    let infos ← forRanks f (rank + 1) infos
    return info :: infos

/-- The same, where what the pool has free is passed on. -/
def forRanksExtend (returnLogprob : Bool) (mem : ExtendMemory) : Nat → List Nat →
    List (ScheduleReqsInfo ρ) → Except BatchError (List (ScheduleReqsInfo ρ) × List Nat)
  | _, freeSlots, [] => .ok ([], freeSlots)
  | rank, freeSlots, info :: infos => do
    let (info, freeSlots) ←
      info.prepareForExtend returnLogprob mem.enableDeterministic (mem.kvServed rank) freeSlots
    let (infos, freeSlots) ← forRanksExtend returnLogprob mem (rank + 1) freeSlots infos
    return (info :: infos, freeSlots)

/-- `prepare_for_extend`, with the request slots that stay free. -/
def prepareForExtend (mem : ExtendMemory) (b : ScheduleBatch ρ) :
    Except BatchError (ScheduleBatch ρ × List Nat) := do
  let (infos, freeSlots) ← forRanksExtend b.returnLogprob mem 0 mem.freeSlots b.reqsInfo
  return ({ b with reqsInfo := infos }, freeSlots)

/-- `_extract_dp_output_ids`: every rank has `perDpBsSize` places in the array of
sampled tokens. -/
def extractDpOutputIds (nextTokenIdsFlat : List Int) (perDpBsSize : Nat)
    (b : ScheduleBatch ρ) : ScheduleBatch ρ :=
  { b with reqsInfo := b.reqsInfo.mapIdx (fun rank info =>
      info.extractOutputIds ((nextTokenIdsFlat.drop (rank * perDpBsSize)).take perDpBsSize)) }

/-- The requests that meet a stop condition after the forward pass. -/
def finishReqs (stops : BatchReq ρ → Bool) (b : ScheduleBatch ρ) : ScheduleBatch ρ :=
  { b with reqsInfo := b.reqsInfo.map (fun info =>
      { info with reqs := info.reqs.map (fun r =>
          { r with finished := r.finished || stops r }) }) }

/-- `prepare_for_decode` -/
def prepareForDecode (kvServed : Nat → Bool) (b : ScheduleBatch ρ) :
    Except BatchError (ScheduleBatch ρ) := do
  let infos ← forRanks (fun rank info => info.prepareForDecode (kvServed rank)) 0 b.reqsInfo
  return { b with reqsInfo := infos }

/-- The indices of a rank that `filter_batch` keeps: those of the dictionary it is
given, or else those of the unfinished requests that are not excluded. -/
def keptIndices (chunkedReqToExclude : Nat → Option Nat)
    (keepIndices : Option (Nat → Option (List Nat))) (rank : Nat)
    (info : ScheduleReqsInfo ρ) : List Nat :=
  match keepIndices with
  | some keep => (keep rank).getD []
  | none => info.unfinishedIndices (chunkedReqToExclude rank)

/-- `filter_batch` -/
def filterBatch (chunkedReqToExclude : Nat → Option Nat)
    (keepIndices : Option (Nat → Option (List Nat))) (b : ScheduleBatch ρ) :
    Except BatchError (ScheduleBatch ρ) := do
  let infos ← forRanks (fun rank info =>
    info.filterBatch (keptIndices chunkedReqToExclude keepIndices rank info)) 0 b.reqsInfo
  let allReqs := infos.flatMap (·.reqs)
  return {
    reqsInfo := infos
    returnLogprob := allReqs.any (·.returnLogprob)
    returnHiddenStates := allReqs.any (·.returnHiddenStates)
    -- an empty batch gets False, which is not the conjunction over no requests
    returnOutputLogprobOnly :=
      if allReqs.isEmpty then false else allReqs.all (·.returnOutputLogprobOnly)
    hasStream := allReqs.any (·.stream)
    hasGrammar := allReqs.any (·.hasGrammar)
    isPrefillOnly := b.isPrefillOnly }

/-- The ranks of `merge_batch`. -/
def mergeRanks (selfReturns otherReturns : Bool) : List (ScheduleReqsInfo ρ) →
    List (ScheduleReqsInfo ρ) → Except BatchError (List (ScheduleReqsInfo ρ))
  | self :: selfs, other :: others => do
    let info ← self.mergeBatch selfReturns otherReturns other
    let infos ← mergeRanks selfReturns otherReturns selfs others
    return info :: infos
  | _, _ => .ok []

/-- `merge_batch` -/
def mergeBatch (self other : ScheduleBatch ρ) : Except BatchError (ScheduleBatch ρ) :=
  if self.dpSize ≠ other.dpSize then .error .dpSizeMismatch
  else do
    let infos ← mergeRanks self.returnLogprob other.returnLogprob self.reqsInfo other.reqsInfo
    return {
      reqsInfo := infos
      returnLogprob := self.returnLogprob || other.returnLogprob
      returnOutputLogprobOnly := self.returnOutputLogprobOnly || other.returnOutputLogprobOnly
      hasStream := self.hasStream || other.hasStream
      hasGrammar := self.hasGrammar || other.hasGrammar
      returnHiddenStates := self.returnHiddenStates || other.returnHiddenStates
      isPrefillOnly := self.isPrefillOnly }

end ScheduleBatch

/-! What the loops over the ranks and the operations on one rank give. -/

section Ranks

variable {ι κ : Type} {f : Nat → ι → Except BatchError ι}

theorem forRanks_forall₂ {R : ι → ι → Prop}
    (hf : ∀ rank info info', f rank info = .ok info' → R info info') {rank : Nat}
    {infos infos' : List ι} (hok : ScheduleBatch.forRanks f rank infos = .ok infos') :
    List.Forall₂ R infos infos' := by
  induction infos generalizing rank infos' with
  | nil =>
    cases hok
    exact .nil
  | cons info infos ih =>
    unfold ScheduleBatch.forRanks at hok
    obtain ⟨head, hhead, hrest⟩ := bind_eq_ok.mp hok
    obtain ⟨tail, htail, heq⟩ := bind_eq_ok.mp hrest
    cases heq
    exact .cons (hf _ _ _ hhead) (ih htail)

theorem forRanks_map {p : ι → κ} {g : Nat → ι → κ}
    (hf : ∀ rank info info', f rank info = .ok info' → p info' = g rank info) {rank : Nat}
    {infos infos' : List ι} (hok : ScheduleBatch.forRanks f rank infos = .ok infos') :
    infos'.map p = infos.mapIdx (fun i info => g (rank + i) info) := by
  induction infos generalizing rank infos' with
  | nil =>
    cases hok
    rfl
  | cons info infos ih =>
    unfold ScheduleBatch.forRanks at hok
    obtain ⟨head, hhead, hrest⟩ := bind_eq_ok.mp hok
    obtain ⟨tail, htail, heq⟩ := bind_eq_ok.mp hrest
    cases heq
    simp only [List.map_cons, List.mapIdx_cons, Nat.add_zero, hf _ _ _ hhead, ih htail]
    congr 2
    funext i info
    rw [Nat.add_right_comm, Nat.add_assoc]

/-- Each rank of the result comes from the rank at its place. -/
theorem forRanks_getElem? {rank : Nat} {infos infos' : List ι}
    (hok : ScheduleBatch.forRanks f rank infos = .ok infos') {i : Nat} {info' : ι}
    (hi : infos'[i]? = some info') :
    ∃ info, infos[i]? = some info ∧ f (rank + i) info = .ok info' := by
  induction infos generalizing rank infos' i with
  | nil =>
    cases hok
    cases hi
  | cons info infos ih =>
    unfold ScheduleBatch.forRanks at hok
    obtain ⟨head, hhead, hrest⟩ := bind_eq_ok.mp hok
    obtain ⟨tail, htail, heq⟩ := bind_eq_ok.mp hrest
    cases heq
    cases i with
    | zero =>
      cases hi
      exact ⟨info, rfl, hhead⟩
    | succ i =>
      obtain ⟨info, hinfo, hf⟩ := ih htail hi
      refine ⟨info, hinfo, ?_⟩
      rw [← hf, Nat.add_right_comm, Nat.add_assoc]

/-- A loop whose body succeeds on every rank succeeds, and gives what the body gives. -/
theorem forRanks_spec {Q : ι → Prop} {rank : Nat} {infos : List ι}
    (hf : ∀ i info, infos[i]? = some info → ∃ info', f (rank + i) info = .ok info' ∧ Q info') :
    ∃ infos', ScheduleBatch.forRanks f rank infos = .ok infos' ∧ ∀ info' ∈ infos', Q info' := by
  induction infos generalizing rank with
  | nil => exact ⟨[], rfl, by simp⟩
  | cons info infos ih =>
    obtain ⟨head, hhead, hQ⟩ := hf 0 info rfl
    have hrest : ∀ i info, infos[i]? = some info →
        ∃ info', f (rank + 1 + i) info = .ok info' ∧ Q info' := by
      intro i info hi
      rw [Nat.add_right_comm]
      exact hf (i + 1) info hi
    obtain ⟨tail, htail, hQs⟩ := ih hrest
    rw [Nat.add_zero] at hhead
    refine ⟨head :: tail, ?_, ?_⟩
    · unfold ScheduleBatch.forRanks
      rw [bind_eq_ok]
      refine ⟨head, hhead, ?_⟩
      rw [bind_eq_ok]
      exact ⟨tail, htail, rfl⟩
    · simp only [List.forall_mem_cons]
      exact ⟨hQ, hQs⟩

end Ranks

/-- What the operations of a run are asked to meet, each one before it is run. -/
structure BatchCare (ρ : Type) where
  extend : ExtendMemory → ScheduleBatch ρ → Prop
  forward : List Int → Nat → ScheduleBatch ρ → Prop
  decode : (Nat → Bool) → ScheduleBatch ρ → Prop
  filter : (Nat → Option Nat) → Option (Nat → Option (List Nat)) → ScheduleBatch ρ → Prop
  merge : ScheduleBatch ρ → ScheduleBatch ρ → Prop

/-- No condition at all. -/
def BatchCare.free : BatchCare ρ where
  extend _ _ := True
  forward _ _ _ := True
  decode _ _ := True
  filter _ _ _ := True
  merge _ _ := True

/-- The batches that some sequence of operations builds. `merge_batch` takes the
requests of its argument over: a batch that was merged into another is not used
again. -/
inductive BatchRun (care : BatchCare ρ) : ScheduleBatch ρ → Prop where
  | initNew {reqs : List (List (BatchReq ρ))} {dpSize : Nat} {b : ScheduleBatch ρ}
      (hok : ScheduleBatch.initNew reqs dpSize = .ok b) : BatchRun care b
  | extend {mem : ExtendMemory} {b b' : ScheduleBatch ρ} {freeSlots : List Nat}
      (run : BatchRun care b) (hcare : care.extend mem b)
      (hok : b.prepareForExtend mem = .ok (b', freeSlots)) : BatchRun care b'
  | forward {nextTokenIdsFlat : List Int} {perDpBsSize : Nat} {b : ScheduleBatch ρ}
      (run : BatchRun care b) (hcare : care.forward nextTokenIdsFlat perDpBsSize b) :
      BatchRun care (b.extractDpOutputIds nextTokenIdsFlat perDpBsSize)
  | finish {b : ScheduleBatch ρ} (run : BatchRun care b) (stops : BatchReq ρ → Bool) :
      BatchRun care (b.finishReqs stops)
  | decode {kvServed : Nat → Bool} {b b' : ScheduleBatch ρ}
      (run : BatchRun care b) (hcare : care.decode kvServed b)
      (hok : b.prepareForDecode kvServed = .ok b') : BatchRun care b'
  | filter {chunkedReqToExclude : Nat → Option Nat}
      {keepIndices : Option (Nat → Option (List Nat))} {b b' : ScheduleBatch ρ}
      (run : BatchRun care b) (hcare : care.filter chunkedReqToExclude keepIndices b)
      (hok : b.filterBatch chunkedReqToExclude keepIndices = .ok b') : BatchRun care b'
  | merge {self other b : ScheduleBatch ρ} (runSelf : BatchRun care self)
      (runOther : BatchRun care other) (hcare : care.merge self other)
      (hok : self.mergeBatch other = .ok b) : BatchRun care b

end SglJax.Managers
