import SglJax.Sampling.Penalties

/-! Runs of the running batch and of the prefill batch that will join it. Requests are
prefilled, decoded, filtered out, retracted and prefilled again, in any order the
scheduler can have. -/
namespace SglJax.Sampling

open Foundation

/-- Without overlap, the batch whose results have to be processed first. -/
inductive Awaited where
  | nothing
  | prefill
  | decode
deriving DecidableEq, Repr

structure PenaltyState where
  store : ReqStore
  running : List PenaltyInfo
  last : List PenaltyInfo
  awaited : Awaited

/-- The requests of a batch. -/
def reqsOf (batch : List PenaltyInfo) : List Nat := batch.flatMap (·.reqs)

/-- `output_ids.append(next_token_id)` -/
def PenaltyReq.append (req : PenaltyReq) (token : Nat) : PenaltyReq :=
  { req with outputIds := req.outputIds ++ [token] }

/-- What a prefill result does: a request that is not completely prefilled gets no
token. -/
def PenaltyReq.prefillResult (req : PenaltyReq) (token : Nat) : PenaltyReq :=
  if req.isChunked then req else req.append token

/-- Each request gets its own token. -/
def ReqStore.deliver (store : ReqStore) (uids : List Nat) (tokens : Nat → Nat)
    (f : PenaltyReq → Nat → PenaltyReq) : ReqStore :=
  fun uid => if uid ∈ uids then f (store uid) (tokens uid) else store uid

/-- `_extract_dp_output_ids` -/
def extractOutputIds (tokens : Nat → Nat) (batch : List PenaltyInfo) : List PenaltyInfo :=
  batch.map fun info => { info with outputIds := info.reqs.map tokens }

/-- `keep_indices` of every rank are indices of it, each at most once. -/
def KeepsIndices (batch : List PenaltyInfo) (keepIndices : Nat → List Nat) : Prop :=
  ∀ rank info, batch[rank]? = some info →
    (keepIndices rank).Nodup ∧ ∀ i ∈ keepIndices rank, i < info.reqs.length

def filterBatch (store : ReqStore) (keepIndices : Nat → List Nat) (batch : List PenaltyInfo) :
    List PenaltyInfo :=
  batch.mapIdx fun rank info => info.filterBatch store (keepIndices rank)

def mergeBatch (store : ReqStore) (batch other : List PenaltyInfo) : List PenaltyInfo :=
  List.zipWith (PenaltyInfo.mergeBatch store) batch other

/-- `prepare_for_decode` of the running batch. -/
def prepareForDecode (enableOverlap : Bool) (s : PenaltyState) : PenaltyState where
  store := s.store.modify (reqsOf s.running) fun req =>
    { req with decodeBatchIdx := req.decodeBatchIdx + 1 }
  running := s.running.map fun info => info.prepareForDecode s.store enableOverlap
  last := s.last
  awaited := if enableOverlap then .nothing else .decode

inductive Event where
  | prefill (groups : List (List Nat)) (isChunked : Nat → Bool)
  | prefillResults (tokens : Nat → Nat)
  | decodeResults (tokens : Nat → Nat)
  | returned (uid token : Nat)
  | filterRunning (keepIndices : Nat → List Nat)
  | filterLast (keepIndices : Nat → List Nat)
  | retract (uid : Nat)
  | merge
  | decode

/-- When the scheduler can take a step. Without overlap the results of a batch are
processed before anything else; with overlap a token may be returned at any time. -/
def Enabled (enableOverlap : Bool) (s : PenaltyState) : Event → Prop
  | .prefill groups _ => s.awaited = .nothing ∧ reqsOf s.last = [] ∧
      groups.length = s.running.length ∧ (reqsOf s.running ++ groups.flatten).Nodup ∧
      ∀ uid ∈ groups.flatten, (s.store uid).decodeBatchIdx = 0
  | .prefillResults _ => s.awaited = .prefill
  | .decodeResults _ => s.awaited = .decode
  | .returned _ _ => enableOverlap = true
  | .filterRunning keepIndices => s.awaited = .nothing ∧ KeepsIndices s.running keepIndices
  | .filterLast keepIndices => s.awaited = .nothing ∧ KeepsIndices s.last keepIndices
  | .retract uid => uid ∉ reqsOf s.running ++ reqsOf s.last
  | .merge => s.awaited = .nothing ∧ (∀ uid ∈ reqsOf s.last, (s.store uid).isChunked = false) ∧
      s.last.length = s.running.length
  | .decode => s.awaited = .nothing

/-- `req.is_chunked` as the scheduler sets it for the requests of a prefill batch. -/
def ReqStore.setChunked (store : ReqStore) (uids : List Nat) (isChunked : Nat → Bool) : ReqStore :=
  fun uid => if uid ∈ uids then { store uid with isChunked := isChunked uid } else store uid

/-- `prepare_for_extend` -/
def prefillBatch (enableOverlap : Bool) (groups : List (List Nat)) (isChunked : Nat → Bool)
    (s : PenaltyState) : PenaltyState where
  store := s.store.setChunked groups.flatten isChunked
  running := s.running
  last := groups.map (PenaltyInfo.prefilled s.store)
  awaited := if enableOverlap then .nothing else .prefill

def next (enableOverlap : Bool) (s : PenaltyState) : Event → PenaltyState
  | .prefill groups isChunked => prefillBatch enableOverlap groups isChunked s
  | .prefillResults tokens =>
    { s with
      store := s.store.deliver (reqsOf s.last) tokens PenaltyReq.prefillResult
      last := extractOutputIds tokens s.last
      awaited := .nothing }
  | .decodeResults tokens =>
    { s with
      store := s.store.deliver (reqsOf s.running) tokens PenaltyReq.append
      running := extractOutputIds tokens s.running
      awaited := .nothing }
  | .returned uid token => { s with store := s.store.modify [uid] fun req => req.append token }
  | .filterRunning keepIndices => { s with running := filterBatch s.store keepIndices s.running }
  | .filterLast keepIndices => { s with last := filterBatch s.store keepIndices s.last }
  | .retract uid =>
    { s with store := s.store.modify [uid] fun req => { req with decodeBatchIdx := 0 } }
  | .merge =>
    { s with
      running := mergeBatch s.store s.running s.last
      last := s.last.map fun _ => {} }
  | .decode => prepareForDecode enableOverlap s

/-- Whether any penalty is asked for. -/
def PenaltyParams.Penalized (params : PenaltyParams) : Prop :=
  params.frequencyPenalty ≠ 0 ∨ params.presencePenalty ≠ 0 ∨ 0 < params.minNewTokens

/-- No request with a penalty is prefilled when it already has output tokens. -/
def FreshPrefill (store : ReqStore) (uids : List Nat) : Prop :=
  ∀ uid ∈ uids, (store uid).params.Penalized → (store uid).outputIds = []

/-- Every request with a penalty has had just one more token returned than it has made
decode steps. -/
def InPace (store : ReqStore) (uids : List Nat) : Prop :=
  ∀ uid ∈ uids, (store uid).params.Penalized →
    (store uid).outputIds.length = (store uid).decodeBatchIdx + 1

/-- The condition on a step. -/
def Meets (enableOverlap : Bool) (s : PenaltyState) : Event → Prop
  | .prefill groups _ => FreshPrefill s.store groups.flatten
  | .decode => enableOverlap = true → InPace s.store (reqsOf s.running)
  | _ => True

/-- The states a scheduler that starts without requests reaches by steps that meet the
condition `cond`. -/
inductive Run (enableOverlap : Bool) (dpSize : Nat) (cond : PenaltyState → Event → Prop) :
    PenaltyState → Prop where
  | start (store : ReqStore)
      (fresh : ∀ uid, (store uid).outputIds = [] ∧ (store uid).decodeBatchIdx = 0) :
      Run enableOverlap dpSize cond
        ⟨store, List.replicate dpSize {}, List.replicate dpSize {}, .nothing⟩
  | step {s : PenaltyState} (e : Event) (run : Run enableOverlap dpSize cond s)
      (enabled : Enabled enableOverlap s e) (met : cond s e) :
      Run enableOverlap dpSize cond (next enableOverlap s e)

/-- What the row of a request should hold. -/
def expectedPenalty (req : PenaltyReq) (t : Nat) : WithBot ℚ :=
  ((-req.params.frequencyPenalty * req.outputIds.count t -
      req.params.presencePenalty * (if 0 < req.outputIds.count t then 1 else 0) : ℚ) : WithBot ℚ) +
    if req.outputIds.length < req.params.minNewTokens ∧ t ∈ req.params.stopTokens then ⊥ else 0

/-- Every row of the running batch depends on its request's own output tokens only. -/
def OwnOutput (s : PenaltyState) : Prop :=
  ∀ info ∈ s.running, List.Forall₂
    (fun uid row => ∀ t, row t = expectedPenalty (s.store uid) t) info.reqs info.linearPenalty

end SglJax.Sampling
