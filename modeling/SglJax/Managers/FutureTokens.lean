import SglJax.Foundation.AxisArrays
import SglJax.MemCache.KvRoom

/-! The overlap pipeline: the scheduler pushes batches to a queue before the tokens of the
batches ahead are known, and names these tokens by placeholders; the forward thread looks
the placeholders up in a map that it writes after every batch. -/
namespace SglJax.Managers.FutureTokens

open Foundation MemCache

variable {ρ : Type}

/-! ### The map and the forward thread -/

/-- A row of a worker batch with its own input ids; `req` is `none` in a padding row. -/
structure Row (ρ : Type) where
  req : Option ρ
  seqLen : Int
  reqPoolIdx : Int
  inputIds : List Int
deriving DecidableEq, Repr

def paddingRow : Row ρ := ⟨none, 0, -1, [0]⟩

/-- Reading the map: an index past the end reads the last element. -/
def lookup (map : List Int) (i : Nat) : Int :=
  map.getD (min i (map.length - 1)) 0

def resolveToken (map : List Int) (id : Int) : Int :=
  if id < 0 then lookup map (max (-id) 0).toNat else id

def resolveFutureTokenIds (inputIds map : List Int) : List Int :=
  inputIds.map (resolveToken map)

/-- `future_slot_indices`; `set_future_token_ids` computes the same on the device. -/
def futureSlot (mapSize : Nat) (row : Row ρ) : Int :=
  if 0 < row.seqLen then row.reqPoolIdx + 1 else mapSize

/-- A write of the scatter with `mode="drop"`. -/
def writeToken (map : List Int) (write : Row ρ × Int) : List Int :=
  match axisIndex map.length (futureSlot map.length write.1) with
  | .ok place => map.set place write.2
  | .error _ => map

def setFutureTokenIds (map : List Int) (rows : List (Row ρ)) (nextTokenIds : List Int) :
    List Int :=
  (rows.zip nextTokenIds).foldl writeToken map

/-- What `forward_batch_generation` gives the scheduler in place of the tokens. -/
def futureNextTokenId (mapSize : Nat) (row : Row ρ) : Int :=
  if 0 < row.seqLen then -futureSlot mapSize row else 0

/-! ### The scheduler -/

/-- Ranks of the requests. -/
structure Config (ρ : Type) where
  dpSize : Nat
  dpRank : ρ → Nat
  dpRank_lt : ∀ r, dpRank r < dpSize

/-- A request in `reqs_info` with its entries in the arrays there. -/
structure InfoRow (ρ : Type) where
  req : ρ
  reqPoolIdx : Nat
  seqLen : Nat
  outputId : Int
deriving DecidableEq, Repr

/-- A request of a new prefill batch with the tokens to extend. -/
structure Admission (ρ : Type) where
  req : ρ
  isChunked : Int
  kvCommittedLen : Nat
  seqLen : Nat
  inputIds : List Nat
deriving DecidableEq, Repr

structure State (ρ : Type) where
  pool : ReqToTokenPool
  reqPoolIdx : ρ → Option Nat
  finished : ρ → Bool
  waiting : List ρ
  chunked : List ρ
  running : List (InfoRow ρ)
  /-- The rows of `last_batch` when it is a prefill batch that is not merged yet. -/
  last : List (InfoRow ρ)
  inputQueue : List (List (Row ρ))
  map : List Int
  /-- The batches that were executed with the tokens sampled for their rows. -/
  executed : List (List (Row ρ) × List Int)

def initial (size : Nat) : State ρ where
  pool := .init size
  reqPoolIdx _ := none
  finished _ := false
  waiting := []
  chunked := []
  running := []
  last := []
  inputQueue := []
  map := List.replicate (size + 2) 0
  executed := []

section

variable [DecidableEq ρ] (cfg : Config ρ)

/-- The rows of a rank, padded. -/
def rankBlock (perDpBs : Nat) (rows : List (InfoRow ρ × List Int)) (d : Nat) : List (Row ρ) :=
  let own := rows.filter fun entry => cfg.dpRank entry.1.req = d
  own.map (fun entry => ⟨some entry.1.req, entry.1.seqLen, entry.1.reqPoolIdx, entry.2⟩) ++
    List.replicate (perDpBs - own.length) paddingRow

/-- `get_model_worker_batch`: the ranks one after the other, each with `perDpBs` rows. -/
def workerBatch (perDpBs : Nat) (rows : List (InfoRow ρ × List Int)) : List (Row ρ) :=
  (List.range cfg.dpSize).flatMap (rankBlock cfg perDpBs rows)

/-- `_extract_dp_output_ids` -/
def extractOutputIds (perDpBs : Nat) (flat : List Int) (rows : List (InfoRow ρ)) :
    List (InfoRow ρ) :=
  (List.range cfg.dpSize).flatMap fun d =>
    let own := rows.filter fun row => cfg.dpRank row.req = d
    List.zipWith (fun row outputId => { row with outputId := outputId }) own
      ((flat.drop (d * perDpBs)).take own.length)

/-- `run_batch`: the batch goes to the queue, and the rows get their placeholders. -/
def push (perDpBs : Nat) (rows : List (InfoRow ρ × List Int)) (s : State ρ) :
    State ρ × List (InfoRow ρ) :=
  let batch := workerBatch cfg perDpBs rows
  ({ s with inputQueue := s.inputQueue ++ [batch] },
    extractOutputIds cfg perDpBs (batch.map (futureNextTokenId s.map.length)) (rows.map Prod.fst))

/-- The merge at the start of `get_next_batch_to_run`; requests in the middle of their
chunks stay out. -/
def mergeLast (s : State ρ) : State ρ :=
  { s with
    running := s.running ++
      s.last.filter fun row => !s.finished row.req && row.req ∉ s.chunked
    last := [] }

/-- `filter_batch` and `prepare_for_decode`: the output ids become the input ids. -/
def decodeRows (s : State ρ) : List (InfoRow ρ × List Int) :=
  (s.running.filter fun row => !s.finished row.req).map fun row =>
    ({ row with seqLen := row.seqLen + 1 }, [row.outputId])

/-- The slots of `alloc` are written to the requests. -/
def setSlots (reqPoolIdx : ρ → Option Nat) : List ρ → List Nat → ρ → Option Nat
  | r :: reqs, idx :: indices => setSlots (Function.update reqPoolIdx r (some idx)) reqs indices
  | _, _ => reqPoolIdx

/-- `alloc_req_slots` for a rank; without enough slots it raises. -/
def allocRank (admitted : List (Admission ρ)) (slots : ReqToTokenPool × (ρ → Option Nat))
    (d : Nat) : Option (ReqToTokenPool × (ρ → Option Nat)) :=
  let own := admitted.filter fun a => cfg.dpRank a.req = d
  match slots.1.alloc (own.map fun a => ⟨slots.2 a.req, a.isChunked, a.kvCommittedLen⟩) with
  | .ok (pool, some indices) => some (pool, setSlots slots.2 (own.map (·.req)) indices)
  | _ => none

def allocSlots (admitted : List (Admission ρ)) (slots : ReqToTokenPool × (ρ → Option Nat)) :
    Option (ReqToTokenPool × (ρ → Option Nat)) :=
  (List.range cfg.dpSize).foldlM (allocRank cfg admitted) slots

def extendRows (reqPoolIdx : ρ → Option Nat) (admitted : List (Admission ρ)) :
    List (InfoRow ρ × List Int) :=
  admitted.map fun a =>
    (⟨a.req, (reqPoolIdx a.req).getD 0, a.seqLen, 0⟩, a.inputIds.map fun id : Nat => (id : Int))

/-- A prefill batch of requests that wait and of chunked ones; those in `truncated` have
more chunks to come. In a mixed batch the running requests decode along. -/
def pushExtend (perDpBs : Nat) (admitted : List (Admission ρ)) (truncated : List ρ) (mixed : Bool)
    (s : State ρ) : Option (State ρ) :=
  let s := mergeLast s
  (allocSlots cfg admitted (s.pool, s.reqPoolIdx)).map fun slots =>
    let decoding := if mixed then decodeRows s else []
    let pushed := push cfg perDpBs (extendRows slots.2 admitted ++ decoding) s
    { pushed.1 with
      pool := slots.1
      reqPoolIdx := slots.2
      waiting := s.waiting.filter fun r => r ∉ admitted.map (·.req)
      chunked := s.chunked.filter (fun r => r ∉ admitted.map (·.req)) ++ truncated
      running := if mixed then [] else s.running
      last := pushed.2 }

def pushDecode (perDpBs : Nat) (s : State ρ) : State ρ :=
  let s := mergeLast s
  let pushed := push cfg perDpBs (decodeRows s) s
  { pushed.1 with running := pushed.2 }

/-- `free` of the slot of a request. -/
def freeSlot (r : ρ) (s : State ρ) : Option (State ρ) :=
  match s.pool.free (s.reqPoolIdx r) with
  | .ok pool => some { s with pool := pool, reqPoolIdx := Function.update s.reqPoolIdx r none }
  | .error _ => none

/-- The forward thread takes a batch: the map is written with the sampled tokens. The fused
path resolves and writes in one call, with the same slots. -/
def execute (batch : List (Row ρ)) (rest : List (List (Row ρ))) (nextTokenIds : List Int)
    (s : State ρ) : State ρ :=
  { s with
    inputQueue := rest
    map := setFutureTokenIds s.map batch nextTokenIds
    executed := s.executed ++ [(batch, nextTokenIds)] }

/-- The requests of a prefill batch: each waits or is in the middle of its chunks, and has
tokens to extend. -/
structure Admits (s : State ρ) (admitted : List (Admission ρ)) (truncated : List ρ) : Prop where
  nodup : (admitted.map (·.req)).Nodup
  held : ∀ a ∈ admitted, a.req ∈ s.waiting ∨ a.req ∈ s.chunked
  tokens : ∀ a ∈ admitted, 0 < a.seqLen
  truncated_nodup : truncated.Nodup
  truncated_subset : ∀ r ∈ truncated, r ∈ admitted.map (·.req)

/-- What scheduler and forward thread can do, in any order. -/
inductive Step : State ρ → State ρ → Prop where
  | arrive {s : State ρ} (r : ρ) (hwaiting : r ∉ s.waiting) (hchunked : r ∉ s.chunked)
      (hrunning : r ∉ s.running.map (·.req)) (hlast : r ∉ s.last.map (·.req))
      (hfinished : s.finished r = false) (hslot : s.reqPoolIdx r = none) :
      Step s { s with waiting := s.waiting ++ [r] }
  | abortWaiting {s : State ρ} (r : ρ) :
      Step s { s with waiting := s.waiting.filter (· ≠ r) }
  | extend {s s' : State ρ} (perDpBs : Nat) (admitted : List (Admission ρ)) (truncated : List ρ)
      (mixed : Bool) (hadmits : Admits s admitted truncated)
      (hroom : ∀ d, ((admitted.map (·.req) ++
        if mixed then (decodeRows (mergeLast s)).map (·.1.req) else []).filter
          fun r => cfg.dpRank r = d).length ≤ perDpBs)
      (hpush : pushExtend cfg perDpBs admitted truncated mixed s = some s') : Step s s'
  | decode {s : State ρ} (perDpBs : Nat)
      (hroom : ∀ d, (((decodeRows (mergeLast s)).map (·.1.req)).filter
        fun r => cfg.dpRank r = d).length ≤ perDpBs) :
      Step s (pushDecode cfg perDpBs s)
  /-- `last_batch` is dropped without a merge: it only had prefill, or generation pauses. -/
  | dropLast {s : State ρ} : Step s { s with last := [] }
  /-- A result finishes a request; it stays in its batch until the next filter. -/
  | finish {s s' : State ρ} (r : ρ) (hheld : r ∈ s.running.map (·.req) ∨ r ∈ s.last.map (·.req))
      (hchunked : r ∉ s.chunked) (hfree : freeSlot r s = some s') :
      Step s { s' with finished := Function.update s.finished r true }
  /-- `retract_decode` gives up a running request; the last one of a rank is aborted. -/
  | retract {s s' : State ρ} (r : ρ) (requeue : Bool) (hheld : r ∈ s.running.map (·.req))
      (hfinished : s.finished r = false) (hfree : freeSlot r s = some s') :
      Step s { s' with
        running := s.running.filter fun row => row.req ≠ r
        waiting := if requeue then s.waiting ++ [r] else s.waiting }
  /-- A request in the middle of its chunks is aborted or retracted. -/
  | retireChunked {s s' : State ρ} (r : ρ) (requeue : Bool) (hheld : r ∈ s.chunked)
      (hfree : freeSlot r s = some s') :
      Step s { s' with
        chunked := s.chunked.filter (· ≠ r)
        last := s.last.filter fun row => row.req ≠ r
        waiting := if requeue then s.waiting ++ [r] else s.waiting }
  | execute {s : State ρ} (batch : List (Row ρ)) (rest : List (List (Row ρ)))
      (nextTokenIds : List Int) (hqueue : s.inputQueue = batch :: rest)
      (hlen : nextTokenIds.length = batch.length) :
      Step s (execute batch rest nextTokenIds s)

/-- The states of all runs. -/
inductive Reachable (size : Nat) : State ρ → Prop where
  | initial : Reachable size (initial size)
  | step {s s' : State ρ} (h : Reachable size s) (hstep : Step cfg s s') : Reachable size s'

/-- The token that was sampled for a request in a batch. -/
def tokenOf (r : ρ) (entry : List (Row ρ) × List Int) : Option Int :=
  ((entry.1.zip entry.2).find? fun sampled => sampled.1.req = some r).map Prod.snd

/-- The token sampled for a request by the last executed batch that contained it. -/
def lastToken (executed : List (List (Row ρ) × List Int)) (r : ρ) : Option Int :=
  executed.reverse.findSome? (tokenOf r)

end

end SglJax.Managers.FutureTokens
