import Mathlib.Data.List.Basic
import Mathlib.Tactic.Common

/-! The drain of the transfer queues once a tick: terminal entries are taken out
of the queue, then finalized one after the other. On several processes the set to
drain is agreed first, from one table of fixed shape per process. -/
namespace SglJax.Disaggregation

inductive KVPoll where
  | bootstrapping
  | waitingForInput
  | transferring
  | success
  | failed
deriving DecidableEq, Repr

/-- `state in (KVPoll.SUCCESS, KVPoll.FAILED)`. -/
def KVPoll.isTerminal : KVPoll → Bool
  | success | failed => true
  | _ => false

/-- The text of an exception that a receiver, a sender or a callback raises. -/
structure TransferError where
  message : String
deriving DecidableEq, Repr

/-- What one call of `poll` does. -/
abbrev PollResult := Except TransferError KVPoll

/-- A receiver as one drain meets it: what its `poll` does when the queue asks,
what it does when it is asked once more, and what `commit` does. -/
structure KVReceiver where
  poll : PollResult
  repoll : PollResult
  commit : Except TransferError Unit
deriving DecidableEq

structure DecodeBookkeeping where
  reqId : String
  /-- `req.bootstrap_room`; the agreement table holds rooms as `int64`. -/
  bootstrapRoom : Option Int64
  /-- `len(req.origin_input_ids)`. -/
  promptLen : Nat
  receiver : KVReceiver
  kvIndices : Option (List Nat)
  syncedState : Option KVPoll
  cancelled : Bool
deriving DecidableEq

/-- The entries of the queue in the order of the dictionary. -/
structure DecodeTransferQueue where
  entries : List DecodeBookkeeping
  distinct : (entries.map (·.reqId)).Nodup
  /-- `synced_state` is set on entries that were taken out only. -/
  unsynced : ∀ entry ∈ entries, entry.syncedState = none
  /-- An entry is added once its pages are allocated. -/
  allocated : ∀ entry ∈ entries, entry.kvIndices.isSome

/-- A sender waiting for its acknowledgement. `canRelease` is the answer of the
check the caller passes in, `onTerminal` what the callback does when it runs. -/
structure PrefillBookkeeping where
  reqId : String
  poll : PollResult
  canRelease : Bool
  onTerminal : Option (Except TransferError Unit)
deriving DecidableEq

structure PrefillBootstrapQueue where
  entries : List PrefillBookkeeping
  distinct : (entries.map (·.reqId)).Nodup
  /-- Every caller of `add` passes a callback. -/
  callbacks : ∀ entry ∈ entries, entry.onTerminal.isSome

section DrainLoop

variable {α : Type} (poll : α → PollResult) (canRelease : α → Bool)

/-- The loop of both `drain_terminal`: what it returns, or the exception of a
`poll`, and the entries the dictionary is left with. -/
def drainLoop : List α → Except TransferError (List α) × List α
  | [] => (.ok [], [])
  | entry :: rest =>
    match poll entry with
    -- the exception leaves the loop: `out` is lost, what was deleted stays deleted
    | .error e => (.error e, entry :: rest)
    | .ok state =>
      let after := drainLoop rest
      if state.isTerminal && canRelease entry then (after.1.map (entry :: ·), after.2)
      else (after.1, entry :: after.2)

/-- Whether the loop deletes the entry when it comes to it. -/
def drains (entry : α) : Bool :=
  match poll entry with
  | .error _ => false
  | .ok state => state.isTerminal && canRelease entry

def raises (entry : α) : Bool :=
  match poll entry with
  | .error _ => true
  | .ok _ => false

end DrainLoop

def DecodeTransferQueue.drainTerminal (queue : DecodeTransferQueue) :
    Except TransferError (List DecodeBookkeeping) × List DecodeBookkeeping :=
  drainLoop (·.receiver.poll) (fun _ => true) queue.entries

def PrefillBootstrapQueue.drainTerminal (queue : PrefillBootstrapQueue) :
    Except TransferError (List PrefillBookkeeping) × List PrefillBookkeeping :=
  drainLoop (·.poll) (·.canRelease) queue.entries

/-! The agreement of several processes. -/

def syncMaxInflight : Nat := 256

/-- A row of the table: room and state. -/
abbrev Report := Int64 × Int64

/-- What the poll of an agreement reports; an exception counts as FAILED. -/
def reportedState : PollResult → Int64
  | .ok .success => 1
  | .ok .failed => -2
  | .error _ => -2
  | .ok _ => 0

def DecodeBookkeeping.report (entry : DecodeBookkeeping) : Report :=
  match entry.bootstrapRoom with
  | none => (-1, -1)
  | some room => (room, reportedState entry.receiver.poll)

/-- The table one process contributes. -/
def localTable (entries : List DecodeBookkeeping) : List Report :=
  let rows := (entries.take syncMaxInflight).map (·.report)
  rows ++ List.replicate (syncMaxInflight - rows.length) (-1, -1)

/-- `per_room.setdefault(room, []).append(state)`; a room without an entry has
the empty list. -/
def addReport (perRoom : Int64 → List Int64) (row : Report) : Int64 → List Int64 :=
  if row.1 < 0 then perRoom
  else fun room => if room = row.1 then perRoom room ++ [row.2] else perRoom room

/-- `per_room` after the loop over all rows of all processes. -/
def perRoom (gathered : List (List Report)) : Int64 → List Int64 :=
  gathered.flatten.foldl addReport fun _ => []

def failedRoom (gathered : List (List Report)) (room : Int64) : Bool :=
  decide (-2 ∈ perRoom gathered room)

def successRoom (gathered : List (List Report)) (room : Int64) : Bool :=
  let sts := perRoom gathered room
  decide (sts ≠ []) && !failedRoom gathered room &&
    decide (gathered.length ≤ sts.length) && sts.all (· == 1)

/-- The loop over the queue once the rooms are agreed. -/
def drainAgreed (success failed : Int64 → Bool) :
    List DecodeBookkeeping → List DecodeBookkeeping × List DecodeBookkeeping
  | [] => ([], [])
  | entry :: rest =>
    let after := drainAgreed success failed rest
    if entry.bootstrapRoom.any failed then
      ({ entry with syncedState := some .failed } :: after.1, after.2)
    else if entry.bootstrapRoom.any success then
      ({ entry with syncedState := some .success } :: after.1, after.2)
    else (after.1, entry :: after.2)

/-- `gathered` is the stack of tables that the allgather returns. -/
def DecodeTransferQueue.drainSynced (queue : DecodeTransferQueue) (processCount : Nat)
    (gathered : List (List Report)) :
    Except TransferError (List DecodeBookkeeping) × List DecodeBookkeeping :=
  if processCount ≤ 1 then queue.drainTerminal
  else
    let after := drainAgreed (successRoom gathered) (failedRoom gathered) queue.entries
    (.ok after.1, after.2)

/-! Finalizing what was drained. -/

/-- What finalizing does to a request and its pages. -/
inductive DrainEvent where
  | enqueue (reqId : String) (retained : List Nat)
  | release (reqId : String) (indices : List Nat)
  | abort (reqId : String)
deriving DecidableEq, Repr

def DrainEvent.reqId : DrainEvent → String
  | enqueue reqId _ | release reqId _ | abort reqId => reqId

namespace DecodeBookkeeping

/-- `_release_decode_kv_indices`, which returns at once without indices. -/
def releaseKv (entry : DecodeBookkeeping) : List DrainEvent :=
  match entry.kvIndices with
  | none => []
  | some indices => [.release entry.reqId indices]

def releaseAndAbort (entry : DecodeBookkeeping) : List DrainEvent :=
  entry.releaseKv ++ [.abort entry.reqId]

/-- The state an entry is finalized with: the agreed one, or the receiver's own
when it is asked again. -/
def finalState (entry : DecodeBookkeeping) : KVPoll :=
  match entry.syncedState with
  | some state => state
  | none =>
    match entry.receiver.repoll with
    | .ok state => state
    | .error _ => .failed

/-- What follows a commit that went through. The last prompt token is computed
here again, so a tail page that holds nothing else is given back. -/
def install (pageSize : Nat) (entry : DecodeBookkeeping) : List DrainEvent :=
  match entry.kvIndices with
  -- slicing or bookkeeping without indices raises
  | none => entry.releaseAndAbort
  | some indices =>
    let prefixLen := entry.promptLen - 1
    if 1 ≤ entry.promptLen ∧ prefixLen % pageSize = 0 then
      [.release entry.reqId (indices.drop prefixLen), .enqueue entry.reqId (indices.take prefixLen)]
    else [.enqueue entry.reqId indices]

def finalize (pageSize : Nat) (entry : DecodeBookkeeping) : List DrainEvent :=
  if entry.cancelled then entry.releaseKv
  else if entry.finalState = .success then
    match entry.receiver.commit with
    | .ok () => entry.install pageSize
    | .error _ => entry.releaseAndAbort
  else entry.releaseAndAbort

end DecodeBookkeeping

/-- `_drain_decode_transfer_terminals`: what it does, in order, and the entries
that stay tracked. An exception of the drain leaves nothing to finalize. -/
def DecodeTransferQueue.drainTransferTerminals (queue : DecodeTransferQueue)
    (pageSize processCount : Nat) (gathered : List (List Report)) :
    List DrainEvent × List DecodeBookkeeping :=
  match queue.drainSynced processCount gathered with
  | (.error _, tracked) => ([], tracked)
  | (.ok out, tracked) => (out.flatMap (·.finalize pageSize), tracked)

/-- `send_kv_chunk`: the callbacks that ran, by their `req_id`, and the entries
that stay tracked. A callback that raises is logged and the loop goes on. -/
def PrefillBootstrapQueue.sendKvChunk (queue : PrefillBootstrapQueue) :
    List String × List PrefillBookkeeping :=
  match queue.drainTerminal with
  | (.error _, tracked) => ([], tracked)
  | (.ok terminal, tracked) =>
    ((terminal.filter (·.onTerminal.isSome)).map (·.reqId), tracked)

end SglJax.Disaggregation
