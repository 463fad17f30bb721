import Mathlib.Data.List.Nodup
import Mathlib.Data.String.Basic
import Mathlib.Logic.Function.Basic
import Mathlib.Logic.Relation
import Mathlib.Tactic.Common
import SglJax.Disaggregation.TransferDrain

/-! The prefill side of the `jax.experimental.transfer` backend: `send`, `fail` and
`_on_ack` of the senders, the listener thread of the notifier and the registries they
share. A step is one section under one lock, so any two threads may run between two
steps. -/
namespace SglJax.Disaggregation.PullAcks

/-! The bounded tables are ordered dictionaries, the oldest entry first. -/
section OrderedDict

variable {α : Type}

/-- `table[key] = value; table.move_to_end(key)`. -/
def setLast (key : String) (value : α) (table : List (String × α)) : List (String × α) :=
  table.filter (·.1 ≠ key) ++ [(key, value)]

/-- `table.move_to_end(key)`, where the key is there. -/
def moveToEnd (key : String) (table : List (String × α)) : List (String × α) :=
  table.filter (·.1 ≠ key) ++ table.filter (·.1 = key)

/-- `table.pop(key, None)`. -/
def discardKey (key : String) (table : List (String × α)) : List (String × α) :=
  table.filter (·.1 ≠ key)

/-- `while len(table) > size: table.popitem(last=False)`. -/
def keepLast (size : Nat) (table : List (String × α)) : List (String × α) :=
  (table.reverse.take size).reverse

theorem mem_setLast {key : String} {value : α} {table : List (String × α)} {entry : String × α}
    (h : entry ∈ setLast key value table) : entry ∈ table ∨ entry = (key, value) := by
  unfold setLast at h
  rcases List.mem_append.mp h with h | h
  · exact Or.inl (List.mem_of_mem_filter h)
  · exact Or.inr (List.mem_singleton.mp h)

theorem mem_moveToEnd {key : String} {table : List (String × α)} {entry : String × α}
    (h : entry ∈ moveToEnd key table) : entry ∈ table := by
  unfold moveToEnd at h
  rcases List.mem_append.mp h with h | h
  · exact List.mem_of_mem_filter h
  · exact List.mem_of_mem_filter h

theorem mem_discardKey {key : String} {table : List (String × α)} {entry : String × α}
    (h : entry ∈ discardKey key table) : entry ∈ table :=
  List.mem_of_mem_filter h

theorem mem_keepLast {size : Nat} {table : List (String × α)} {entry : String × α}
    (h : entry ∈ keepLast size table) : entry ∈ table := by
  unfold keepLast at h
  exact List.mem_reverse.mp (List.mem_of_mem_take (List.mem_reverse.mp h))

end OrderedDict

/-- What a terminal transition hands to `mark_retired` and `record_terminal`. -/
structure Outcome where
  state : KVPoll
  reason : String
deriving DecidableEq, Repr

structure TerminalTransferRecord where
  transferId : String
  outcome : Outcome
deriving DecidableEq, Repr

/-- Where the thread is that holds `_state_lock` of a sender. -/
inductive Held where
  | free
  /-- In `producer_handoff`: the sub-uuids registered so far and those to come. -/
  | sending (done todo : List String)
  /-- In its `except` path. -/
  | rollback (todo : List String)
  /-- In `fail`, with the sub-uuids it has yet to release. -/
  | failing (reason : String) (todo : List String)
  /-- In `_on_ack`, with the sub-uuids it has yet to release. -/
  | acking (todo : List String)
  /-- After the transition, before `mark_retired`. -/
  | retiring (outcome : Outcome)
  /-- After `mark_retired`, before `record_terminal`. -/
  | recording (outcome : Outcome)
deriving DecidableEq

structure JaxTransferKVSender where
  state : KVPoll
  /-- `send` was called. -/
  sent : Bool
  /-- `_status.sub_uuids`, once `_status` is set. -/
  status : Option (List String)
  held : Held
  /-- How many calls of `fail` left the lock and did not yet reach `_prune_sender`. -/
  unpruned : Nat
deriving DecidableEq

def JaxTransferKVSender.new : JaxTransferKVSender where
  state := .bootstrapping
  sent := false
  status := none
  held := .free
  unpruned := 0

/-- What happened to one transfer so far. -/
structure History where
  /-- The sub-uuids that `register_pull` took on. -/
  registered : List String
  /-- The listener took the callback for an acknowledgement. -/
  acked : Bool
  /-- How often `_on_ack` ran. -/
  ackRuns : Nat
  /-- The calls of `mark_retired` and of `record_terminal`. -/
  retired : List Outcome
  recorded : List Outcome
deriving DecidableEq

def History.new : History where
  registered := []
  acked := false
  ackRuns := 0
  retired := []
  recorded := []

/-- The listener thread of the notifier. -/
inductive Listener (ι : Type) where
  | polling
  /-- It popped the callback and is outside every lock. -/
  | calling (i : ι)
  /-- It holds the sender's lock. -/
  | running (i : ι)
  /-- It is at `_prune_sender` of `_on_ack`. -/
  | pruning (i : ι)
  /-- It is back from the callback. -/
  | closing (i : ι)
deriving DecidableEq

/-- The senders of a run: request ids and transfer ids are distinct, the entries of a
payload are the keys of a dictionary. -/
structure Transfers (ι : Type) where
  reqId : ι → String
  uuid : ι → String
  entries : ι → List String
  reqId_injective : Function.Injective reqId
  uuid_injective : Function.Injective uuid
  entries_nodup : ∀ i, (entries i).Nodup

namespace Transfers

variable {ι : Type} (T : Transfers ι) (i : ι)

/-- The checks of `producer_handoff` on the payload. -/
def accepted : Bool :=
  !(T.entries i).isEmpty && (T.entries i).all fun name => !name.toList.contains ':'

def subUuid (name : String) : String := T.uuid i ++ ":" ++ name

/-- The sub-uuids `producer_handoff` registers. -/
def subUuids : List String :=
  if T.accepted i then (T.entries i).map (T.subUuid i) else []

end Transfers

/-- `_max_retired` and `_max_terminal_records`. -/
def maxRetired : Nat := 4096
def maxTerminalRecords : Nat := 4096

structure System (ι : Type) where
  sender : ι → JaxTransferKVSender
  /-- `_callbacks`: the sender whose `_on_ack` is registered under a uuid. -/
  callbacks : String → Option ι
  dispatching : String → Bool
  retired : List (String × Outcome)
  /-- `_terminal_records`, by request id. -/
  records : List (String × TerminalTransferRecord)
  senders : String → Option ι
  /-- `_pending` of the wrapper. -/
  pending : String → Bool
  listener : Listener ι
  history : ι → History
  /-- How often `release` of the wrapper was called for a uuid. -/
  releases : String → Nat

def System.init (ι : Type) : System ι where
  sender := fun _ => .new
  callbacks := fun _ => none
  dispatching := fun _ => false
  retired := []
  records := []
  senders := fun _ => none
  pending := fun _ => false
  listener := .polling
  history := fun _ => .new
  releases := fun _ => 0

namespace System

variable {ι : Type} [DecidableEq ι] (s : System ι)

def setSender (i : ι) (x : JaxTransferKVSender) : System ι :=
  { s with sender := Function.update s.sender i x }

def setHistory (i : ι) (h : History) : System ι :=
  { s with history := Function.update s.history i h }

/-! The sections under the locks of the notifier, the wrapper and the manager. -/

/-- `register_callback`, where the uuid has no callback yet. -/
def registerCallback (uuid : String) (i : ι) : System ι :=
  { s with
    dispatching := Function.update s.dispatching uuid false
    retired := discardKey uuid s.retired
    callbacks := Function.update s.callbacks uuid (some i) }

/-- `register_callback` where it raises: the uuid was already discarded. -/
def refuseCallback (uuid : String) : System ι :=
  { s with
    dispatching := Function.update s.dispatching uuid false
    retired := discardKey uuid s.retired }

def unregisterCallback (uuid : String) : System ι :=
  { s with callbacks := Function.update s.callbacks uuid none }

def markRetired (uuid : String) (outcome : Outcome) : System ι :=
  { s with
    dispatching := Function.update s.dispatching uuid false
    retired := keepLast maxRetired (setLast uuid outcome s.retired) }

def recordTerminal (reqId uuid : String) (outcome : Outcome) : System ι :=
  { s with records := keepLast maxTerminalRecords (setLast reqId ⟨uuid, outcome⟩ s.records) }

def clearTerminalRecord (reqId : String) : System ι :=
  { s with records := discardKey reqId s.records }

def pruneSender (reqId : String) : System ι :=
  { s with senders := Function.update s.senders reqId none }

def registerPull (sub : String) : System ι :=
  { s with pending := Function.update s.pending sub true }

/-- `wrapper.release`: dropping a uuid that is not there is no error. -/
def release (sub : String) : System ι :=
  { s with
    pending := Function.update s.pending sub false
    releases := Function.update s.releases sub (s.releases sub + 1) }

theorem markRetired_spec (uuid : String) (outcome : Outcome) :
    ∃ retired, s.markRetired uuid outcome =
        { s with dispatching := Function.update s.dispatching uuid false, retired := retired } ∧
      ∀ entry ∈ retired, entry ∈ s.retired ∨ entry = (uuid, outcome) :=
  ⟨_, rfl, fun _ h => mem_setLast (mem_keepLast h)⟩

theorem recordTerminal_spec (reqId uuid : String) (outcome : Outcome) :
    ∃ records, s.recordTerminal reqId uuid outcome = { s with records := records } ∧
      ∀ entry ∈ records, entry ∈ s.records ∨ entry = (reqId, ⟨uuid, outcome⟩) :=
  ⟨_, rfl, fun _ h => mem_setLast (mem_keepLast h)⟩

end System

section Step

variable {ι : Type} [DecidableEq ι] (T : Transfers ι)

/-- One step, of the transfer it is labelled with. A release is a dictionary pop with
a default and `on_done` does nothing, so the `except` path of `_on_ack` is never
taken. -/
inductive Step : Option ι → System ι → System ι → Prop where
  /-- `create_sender`, `init` and `attach_payload`. -/
  | create {s : System ι} (i : ι) (hstate : (s.sender i).state = .bootstrapping)
      (hnew : s.senders (T.reqId i) = none) :
      Step (some i) s
        (({ s with senders := Function.update s.senders (T.reqId i) (some i) }
          |>.clearTerminalRecord (T.reqId i)).setSender i
          { s.sender i with state := .waitingForInput })
  /-- `send` takes the lock and registers the callback. A payload that fails the checks
  raises at once. -/
  | send {s : System ι} (i : ι) (hstate : (s.sender i).state = .waitingForInput)
      (hsent : (s.sender i).sent = false) (hfree : (s.sender i).held = .free)
      (hnew : s.callbacks (T.uuid i) = none) :
      Step (some i) s
        ((s.registerCallback (T.uuid i) i).setSender i
          { s.sender i with
            sent := true
            held := if T.accepted i then .sending [] (T.subUuids i) else .rollback [] })
  /-- `register_callback` raises out of `send`. -/
  | sendRefused {s : System ι} (i : ι) (hstate : (s.sender i).state = .waitingForInput)
      (hsent : (s.sender i).sent = false) (hfree : (s.sender i).held = .free)
      (hold : s.callbacks (T.uuid i) ≠ none) :
      Step (some i) s
        ((s.refuseCallback (T.uuid i)).setSender i { s.sender i with sent := true })
  /-- `register_pull` of the next entry. -/
  | registerPull {s : System ι} (i : ι) {done todo : List String} {sub : String}
      (hheld : (s.sender i).held = .sending done (sub :: todo)) (hnew : s.pending sub = false) :
      Step (some i) s
        (((s.registerPull sub).setSender i
            { s.sender i with held := .sending (done ++ [sub]) todo }).setHistory i
          { s.history i with registered := (s.history i).registered ++ [sub] })
  /-- Staging or `register_pull` of the next entry raises. -/
  | handoffRaise {s : System ι} (i : ι) {done todo : List String} {sub : String}
      (hheld : (s.sender i).held = .sending done (sub :: todo)) :
      Step (some i) s (s.setSender i { s.sender i with held := .rollback done })
  | rollbackRelease {s : System ι} (i : ι) {todo : List String} {sub : String}
      (hheld : (s.sender i).held = .rollback (sub :: todo)) :
      Step (some i) s
        ((s.release sub).setSender i { s.sender i with held := .rollback todo })
  /-- `send` unregisters the callback and raises. -/
  | rollbackEnd {s : System ι} (i : ι) (hheld : (s.sender i).held = .rollback []) :
      Step (some i) s
        ((s.unregisterCallback (T.uuid i)).setSender i { s.sender i with held := .free })
  | sendEnd {s : System ι} (i : ι) {done : List String}
      (hheld : (s.sender i).held = .sending done []) :
      Step (some i) s
        (s.setSender i
          { s.sender i with status := some done, state := .transferring, held := .free })
  /-- An acknowledgement arrives for a uuid with a callback. -/
  | ackArrives {s : System ι} (i : ι) {uuid : String} (hpoll : s.listener = .polling)
      (hcallback : s.callbacks uuid = some i) :
      Step (some i) s
        ({ s with
            callbacks := Function.update s.callbacks uuid none
            dispatching := Function.update s.dispatching uuid true
            listener := .calling i }
          |>.setHistory i { s.history i with acked := true })
  /-- An acknowledgement arrives for any other uuid and is dropped. -/
  | ackDropped {s : System ι} {uuid : String} (hpoll : s.listener = .polling)
      (hcallback : s.callbacks uuid = none) :
      Step none s { s with retired := moveToEnd uuid s.retired }
  /-- `_on_ack` takes the lock. -/
  | ackEnter {s : System ι} (i : ι) (hlistener : s.listener = .calling i)
      (hfree : (s.sender i).held = .free) :
      Step (some i) s
        (({ s with listener := .running i }.setSender i
            { s.sender i with held := .acking ((s.sender i).status.getD []) }).setHistory i
          { s.history i with ackRuns := (s.history i).ackRuns + 1 })
  | ackRelease {s : System ι} (i : ι) {todo : List String} {sub : String}
      (hlistener : s.listener = .running i) (hheld : (s.sender i).held = .acking (sub :: todo)) :
      Step (some i) s
        ((s.release sub).setSender i { s.sender i with held := .acking todo })
  | ackSucceed {s : System ι} (i : ι) (hlistener : s.listener = .running i)
      (hheld : (s.sender i).held = .acking []) (hstate : (s.sender i).state = .transferring) :
      Step (some i) s
        (s.setSender i
          { s.sender i with state := .success, held := .retiring ⟨.success, "ack"⟩ })
  | ackLate {s : System ι} (i : ι) (hlistener : s.listener = .running i)
      (hheld : (s.sender i).held = .acking []) (hstate : (s.sender i).state ≠ .transferring) :
      Step (some i) s
        ({ s with listener := .pruning i }.setSender i { s.sender i with held := .free })
  | retire {s : System ι} (i : ι) {outcome : Outcome}
      (hheld : (s.sender i).held = .retiring outcome) :
      Step (some i) s
        (((s.markRetired (T.uuid i) outcome).setSender i
            { s.sender i with held := .recording outcome }).setHistory i
          { s.history i with retired := (s.history i).retired ++ [outcome] })
  /-- `record_terminal` of `_on_ack`, which leaves the lock. -/
  | recordAck {s : System ι} (i : ι) {outcome : Outcome} (hlistener : s.listener = .running i)
      (hheld : (s.sender i).held = .recording outcome) :
      Step (some i) s
        ((({ s with listener := .pruning i }.recordTerminal (T.reqId i) (T.uuid i)
            outcome).setSender i { s.sender i with held := .free }).setHistory i
          { s.history i with recorded := (s.history i).recorded ++ [outcome] })
  /-- `record_terminal` of `fail`, which leaves the lock. -/
  | recordFail {s : System ι} (i : ι) {outcome : Outcome} (hlistener : s.listener ≠ .running i)
      (hheld : (s.sender i).held = .recording outcome) :
      Step (some i) s
        (((s.recordTerminal (T.reqId i) (T.uuid i) outcome).setSender i
            { s.sender i with held := .free, unpruned := (s.sender i).unpruned + 1 }).setHistory i
          { s.history i with recorded := (s.history i).recorded ++ [outcome] })
  | ackPrune {s : System ι} (i : ι) (hlistener : s.listener = .pruning i) :
      Step (some i) s { s.pruneSender (T.reqId i) with listener := .closing i }
  | ackClose {s : System ι} (i : ι) (hlistener : s.listener = .closing i) :
      Step (some i) s
        { s with
          dispatching := Function.update s.dispatching (T.uuid i) false
          listener := .polling }
  /-- `fail` of the reaper or of an abort after `send`: it claims the callback. A
  terminal sender returns at once. -/
  | failEnter {s : System ι} (i : ι) (reason : String) (hsent : (s.sender i).sent = true)
      (hfree : (s.sender i).held = .free) (hstate : (s.sender i).state.isTerminal = false) :
      Step (some i) s
        ((s.unregisterCallback (T.uuid i)).setSender i
          { s.sender i with
            held := .failing reason
              (if (s.callbacks (T.uuid i)).isSome then (s.sender i).status.getD [] else []) })
  | failRelease {s : System ι} (i : ι) {reason : String} {todo : List String} {sub : String}
      (hheld : (s.sender i).held = .failing reason (sub :: todo)) :
      Step (some i) s
        ((s.release sub).setSender i { s.sender i with held := .failing reason todo })
  | failEnd {s : System ι} (i : ι) {reason : String}
      (hheld : (s.sender i).held = .failing reason []) :
      Step (some i) s
        (s.setSender i
          { s.sender i with state := .failed, held := .retiring ⟨.failed, reason⟩ })
  | failPrune {s : System ι} (i : ι) {left : Nat}
      (hunpruned : (s.sender i).unpruned = left + 1) :
      Step (some i) s
        ((s.pruneSender (T.reqId i)).setSender i { s.sender i with unpruned := left })
  /-- `clear` drops the terminal record. -/
  | clear {s : System ι} (i : ι) : Step (some i) s (s.clearTerminalRecord (T.reqId i))

/-- A run of any number of steps of any transfers. -/
abbrev Run : System ι → System ι → Prop :=
  Relation.ReflTransGen fun s s' => ∃ label, Step T label s s'

def Reachable (s : System ι) : Prop := Run T (System.init ι) s

end Step

end SglJax.Disaggregation.PullAcks
