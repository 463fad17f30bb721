import Mathlib.Data.List.Nodup
import SglJax.Foundation.PairOrder
import SglJax.Disaggregation.DrainLosses

/-! One tick of the drain on several processes: which rooms each of them finalizes
as SUCCESS, and in which order. -/
namespace SglJax.Disaggregation

open Foundation

/-- The state the drain gives an entry it returns: the agreed one, or what the
poll of the only process said. -/
def DecodeBookkeeping.drainedAs (entry : DecodeBookkeeping) : Option KVPoll :=
  match entry.syncedState with
  | some state => some state
  | none => entry.receiver.poll.toOption

/-- The rooms of the entries a drain returns as SUCCESS. -/
def drainedRooms (out : List DecodeBookkeeping) : List Int64 :=
  (out.filter fun entry => entry.drainedAs = some .success).filterMap (·.bootstrapRoom)

namespace DecodeTransferQueue

def rooms (queue : DecodeTransferQueue) : List Int64 :=
  queue.entries.filterMap (·.bootstrapRoom)

/-- The entries whose receivers a tick polls. -/
def polled (queue : DecodeTransferQueue) (processCount : Nat) : List DecodeBookkeeping :=
  if processCount ≤ 1 then queue.entries else queue.entries.take syncMaxInflight

def polledFor (queue : DecodeTransferQueue) (processCount : Nat) (room : Int64) :
    List DecodeBookkeeping :=
  (queue.polled processCount).filter fun entry => entry.bootstrapRoom = some room

/-- The rooms that the process with this queue finalizes as SUCCESS in a tick of
all processes; the allgather returns the tables of all queues. -/
def successRooms (queue : DecodeTransferQueue) (queues : List DecodeTransferQueue) : List Int64 :=
  match (queue.drainSynced queues.length (queues.map fun q => localTable q.entries)).1 with
  | .ok out => drainedRooms out
  | .error _ => []

/-- The receiver for the room reported SUCCESS in the tick: there is one, and
every one there is was polled and answered SUCCESS. -/
def ReportedSuccess (queue : DecodeTransferQueue) (processCount : Nat) (room : Int64) : Prop :=
  room ∈ queue.rooms ∧ ∀ entry ∈ queue.entries, entry.bootstrapRoom = some room →
    entry ∈ queue.polled processCount ∧ entry.receiver.poll = .ok .success

end DecodeTransferQueue

/-- All processes finalize the same rooms as SUCCESS in the same order, and only
rooms that succeeded everywhere. -/
structure DrainsAgree (queues : List DecodeTransferQueue) : Prop where
  same : ∀ q ∈ queues, ∀ q' ∈ queues, q.successRooms queues = q'.successRooms queues
  reported : ∀ q ∈ queues, ∀ room ∈ q.successRooms queues, ∀ q' ∈ queues,
    q'.ReportedSuccess queues.length room

/-- Every polled receiver for the room succeeded, and there are as many of them
as processes. -/
def SucceedsEverywhere (queues : List DecodeTransferQueue) (room : Int64) : Prop :=
  0 ≤ room ∧
    queues.length ≤ (queues.flatMap fun q => q.polledFor queues.length room).length ∧
    ∀ q ∈ queues, ∀ entry ∈ q.polledFor queues.length room, entry.receiver.poll = .ok .success

/-- The processes hold the rooms that succeed everywhere in one order, each of
them at every process and none past the size of the table. A process on its own
has no room with a receiver that succeeded and one that did not, unless a poll
raises. -/
structure HostsInStep (queues : List DecodeTransferQueue) : Prop where
  alone : queues.length ≤ 1 → ∀ q ∈ queues,
    (∀ entry ∈ q.entries, raises (·.receiver.poll) entry = false) →
    ∀ entry ∈ q.entries, entry.bootstrapRoom.isSome → entry.receiver.poll = .ok .success →
    ∀ other ∈ q.entries, other.bootstrapRoom = entry.bootstrapRoom →
      other.receiver.poll = .ok .success
  present : 1 < queues.length → ∀ room, SucceedsEverywhere queues room → ∀ q ∈ queues,
    room ∈ q.rooms ∧ room ∉ (q.entries.drop syncMaxInflight).filterMap (·.bootstrapRoom)
  ordered : 1 < queues.length → ∀ room room', SucceedsEverywhere queues room →
    SucceedsEverywhere queues room' → ∀ q ∈ queues, ∀ q' ∈ queues,
    pairOrder room room' q.rooms = pairOrder room room' q'.rooms

/-! The rows of the table. -/

theorem foldl_addReport (rows : List Report) (acc : Int64 → List Int64) (room : Int64) :
    rows.foldl addReport acc room =
      acc room ++ (rows.filter fun row => row.1 = room ∧ ¬ row.1 < 0).map (·.2) := by
  induction rows generalizing acc with
  | nil => simp
  | cons row rows ih =>
    rw [List.foldl_cons, ih]
    unfold addReport
    by_cases hneg : row.1 < 0
    · simp [hneg]
    · by_cases heq : room = row.1
      · subst heq
        rw [List.filter_cons_of_pos (by simp [hneg])]
        simp [hneg]
      · rw [List.filter_cons_of_neg (by simp [Ne.symm heq])]
        simp [hneg, heq]

theorem localTable_reports (entries : List DecodeBookkeeping) {room : Int64} (h : 0 ≤ room) :
    ((localTable entries).filter fun row => row.1 = room ∧ ¬ row.1 < 0).map (·.2) =
      ((entries.take syncMaxInflight).filter fun entry => entry.bootstrapRoom = some room).map
        fun entry => reportedState entry.receiver.poll := by
  have hroom : room ≠ -1 := by
    intro heq
    rw [heq] at h
    exact absurd h (by decide)
  have hneg : ¬ room < 0 := by simpa using h
  unfold localTable
  dsimp only
  rw [List.filter_append]
  have hpad : ∀ n, (List.replicate n ((-1, -1) : Report)).filter
      (fun row => row.1 = room ∧ ¬ row.1 < 0) = [] := by
    intro n
    apply List.filter_eq_nil_iff.mpr
    intro row hrow
    rw [List.eq_of_mem_replicate hrow]
    simp [Ne.symm hroom]
  rw [hpad, List.append_nil]
  induction entries.take syncMaxInflight with
  | nil => rfl
  | cons entry rest ih =>
    rw [List.map_cons, List.filter_cons, List.filter_cons]
    cases hr : entry.bootstrapRoom with
    | none => simpa [DecodeBookkeeping.report, hr, Ne.symm hroom] using ih
    | some room' =>
      by_cases heq : room' = room
      · subst heq
        simpa [DecodeBookkeeping.report, hr, hneg] using ih
      · simpa [DecodeBookkeeping.report, hr, heq] using ih

/-- The tables that the processes contribute. -/
def gatheredTables (queues : List DecodeTransferQueue) : List (List Report) :=
  queues.map fun q => localTable q.entries

theorem perRoom_gathered (queues : List DecodeTransferQueue) (hmulti : 1 < queues.length)
    {room : Int64} (h : 0 ≤ room) :
    perRoom (gatheredTables queues) room =
      (queues.flatMap fun q => q.polledFor queues.length room).map
        fun entry => reportedState entry.receiver.poll := by
  unfold perRoom gatheredTables
  rw [foldl_addReport, List.nil_append]
  have hn : ¬ queues.length ≤ 1 := by omega
  unfold DecodeTransferQueue.polledFor DecodeTransferQueue.polled
  simp only [if_neg hn]
  clear hn hmulti
  induction queues with
  | nil => rfl
  | cons q queues ih =>
    rw [List.map_cons, List.flatten_cons, List.filter_append, List.map_append, List.flatMap_cons,
      List.map_append, ih, localTable_reports q.entries h]

theorem perRoom_neg (gathered : List (List Report)) {room : Int64} (h : ¬ 0 ≤ room) :
    perRoom gathered room = [] := by
  have hneg : room < 0 := by simpa using h
  unfold perRoom
  rw [foldl_addReport, List.nil_append, List.map_eq_nil_iff, List.filter_eq_nil_iff]
  intro row _ hrow
  have hrow := of_decide_eq_true hrow
  rw [hrow.1] at hrow
  exact hrow.2 hneg

theorem reportedState_eq_one {poll : PollResult} :
    reportedState poll = 1 ↔ poll = .ok .success := by
  cases poll with
  | error e => simp [reportedState]
  | ok state => cases state <;> simp [reportedState]

theorem successRoom_iff (queues : List DecodeTransferQueue) (hmulti : 1 < queues.length)
    (room : Int64) :
    successRoom (gatheredTables queues) room = true ↔ SucceedsEverywhere queues room := by
  unfold SucceedsEverywhere
  by_cases hroom : 0 ≤ room
  · have hsts := perRoom_gathered queues hmulti hroom
    have hlen : (gatheredTables queues).length = queues.length := List.length_map _
    have hall : (perRoom (gatheredTables queues) room).all (· == 1) = true ↔
        ∀ q ∈ queues, ∀ entry ∈ q.polledFor queues.length room,
          entry.receiver.poll = .ok .success := by
      rw [hsts]
      simp [reportedState_eq_one]
    unfold successRoom failedRoom
    simp only [Bool.and_eq_true, hall, hlen]
    rw [hsts, List.length_map]
    constructor
    · rintro ⟨⟨_, hcount⟩, hsucceed⟩
      exact ⟨hroom, of_decide_eq_true hcount, hsucceed⟩
    · rintro ⟨_, hcount, hsucceed⟩
      refine ⟨⟨⟨?_, ?_⟩, decide_eq_true hcount⟩, hsucceed⟩
      · apply decide_eq_true
        intro hnil
        rw [List.map_eq_nil_iff] at hnil
        rw [hnil, List.length_nil] at hcount
        omega
      · simp only [Bool.not_eq_true', decide_eq_false_iff_not]
        intro hfailed
        obtain ⟨entry, hentry, hstate⟩ := List.mem_map.mp hfailed
        obtain ⟨q, hq, hentry⟩ := List.mem_flatMap.mp hentry
        rw [hsucceed q hq entry hentry] at hstate
        exact absurd hstate (by decide)
  · unfold successRoom
    simp [perRoom_neg _ hroom, hroom]

theorem not_failed_of_success {gathered : List (List Report)} {room : Int64}
    (h : successRoom gathered room = true) : failedRoom gathered room = false := by
  unfold successRoom at h
  simp only [Bool.and_eq_true, Bool.not_eq_true'] at h
  exact h.1.1.2

/-! What one process finalizes. -/

theorem drainedRooms_cons_success {taken : DecodeBookkeeping} {room : Int64}
    (out : List DecodeBookkeeping) (h : taken.drainedAs = some .success)
    (hroom : taken.bootstrapRoom = some room) :
    drainedRooms (taken :: out) = room :: drainedRooms out := by
  simp [drainedRooms, h, hroom]

theorem drainedRooms_cons_failed {taken : DecodeBookkeeping} (out : List DecodeBookkeeping)
    (h : taken.drainedAs = some .failed) : drainedRooms (taken :: out) = drainedRooms out := by
  simp [drainedRooms, h]

theorem drainAgreed_successRooms {success failed : Int64 → Bool}
    (h : ∀ room, success room = true → failed room = false) (entries : List DecodeBookkeeping) :
    drainedRooms (drainAgreed success failed entries).1 =
      (entries.filterMap (·.bootstrapRoom)).filter success := by
  induction entries with
  | nil => rfl
  | cons entry rest ih =>
    unfold drainAgreed
    dsimp only
    rcases Option.eq_none_or_eq_some entry.bootstrapRoom with hr | ⟨room, hr⟩
    · rw [List.filterMap_cons_none hr, if_neg (by simp [hr]), if_neg (by simp [hr])]
      exact ih
    · rw [List.filterMap_cons_some hr]
      cases hs : success room with
      | true =>
        rw [if_neg (by simp [hr, h room hs]), if_pos (by simp [hr, hs]), List.filter_cons_of_pos hs]
        exact (drainedRooms_cons_success _ rfl (by exact hr)).trans (congrArg (room :: ·) ih)
      | false =>
        rw [List.filter_cons_of_neg (by simp [hs])]
        cases hf : failed room with
        | true =>
          rw [if_pos (by simp [hr, hf])]
          exact (drainedRooms_cons_failed _ rfl).trans ih
        | false =>
          rw [if_neg (by simp [hr, hf]), if_neg (by simp [hr, hs])]
          exact ih

namespace DecodeTransferQueue

theorem successRooms_multi (queue : DecodeTransferQueue) {queues : List DecodeTransferQueue}
    (hmulti : 1 < queues.length) :
    queue.successRooms queues = queue.rooms.filter (successRoom (gatheredTables queues)) := by
  unfold successRooms drainSynced
  rw [if_neg (by omega)]
  exact drainAgreed_successRooms (fun _ => not_failed_of_success) queue.entries

theorem mem_rooms {queue : DecodeTransferQueue} {room : Int64} :
    room ∈ queue.rooms ↔ ∃ entry ∈ queue.entries, entry.bootstrapRoom = some room := by
  unfold rooms
  exact List.mem_filterMap

theorem polled_of_not_mem_drop {queue : DecodeTransferQueue} {room : Int64} (processCount : Nat)
    (h : room ∉ (queue.entries.drop syncMaxInflight).filterMap (·.bootstrapRoom))
    {entry : DecodeBookkeeping} (hentry : entry ∈ queue.entries)
    (hroom : entry.bootstrapRoom = some room) : entry ∈ queue.polled processCount := by
  unfold polled
  split
  · exact hentry
  · rw [← List.take_append_drop syncMaxInflight queue.entries] at hentry
    rcases List.mem_append.mp hentry with hin | hout
    · exact hin
    · exact absurd (List.mem_filterMap.mpr ⟨entry, hout, hroom⟩) h

/-- A room whose receivers were all polled has no entry past the table. -/
theorem not_mem_drop_of_polled {queue : DecodeTransferQueue} {room : Int64} {processCount : Nat}
    (hmulti : 1 < processCount)
    (h : ∀ entry ∈ queue.entries, entry.bootstrapRoom = some room →
      entry ∈ queue.polled processCount) :
    room ∉ (queue.entries.drop syncMaxInflight).filterMap (·.bootstrapRoom) := by
  intro hdrop
  obtain ⟨entry, hentry, hroom⟩ := List.mem_filterMap.mp hdrop
  have hpolled := h entry (List.mem_of_mem_drop hentry) hroom
  unfold polled at hpolled
  rw [if_neg (by omega)] at hpolled
  have hnodup : (queue.entries.take syncMaxInflight ++ queue.entries.drop syncMaxInflight).Nodup := by
    rw [List.take_append_drop]
    exact queue.distinct.of_map
  exact List.disjoint_of_nodup_append hnodup hpolled hentry

end DecodeTransferQueue

theorem exists_room_of_succeeds {queues : List DecodeTransferQueue} {room : Int64}
    (hmulti : 1 < queues.length) (h : SucceedsEverywhere queues room) :
    ∃ q ∈ queues, room ∈ q.rooms := by
  have hne : (queues.flatMap fun q => q.polledFor queues.length room) ≠ [] := by
    intro hnil
    have hcount := h.2.1
    rw [hnil, List.length_nil] at hcount
    omega
  obtain ⟨entry, hentry⟩ := List.exists_mem_of_ne_nil _ hne
  obtain ⟨q, hq, hentry⟩ := List.mem_flatMap.mp hentry
  unfold DecodeTransferQueue.polledFor DecodeTransferQueue.polled at hentry
  rw [if_neg (by omega)] at hentry
  have hmem := List.mem_filter.mp hentry
  exact ⟨q, hq, DecodeTransferQueue.mem_rooms.mpr
    ⟨entry, List.mem_of_mem_take hmem.1, of_decide_eq_true hmem.2⟩⟩

theorem inStep_of_agree_multi {queues : List DecodeTransferQueue} (hmulti : 1 < queues.length)
    (h : DrainsAgree queues) : HostsInStep queues where
  alone := fun hsingle => absurd hsingle (by omega)
  present := by
    intro _ room hsucceeds q hq
    obtain ⟨q₀, hq₀, hroom⟩ := exists_room_of_succeeds hmulti hsucceeds
    have hdrained : room ∈ q₀.successRooms queues := by
      rw [q₀.successRooms_multi hmulti]
      exact List.mem_filter.mpr ⟨hroom, (successRoom_iff queues hmulti room).mpr hsucceeds⟩
    have hreported := h.reported q₀ hq₀ room hdrained q hq
    exact ⟨hreported.1,
      DecodeTransferQueue.not_mem_drop_of_polled hmulti fun e he hr => (hreported.2 e he hr).1⟩
  ordered := by
    intro _ room room' hs hs' q hq q' hq'
    have hsame := h.same q hq q' hq'
    rw [q.successRooms_multi hmulti, q'.successRooms_multi hmulti] at hsame
    have hroom := (successRoom_iff queues hmulti room).mpr hs
    have hroom' := (successRoom_iff queues hmulti room').mpr hs'
    rw [← pairOrder_filter hroom hroom' q.rooms, hsame, pairOrder_filter hroom hroom' q'.rooms]

theorem agree_of_inStep_multi {queues : List DecodeTransferQueue} (hmulti : 1 < queues.length)
    (h : HostsInStep queues) : DrainsAgree queues where
  same := by
    intro q hq q' hq'
    rw [q.successRooms_multi hmulti, q'.successRooms_multi hmulti]
    apply eq_of_pairOrder
    intro room room' hroom hroom'
    have hs : successRoom (gatheredTables queues) room = true :=
      hroom.elim (fun hm => (List.mem_filter.mp hm).2) fun hm => (List.mem_filter.mp hm).2
    have hs' : successRoom (gatheredTables queues) room' = true :=
      hroom'.elim (fun hm => (List.mem_filter.mp hm).2) fun hm => (List.mem_filter.mp hm).2
    rw [pairOrder_filter hs hs', pairOrder_filter hs hs']
    exact h.ordered hmulti room room' ((successRoom_iff queues hmulti room).mp hs)
      ((successRoom_iff queues hmulti room').mp hs') q hq q' hq'
  reported := by
    intro q _ room hroom q' hq'
    rw [q.successRooms_multi hmulti] at hroom
    have hsucceeds := (successRoom_iff queues hmulti room).mp (List.mem_filter.mp hroom).2
    have hpresent := h.present hmulti room hsucceeds q' hq'
    refine ⟨hpresent.1, fun entry hentry heq => ?_⟩
    have hpolled := DecodeTransferQueue.polled_of_not_mem_drop queues.length
      hpresent.2 hentry heq
    exact ⟨hpolled, hsucceeds.2.2 q' hq' entry
      (List.mem_filter.mpr ⟨hpolled, decide_eq_true heq⟩)⟩

/-! A process on its own. -/

namespace DecodeTransferQueue

theorem drainSynced_alone {queue : DecodeTransferQueue} {queues : List DecodeTransferQueue}
    (halone : queues.length ≤ 1) :
    queue.drainSynced queues.length (queues.map fun q => localTable q.entries) =
      queue.drainTerminal := by
  unfold drainSynced
  rw [if_pos halone]

theorem successRooms_quiet {queue : DecodeTransferQueue} {queues : List DecodeTransferQueue}
    (halone : queues.length ≤ 1)
    (hquiet : ∀ entry ∈ queue.entries, raises (·.receiver.poll) entry = false) {room : Int64} :
    room ∈ queue.successRooms queues ↔ ∃ entry ∈ queue.entries,
      entry.receiver.poll = .ok .success ∧ entry.bootstrapRoom = some room := by
  unfold successRooms
  rw [drainSynced_alone halone]
  unfold drainTerminal
  rw [drainLoop_ok hquiet]
  unfold drainedRooms
  dsimp only
  rw [List.mem_filterMap]
  constructor
  · rintro ⟨entry, hentry, hroom⟩
    have hin := List.mem_filter.mp hentry
    have hqueue := (List.mem_filter.mp hin.1).1
    have hstate := of_decide_eq_true hin.2
    unfold DecodeBookkeeping.drainedAs at hstate
    rw [queue.unsynced entry hqueue] at hstate
    refine ⟨entry, hqueue, ?_, hroom⟩
    cases hpoll : entry.receiver.poll with
    | error e => simp [hpoll, Except.toOption] at hstate
    | ok state => simpa [hpoll, Except.toOption] using hstate
  · rintro ⟨entry, hentry, hpoll, hroom⟩
    refine ⟨entry, List.mem_filter.mpr ⟨List.mem_filter.mpr ⟨hentry, ?_⟩, ?_⟩, hroom⟩
    · simp [drains, hpoll, KVPoll.isTerminal]
    · simp [DecodeBookkeeping.drainedAs, queue.unsynced entry hentry, hpoll, Except.toOption]

theorem successRooms_raised {queue : DecodeTransferQueue} {queues : List DecodeTransferQueue}
    (halone : queues.length ≤ 1)
    (hraise : ¬ ∀ entry ∈ queue.entries, raises (·.receiver.poll) entry = false) :
    queue.successRooms queues = [] := by
  obtain ⟨x, after, hsplit, hx⟩ := split_at_raise hraise
  obtain ⟨e, he⟩ := drainLoop_error (fun _ => true)
    (fun y hy => not_raises_of_mem_takeWhile hy) hx
  rw [← hsplit] at he
  unfold successRooms
  rw [drainSynced_alone halone]
  unfold drainTerminal
  rw [he]

end DecodeTransferQueue

theorem agree_iff_inStep_alone {queues : List DecodeTransferQueue} (halone : queues.length ≤ 1) :
    DrainsAgree queues ↔ HostsInStep queues := by
  have honly : ∀ q ∈ queues, ∀ q' ∈ queues, q' = q := by
    intro q hq q' hq'
    match queues, halone with
    | [], _ => simp at hq
    | [x], _ => rw [List.mem_singleton.mp hq, List.mem_singleton.mp hq']
  constructor
  · intro h
    refine ⟨fun _ q hq hquiet entry hentry hsome hpoll other hother heq => ?_,
      fun hmulti => absurd hmulti (by omega), fun hmulti => absurd hmulti (by omega)⟩
    obtain ⟨room, hroom⟩ := Option.isSome_iff_exists.mp hsome
    have hdrained : room ∈ q.successRooms queues :=
      (DecodeTransferQueue.successRooms_quiet halone hquiet).mpr ⟨entry, hentry, hpoll, hroom⟩
    exact ((h.reported q hq room hdrained q hq).2 other hother (heq.trans hroom)).2
  · intro h
    refine ⟨fun q hq q' hq' => by rw [honly q hq q' hq'], fun q hq room hdrained q' hq' => ?_⟩
    rw [honly q hq q' hq']
    by_cases hquiet : ∀ entry ∈ q.entries, raises (·.receiver.poll) entry = false
    · obtain ⟨entry, hentry, hpoll, hroom⟩ :=
        (DecodeTransferQueue.successRooms_quiet halone hquiet).mp hdrained
      refine ⟨DecodeTransferQueue.mem_rooms.mpr ⟨entry, hentry, hroom⟩, fun other hother heq => ?_⟩
      refine ⟨?_, h.alone halone q hq hquiet entry hentry (by simp [hroom]) hpoll other hother
        (heq.trans hroom.symm)⟩
      unfold DecodeTransferQueue.polled
      rw [if_pos halone]
      exact hother
    · rw [DecodeTransferQueue.successRooms_raised halone hquiet] at hdrained
      cases hdrained

/-- All processes finalize the same sequence of rooms, each of which succeeded at
every process, exactly when they hold the rooms that succeed in step. -/
theorem drainsAgree_iff (queues : List DecodeTransferQueue) :
    DrainsAgree queues ↔ HostsInStep queues := by
  by_cases hmulti : 1 < queues.length
  · exact ⟨inStep_of_agree_multi hmulti, agree_of_inStep_multi hmulti⟩
  · exact agree_iff_inStep_alone (by omega)

/-- A transfer that has arrived. -/
def arrivedTransfer (reqId : String) (room : Int64) : DecodeBookkeeping :=
  ⟨reqId, some room, 3, ⟨.ok .success, .ok .success, .ok ()⟩, some [4, 5, 6], none, false⟩

/-- Two processes that admitted the same two requests in different orders. -/
def crossedAdmissions : List DecodeTransferQueue :=
  [⟨[arrivedTransfer "a" 1, arrivedTransfer "b" 2], by decide, by decide, by decide⟩,
    ⟨[arrivedTransfer "b" 2, arrivedTransfer "a" 1], by decide, by decide, by decide⟩]

theorem crossed_admissions_disagree :
    ¬ ∀ queues : List DecodeTransferQueue, DrainsAgree queues := by
  intro hall
  have hstep := inStep_of_agree_multi (by decide) (hall crossedAdmissions)
  have hsucceeds : ∀ room : Int64, room = 1 ∨ room = 2 →
      SucceedsEverywhere crossedAdmissions room := by
    rintro room (rfl | rfl) <;> refine ⟨by decide, by decide, by decide⟩
  have horder := hstep.ordered (by decide) 1 2 (hsucceeds 1 (.inl rfl)) (hsucceeds 2 (.inr rfl))
    _ (List.mem_cons_self) _ (List.mem_cons_of_mem _ List.mem_cons_self)
  revert horder
  decide

end SglJax.Disaggregation
