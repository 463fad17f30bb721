import Mathlib.Data.List.TakeWhile
import Mathlib.Data.List.Nodup
import SglJax.Disaggregation.TransferDrain

/-! What becomes of every entry in one drain of a transfer queue. -/
namespace SglJax.Disaggregation

open DecodeBookkeeping

section DrainLoop

variable {α : Type} {poll : α → PollResult} {canRelease : α → Bool}

/-- Either no poll raises, or none of the entries before the first one that
raises is due. -/
def RaisesFirst (poll : α → PollResult) (canRelease : α → Bool) (entries : List α) : Prop :=
  (∀ entry ∈ entries, raises poll entry = false) ∨
    ∀ entry ∈ entries.takeWhile fun entry => !raises poll entry,
      drains poll canRelease entry = false

instance (entries : List α) : Decidable (RaisesFirst poll canRelease entries) := by
  unfold RaisesFirst; infer_instance

theorem drainLoop_ok {entries : List α} (h : ∀ entry ∈ entries, raises poll entry = false) :
    drainLoop poll canRelease entries =
      (.ok (entries.filter (drains poll canRelease)),
        entries.filter fun entry => !drains poll canRelease entry) := by
  induction entries with
  | nil => rfl
  | cons entry rest ih =>
    have hentry := h entry List.mem_cons_self
    unfold raises at hentry
    unfold drainLoop
    rw [ih fun x hx => h x (List.mem_cons_of_mem _ hx)]
    cases hpoll : poll entry with
    | error e => simp [hpoll] at hentry
    | ok state =>
      cases hdue : state.isTerminal && canRelease entry <;>
        simp [hdue, drains, hpoll, Except.map]

variable (canRelease) in
/-- A poll that raises ends the loop: what was deleted before is gone, what
comes after is untouched. -/
theorem drainLoop_error {before after : List α} {entry : α}
    (hbefore : ∀ x ∈ before, raises poll x = false) (hentry : raises poll entry = true) :
    ∃ e, drainLoop poll canRelease (before ++ entry :: after) =
      (.error e, (before.filter fun x => !drains poll canRelease x) ++ entry :: after) := by
  induction before with
  | nil =>
    unfold raises at hentry
    cases hpoll : poll entry with
    | error e => exact ⟨e, by simp [drainLoop, hpoll]⟩
    | ok state => simp [hpoll] at hentry
  | cons x before ih =>
    have hx := hbefore x List.mem_cons_self
    unfold raises at hx
    obtain ⟨e, he⟩ := ih fun y hy => hbefore y (List.mem_cons_of_mem _ hy)
    refine ⟨e, ?_⟩
    rw [List.cons_append]
    unfold drainLoop
    rw [he]
    cases hpoll : poll x with
    | error e => simp [hpoll] at hx
    | ok state =>
      cases hdue : state.isTerminal && canRelease x <;>
        simp [hdue, drains, hpoll, Except.map]

theorem split_at_raise {entries : List α} (h : ¬ ∀ entry ∈ entries, raises poll entry = false) :
    ∃ entry after, entries = (entries.takeWhile fun x => !raises poll x) ++ entry :: after ∧
      raises poll entry = true := by
  induction entries with
  | nil => simp at h
  | cons x rest ih =>
    cases hx : raises poll x with
    | true => exact ⟨x, rest, by simp [hx], hx⟩
    | false =>
      have hrest : ¬ ∀ entry ∈ rest, raises poll entry = false := by
        intro hall
        apply h
        intro y hy
        rcases List.mem_cons.mp hy with rfl | hy
        · exact hx
        · exact hall y hy
      obtain ⟨entry, after, hsplit, hentry⟩ := ih hrest
      refine ⟨entry, after, ?_, hentry⟩
      rw [List.takeWhile_cons, hx]
      simp only [Bool.not_false, if_true, List.cons_append]
      exact congrArg (x :: ·) hsplit

theorem not_raises_of_mem_takeWhile {entries : List α} {entry : α}
    (h : entry ∈ entries.takeWhile fun x => !raises poll x) : raises poll entry = false := by
  simpa using List.mem_takeWhile_imp h

/-- When a poll raises, all entries are still tracked if and only if none before
the first that raises was due. -/
theorem tracked_of_error_iff {entries : List α} (hnodup : entries.Nodup)
    (hraise : ¬ ∀ entry ∈ entries, raises poll entry = false) :
    (∀ entry ∈ entries, entry ∈ (drainLoop poll canRelease entries).2) ↔
      RaisesFirst poll canRelease entries := by
  obtain ⟨x, after, hsplit, hx⟩ := split_at_raise hraise
  obtain ⟨e, he⟩ := drainLoop_error canRelease
    (fun y hy => not_raises_of_mem_takeWhile hy) hx
  rw [← hsplit] at he
  rw [he]
  unfold RaisesFirst
  rw [or_iff_right hraise]
  rw [hsplit] at hnodup
  constructor
  · intro htracked entry hentry
    have hmem : entry ∈ entries := by
      rw [hsplit]
      exact List.mem_append_left _ hentry
    rcases List.mem_append.mp (htracked entry hmem) with hkept | hlater
    · simpa using (List.mem_filter.mp hkept).2
    · exact absurd hlater (List.disjoint_of_nodup_append hnodup hentry)
  · intro hnone entry hentry
    rw [hsplit] at hentry
    apply List.mem_append.mpr
    rcases List.mem_append.mp hentry with hbefore | hlater
    · exact .inl (List.mem_filter.mpr ⟨hbefore, by simp [hnone entry hbefore]⟩)
    · exact .inr hlater

end DrainLoop

/-! What the events of a tick say about one entry. -/

def DrainEvent.enqueued? : DrainEvent → Option (List Nat)
  | enqueue _ retained => some retained
  | _ => none

def DrainEvent.released? : DrainEvent → Option (List Nat)
  | release _ indices => some indices
  | _ => none

def DrainEvent.isAbort : DrainEvent → Bool
  | abort _ => true
  | _ => false

def eventsOf (log : List DrainEvent) (reqId : String) : List DrainEvent :=
  log.filter fun event => event.reqId = reqId

/-- Enqueued for decode once, the pages split between the request and the free
list, or released once with the request aborted once; the abort of a cancelled
entry was sent when it was cancelled. -/
inductive FinalizedOnce (events : List DrainEvent) (entry : DecodeBookkeeping) : Prop where
  | enqueued (retained : List Nat) : entry.cancelled = false →
      events.filterMap (·.enqueued?) = [retained] → events.countP (·.isAbort) = 0 →
      retained ++ (events.filterMap (·.released?)).flatten = entry.kvIndices.getD [] →
      FinalizedOnce events entry
  | aborted : events.filterMap (·.enqueued?) = [] →
      events.countP (·.isAbort) = (if entry.cancelled then 0 else 1) →
      events.filterMap (·.released?) = entry.kvIndices.toList → FinalizedOnce events entry

/-- Still tracked and untouched, or gone from the queue and finalized once. -/
def Settled (log : List DrainEvent) (tracked : List DecodeBookkeeping)
    (entry : DecodeBookkeeping) : Prop :=
  (entry ∈ tracked ∧ eventsOf log entry.reqId = []) ∨
    (entry ∉ tracked ∧ FinalizedOnce (eventsOf log entry.reqId) entry)

/-- An entry as it leaves the queue: its synced state may be set by then. -/
def SameTransfer (taken entry : DecodeBookkeeping) : Prop :=
  taken = { entry with syncedState := taken.syncedState }

theorem releaseAndAbort_once {taken entry : DecodeBookkeeping} (h : SameTransfer taken entry)
    (hc : entry.cancelled = false) : FinalizedOnce taken.releaseAndAbort entry := by
  unfold SameTransfer at h
  rw [h]
  unfold releaseAndAbort releaseKv
  cases hkv : entry.kvIndices <;>
    apply FinalizedOnce.aborted <;>
    simp [hc, hkv, DrainEvent.enqueued?, DrainEvent.released?, DrainEvent.isAbort]

theorem install_once {taken entry : DecodeBookkeeping} (pageSize : Nat)
    (h : SameTransfer taken entry) (hc : entry.cancelled = false) :
    FinalizedOnce (taken.install pageSize) entry := by
  have hkv : taken.kvIndices = entry.kvIndices := by
    unfold SameTransfer at h
    rw [h]
  unfold install
  cases hindices : entry.kvIndices with
  | none =>
    rw [hkv, hindices]
    exact releaseAndAbort_once h hc
  | some indices =>
    rw [hkv, hindices]
    dsimp only
    split
    · apply FinalizedOnce.enqueued (indices.take (taken.promptLen - 1)) hc <;>
        simp [hindices, DrainEvent.enqueued?, DrainEvent.released?, DrainEvent.isAbort]
    · apply FinalizedOnce.enqueued indices hc <;>
        simp [hindices, DrainEvent.enqueued?, DrainEvent.released?, DrainEvent.isAbort]

theorem finalize_once {taken entry : DecodeBookkeeping} (pageSize : Nat)
    (h : SameTransfer taken entry) : FinalizedOnce (taken.finalize pageSize) entry := by
  have hcancel : taken.cancelled = entry.cancelled := by
    unfold SameTransfer at h
    rw [h]
  unfold finalize
  rw [hcancel]
  cases hc : entry.cancelled with
  | true =>
    unfold SameTransfer at h
    rw [h]
    unfold releaseKv
    cases hkv : entry.kvIndices <;>
      apply FinalizedOnce.aborted <;>
      simp [hc, hkv, DrainEvent.enqueued?, DrainEvent.released?, DrainEvent.isAbort]
  | false =>
    simp only [Bool.false_eq_true, if_false]
    split
    · cases taken.receiver.commit with
      | ok _ => exact install_once pageSize h hc
      | error _ => exact releaseAndAbort_once h hc
    · exact releaseAndAbort_once h hc

theorem finalize_reqId {entry : DecodeBookkeeping} {pageSize : Nat} {event : DrainEvent}
    (h : event ∈ entry.finalize pageSize) : event.reqId = entry.reqId := by
  have hrelease : ∀ event ∈ entry.releaseKv, event.reqId = entry.reqId := by
    intro event hevent
    unfold releaseKv at hevent
    cases hkv : entry.kvIndices <;> simp [hkv] at hevent
    rw [hevent]
    rfl
  have habort : ∀ event ∈ entry.releaseAndAbort, event.reqId = entry.reqId := by
    intro event hevent
    rcases List.mem_append.mp hevent with hevent | hevent
    · exact hrelease event hevent
    · rw [List.mem_singleton.mp hevent]
      rfl
  have hinstall : ∀ event ∈ entry.install pageSize, event.reqId = entry.reqId := by
    intro event hevent
    unfold install at hevent
    cases hkv : entry.kvIndices with
    | none =>
      rw [hkv] at hevent
      exact habort event hevent
    | some indices =>
      rw [hkv] at hevent
      dsimp only at hevent
      split at hevent
      · rcases List.mem_pair.mp hevent with rfl | rfl <;> rfl
      · rw [List.mem_singleton.mp hevent]
        rfl
  unfold finalize at h
  split at h
  · exact hrelease event h
  · split at h
    · split at h
      · exact hinstall event h
      · exact habort event h
    · exact habort event h

/-- The log of a tick holds of a request what finalizing its entry did. -/
theorem eventsOf_log {out : List DecodeBookkeeping} {pageSize : Nat} {entry : DecodeBookkeeping}
    (hnodup : (out.map (·.reqId)).Nodup) (hentry : entry ∈ out) :
    eventsOf (out.flatMap (·.finalize pageSize)) entry.reqId = entry.finalize pageSize := by
  induction out with
  | nil => simp at hentry
  | cons x out ih =>
    rw [List.map_cons, List.nodup_cons] at hnodup
    unfold eventsOf at ih ⊢
    rw [List.flatMap_cons, List.filter_append]
    rcases List.mem_cons.mp hentry with rfl | hlater
    · have hself : (entry.finalize pageSize).filter (fun ev => ev.reqId = entry.reqId) =
          entry.finalize pageSize := by
        apply List.filter_eq_self.mpr
        intro event hevent
        simpa using finalize_reqId hevent
      have hother : (out.flatMap (·.finalize pageSize)).filter
          (fun ev => ev.reqId = entry.reqId) = [] := by
        apply List.filter_eq_nil_iff.mpr
        intro event hevent
        obtain ⟨y, hy, hevent⟩ := List.mem_flatMap.mp hevent
        have hne : y.reqId ≠ entry.reqId := by
          intro heq
          exact hnodup.1 (heq ▸ List.mem_map_of_mem hy)
        simpa [finalize_reqId hevent] using hne
      rw [hself, hother, List.append_nil]
    · have hne : x.reqId ≠ entry.reqId := by
        intro heq
        exact hnodup.1 (heq ▸ List.mem_map_of_mem hlater)
      have hx : (x.finalize pageSize).filter (fun ev => ev.reqId = entry.reqId) = [] := by
        apply List.filter_eq_nil_iff.mpr
        intro event hevent
        simpa [finalize_reqId hevent] using hne
      rw [hx, List.nil_append]
      exact ih hnodup.2 hlater

theorem eventsOf_eq_nil {out : List DecodeBookkeeping} {pageSize : Nat} {reqId : String}
    (h : reqId ∉ out.map (·.reqId)) :
    eventsOf (out.flatMap (·.finalize pageSize)) reqId = [] := by
  apply List.filter_eq_nil_iff.mpr
  intro event hevent
  obtain ⟨y, hy, hevent⟩ := List.mem_flatMap.mp hevent
  rw [finalize_reqId hevent]
  simp only [decide_eq_true_eq]
  intro heq
  exact h (heq ▸ List.mem_map_of_mem hy)

/-- What a drain that returns has done: every entry was taken out or stayed, and
none both. -/
structure Divided (entries out tracked : List DecodeBookkeeping) : Prop where
  covered : ∀ entry ∈ entries, entry ∈ tracked ∨ ∃ taken ∈ out, SameTransfer taken entry
  apart : (out.map (·.reqId) ++ tracked.map (·.reqId)).Nodup

theorem Divided.settled {entries out tracked : List DecodeBookkeeping} {pageSize : Nat}
    (h : Divided entries out tracked) {entry : DecodeBookkeeping} (hentry : entry ∈ entries) :
    Settled (out.flatMap (·.finalize pageSize)) tracked entry := by
  have hapart := List.disjoint_of_nodup_append h.apart
  rcases h.covered entry hentry with hkept | ⟨taken, htaken, hsame⟩
  · refine .inl ⟨hkept, eventsOf_eq_nil ?_⟩
    intro hout
    exact hapart hout (List.mem_map_of_mem hkept)
  · have hid : taken.reqId = entry.reqId := by
      unfold SameTransfer at hsame
      rw [hsame]
    refine .inr ⟨?_, ?_⟩
    · intro hkept
      exact hapart (hid ▸ List.mem_map_of_mem htaken) (List.mem_map_of_mem hkept)
    · rw [← hid, eventsOf_log h.apart.of_append_left htaken]
      exact finalize_once pageSize hsame

theorem divided_filter {entries : List DecodeBookkeeping} (due : DecodeBookkeeping → Bool)
    (h : (entries.map (·.reqId)).Nodup) :
    Divided entries (entries.filter due) (entries.filter fun entry => !due entry) where
  covered := by
    intro entry hentry
    cases hdue : due entry with
    | true => exact .inr ⟨entry, List.mem_filter.mpr ⟨hentry, hdue⟩, rfl⟩
    | false => exact .inl (List.mem_filter.mpr ⟨hentry, by simp [hdue]⟩)
  apart := by
    rw [← List.map_append]
    exact ((List.filter_append_perm due entries).map (·.reqId)).nodup_iff.mpr h

theorem drainAgreed_covers (success failed : Int64 → Bool) {entries : List DecodeBookkeeping}
    {entry : DecodeBookkeeping} (h : entry ∈ entries) :
    entry ∈ (drainAgreed success failed entries).2 ∨
      ∃ taken ∈ (drainAgreed success failed entries).1, SameTransfer taken entry := by
  induction entries with
  | nil => simp at h
  | cons x rest ih =>
    unfold drainAgreed
    rcases List.mem_cons.mp h with rfl | hlater
    · dsimp only
      split
      · exact .inr ⟨_, List.mem_cons_self, rfl⟩
      · split
        · exact .inr ⟨_, List.mem_cons_self, rfl⟩
        · exact .inl List.mem_cons_self
    · have hrest := ih hlater
      dsimp only
      split
      · exact hrest.imp_right fun ⟨taken, ht, hs⟩ => ⟨taken, List.mem_cons_of_mem _ ht, hs⟩
      · split
        · exact hrest.imp_right fun ⟨taken, ht, hs⟩ => ⟨taken, List.mem_cons_of_mem _ ht, hs⟩
        · exact hrest.imp_left (List.mem_cons_of_mem _)

theorem drainAgreed_perm (success failed : Int64 → Bool) (entries : List DecodeBookkeeping) :
    ((drainAgreed success failed entries).1.map (·.reqId) ++
      (drainAgreed success failed entries).2.map (·.reqId)).Perm (entries.map (·.reqId)) := by
  induction entries with
  | nil => exact .refl _
  | cons x rest ih =>
    unfold drainAgreed
    dsimp only
    split
    · exact ih.cons _
    · split
      · exact ih.cons _
      · exact List.perm_middle.trans (ih.cons _)

theorem divided_drainAgreed (success failed : Int64 → Bool) {entries : List DecodeBookkeeping}
    (h : (entries.map (·.reqId)).Nodup) :
    Divided entries (drainAgreed success failed entries).1
      (drainAgreed success failed entries).2 where
  covered := fun _ hentry => drainAgreed_covers success failed hentry
  apart := (drainAgreed_perm success failed entries).nodup_iff.mpr h

/-- Nothing was done for an entry of the queue: it counts as finalized by no
reading, since it holds pages. -/
theorem not_finalizedOnce_nil {entry : DecodeBookkeeping} (h : entry.kvIndices.isSome) :
    ¬ FinalizedOnce [] entry := by
  intro hnone
  cases hnone with
  | enqueued _ _ henqueued => simp at henqueued
  | aborted _ _ hreleased =>
    cases hkv : entry.kvIndices with
    | none => simp [hkv] at h
    | some indices => simp [hkv] at hreleased

/-- Every entry of the decode queue is settled by the tick. -/
def DecodeTransferQueue.DrainSettles (queue : DecodeTransferQueue) (pageSize processCount : Nat)
    (gathered : List (List Report)) : Prop :=
  ∀ entry ∈ queue.entries,
    Settled (queue.drainTransferTerminals pageSize processCount gathered).1
      (queue.drainTransferTerminals pageSize processCount gathered).2 entry

/-- Every entry of the prefill queue is still tracked or its callback ran once. -/
def PrefillBootstrapQueue.DrainSettles (queue : PrefillBootstrapQueue) : Prop :=
  ∀ entry ∈ queue.entries,
    (entry ∈ queue.sendKvChunk.2 ∧ queue.sendKvChunk.1.count entry.reqId = 0) ∨
      (entry ∉ queue.sendKvChunk.2 ∧ queue.sendKvChunk.1.count entry.reqId = 1)

theorem DecodeTransferQueue.drainTransferTerminals_settles_iff (queue : DecodeTransferQueue)
    (pageSize processCount : Nat) (gathered : List (List Report)) :
    queue.DrainSettles pageSize processCount gathered ↔
      (1 < processCount ∨
        RaisesFirst (·.receiver.poll) (fun _ => true) queue.entries) := by
  unfold DrainSettles drainTransferTerminals drainSynced
  by_cases hmulti : 1 < processCount
  · rw [if_neg (by omega)]
    refine ⟨fun _ => .inl hmulti, fun _ entry hentry => ?_⟩
    exact (divided_drainAgreed _ _ queue.distinct).settled hentry
  · rw [if_pos (by omega), or_iff_right hmulti]
    unfold drainTerminal
    by_cases hquiet : ∀ entry ∈ queue.entries, raises (·.receiver.poll) entry = false
    · rw [drainLoop_ok hquiet]
      refine ⟨fun _ => .inl hquiet, fun _ entry hentry => ?_⟩
      exact (divided_filter _ queue.distinct).settled hentry
    · rw [← tracked_of_error_iff queue.distinct.of_map hquiet]
      obtain ⟨x, after, hsplit, hx⟩ := split_at_raise hquiet
      obtain ⟨e, he⟩ := drainLoop_error (fun _ => true)
        (fun y hy => not_raises_of_mem_takeWhile hy) hx
      rw [← hsplit] at he
      rw [he]
      apply forall₂_congr
      intro entry hentry
      -- the log is empty: an entry is settled only by being tracked
      have hlost := not_finalizedOnce_nil (queue.allocated entry hentry)
      simp [Settled, eventsOf, hlost]

theorem PrefillBootstrapQueue.count_callback {entries : List PrefillBookkeeping}
    (h : (entries.map (·.reqId)).Nodup) {entry : PrefillBookkeeping} (hentry : entry ∈ entries)
    (hcallback : entry.onTerminal.isSome) (due : PrefillBookkeeping → Bool) :
    (((entries.filter due).filter (·.onTerminal.isSome)).map (·.reqId)).count entry.reqId =
      if due entry then 1 else 0 := by
  have hsub : (((entries.filter due).filter (·.onTerminal.isSome)).map (·.reqId)).Nodup :=
    (((List.filter_sublist).trans List.filter_sublist).map _).nodup h
  have hmem : entry.reqId ∈ ((entries.filter due).filter (·.onTerminal.isSome)).map (·.reqId) ↔
      due entry = true := by
    constructor
    · intro hin
      obtain ⟨y, hy, hid⟩ := List.mem_map.mp hin
      have hyin := List.mem_filter.mp (List.mem_filter.mp hy).1
      rw [← List.inj_on_of_nodup_map h hyin.1 hentry hid]
      exact hyin.2
    · intro hdue
      exact List.mem_map_of_mem
        (List.mem_filter.mpr ⟨List.mem_filter.mpr ⟨hentry, hdue⟩, hcallback⟩)
  rw [hsub.count]
  simp only [hmem]

theorem PrefillBootstrapQueue.sendKvChunk_settles_iff (queue : PrefillBootstrapQueue) :
    queue.DrainSettles ↔ RaisesFirst (·.poll) (·.canRelease) queue.entries := by
  unfold DrainSettles sendKvChunk drainTerminal
  by_cases hquiet : ∀ entry ∈ queue.entries, raises (·.poll) entry = false
  · rw [drainLoop_ok hquiet]
    refine ⟨fun _ => .inl hquiet, fun _ entry hentry => ?_⟩
    dsimp only
    rw [count_callback queue.distinct hentry (queue.callbacks entry hentry)]
    cases hdue : drains (·.poll) (·.canRelease) entry with
    | true => exact .inr ⟨by simp [hdue], by simp⟩
    | false => exact .inl ⟨List.mem_filter.mpr ⟨hentry, by simp [hdue]⟩, by simp⟩
  · rw [← tracked_of_error_iff queue.distinct.of_map hquiet]
    obtain ⟨x, after, hsplit, hx⟩ := split_at_raise hquiet
    obtain ⟨e, he⟩ := drainLoop_error (·.canRelease)
      (fun y hy => not_raises_of_mem_takeWhile hy) hx
    rw [← hsplit] at he
    rw [he]
    simp

/-- In one tick of both queues every entry stays tracked or is finalized once
exactly when, of a queue that is polled by a single process, no entry that is due
stands before the first whose poll raises. -/
theorem drains_settle_iff (queue : DecodeTransferQueue) (pageSize processCount : Nat)
    (gathered : List (List Report)) (prefill : PrefillBootstrapQueue) :
    (queue.DrainSettles pageSize processCount gathered ↔
      (1 < processCount ∨ RaisesFirst (·.receiver.poll) (fun _ => true) queue.entries)) ∧
    (prefill.DrainSettles ↔ RaisesFirst (·.poll) (·.canRelease) prefill.entries) :=
  ⟨queue.drainTransferTerminals_settles_iff pageSize processCount gathered,
    prefill.sendKvChunk_settles_iff⟩

/-- Two transfers: the first has arrived, the poll of the second raises. -/
def arrivedThenRaising : DecodeTransferQueue where
  entries :=
    [⟨"a", some 1, 3, ⟨.ok .success, .ok .success, .ok ()⟩, some [4, 5, 6], none, false⟩,
      ⟨"b", some 2, 3, ⟨.error ⟨"chunk metadata"⟩, .ok .transferring, .ok ()⟩, some [8, 9, 10],
        none, false⟩]
  distinct := by decide
  unsynced := by decide
  allocated := by decide

theorem drain_drops_arrived_transfer :
    ¬ ∀ (queue : DecodeTransferQueue) (pageSize processCount : Nat) (gathered : List (List Report)),
      queue.DrainSettles pageSize processCount gathered := by
  intro hall
  have hsettled := (arrivedThenRaising.drainTransferTerminals_settles_iff 4 1 []).mp
    (hall arrivedThenRaising 4 1 [])
  revert hsettled
  decide

end SglJax.Disaggregation
