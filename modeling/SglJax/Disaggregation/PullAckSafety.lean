import SglJax.Disaggregation.PullAcks
import SglJax.Foundation.Custody

/-! Which thread releases a transfer's registrations: the one that took its callback
out of the notifier, whatever the two threads' order. -/
namespace SglJax.Disaggregation.PullAcks

open SglJax.Foundation

/-! ### Sub-uuids of different transfers -/

theorem lastSeparator_inj {α : Type} {a a' b b' : List α} {x : α} (hb : x ∉ b) (hb' : x ∉ b')
    (h : a ++ x :: b = a' ++ x :: b') : a = a' ∧ b = b' := by
  rcases List.append_eq_append_iff.mp h with ⟨d, ha, hd⟩ | ⟨d, ha, hd⟩
  · cases d with
    | nil =>
      rw [List.nil_append] at hd
      exact ⟨by simpa using ha.symm, (List.cons.inj hd).2⟩
    | cons y d =>
      have htail := (List.cons.inj hd).2
      exact absurd (by rw [htail]; simp) hb
  · cases d with
    | nil =>
      rw [List.nil_append] at hd
      exact ⟨by simpa using ha, (List.cons.inj hd).2.symm⟩
    | cons y d =>
      have htail := (List.cons.inj hd).2
      exact absurd (by rw [htail]; simp) hb'

section SubUuids

variable {ι : Type} {T : Transfers ι} {i j : ι}

theorem Transfers.subUuid_inj {name name' : String} (hname : ':' ∉ name.toList)
    (hname' : ':' ∉ name'.toList) (h : T.subUuid i name = T.subUuid j name') :
    i = j ∧ name = name' := by
  have hlist := congrArg String.toList h
  unfold Transfers.subUuid at hlist
  simp only [String.toList_append, List.append_assoc] at hlist
  obtain ⟨huuid, htail⟩ := lastSeparator_inj hname hname' hlist
  exact ⟨T.uuid_injective (String.toList_inj.mp huuid), String.toList_inj.mp htail⟩

theorem Transfers.mem_subUuids {sub : String} (h : sub ∈ T.subUuids i) :
    ∃ name ∈ T.entries i, ':' ∉ name.toList ∧ sub = T.subUuid i name := by
  unfold Transfers.subUuids at h
  split at h
  · rename_i hok
    obtain ⟨name, hname, rfl⟩ := List.mem_map.mp h
    unfold Transfers.accepted at hok
    simp only [Bool.and_eq_true, List.all_eq_true] at hok
    exact ⟨name, hname, by simpa using hok.2 name hname, rfl⟩
  · cases h

theorem Transfers.subUuids_disjoint (hij : i ≠ j) {sub : String} (h : sub ∈ T.subUuids i) :
    sub ∉ T.subUuids j := by
  intro h'
  obtain ⟨name, -, hname, rfl⟩ := T.mem_subUuids h
  obtain ⟨name', -, hname', heq⟩ := T.mem_subUuids h'
  exact hij (T.subUuid_inj hname hname' heq).1

theorem Transfers.subUuids_nodup : (T.subUuids i).Nodup := by
  unfold Transfers.subUuids
  split
  · rename_i hok
    unfold Transfers.accepted at hok
    simp only [Bool.and_eq_true, List.all_eq_true] at hok
    apply List.Nodup.map_on _ (T.entries_nodup i)
    intro name hname name' hname' heq
    exact (T.subUuid_inj (by simpa using hok.2 name hname) (by simpa using hok.2 name' hname')
      heq).2
  · exact List.nodup_nil

end SubUuids

/-! ### The state of one transfer -/

/-- The sub-uuids the thread in the section will release, or unregisters if it fails. -/
def Held.owes : Held → List String
  | sending done _ => done
  | rollback todo => todo
  | failing _ todo => todo
  | acking todo => todo
  | _ => []

/-- The registrations not released yet. `awaited`: the callback is still to be claimed,
or the listener that took it is on its way to `_on_ack`. -/
def JaxTransferKVSender.outstanding (x : JaxTransferKVSender) (awaited : Bool) : List String :=
  x.held.owes ++ if awaited then x.status.getD [] else []

/-- Nothing is logged before a terminal transition, one outcome after it. -/
def History.LogsFor (h : History) (state : KVPoll) : Prop :=
  if state.isTerminal then
    ∃ reason, h.retired = [⟨state, reason⟩] ∧ h.recorded = [⟨state, reason⟩]
  else h.retired = [] ∧ h.recorded = []

/-- What holds in each section. -/
def Placed (subs : List String) (x : JaxTransferKVSender) (h : History)
    (callback calling : Bool) : Prop :=
  match x.held with
  | .free => h.LogsFor x.state ∧
      (x.state = .transferring → x.status = some h.registered ∧ (callback || calling) = true)
  | .sending done todo => x.state = .waitingForInput ∧ x.status = none ∧ h.LogsFor x.state ∧
      h.registered = done ∧ done ++ todo = subs ∧ (callback || calling) = true
  | .rollback _ => x.state = .waitingForInput ∧ x.status = none ∧ h.LogsFor x.state
  | .failing _ _ => x.state.isTerminal = false ∧ callback = false ∧ h.LogsFor x.state
  | .acking _ => h.ackRuns = 1 ∧ h.acked = true ∧ h.LogsFor x.state
  | .retiring outcome => x.state = outcome.state ∧ x.state.isTerminal = true ∧
      h.retired = [] ∧ h.recorded = []
  | .recording outcome => x.state = outcome.state ∧ x.state.isTerminal = true ∧
      h.retired = [outcome] ∧ h.recorded = []

structure TransferInv (subs : List String) (x : JaxTransferKVSender) (h : History)
    (callback calling : Bool) (pending : String → Bool) (releases : String → Nat) : Prop where
  /-- The callback is still to come, registered, taken or run. -/
  once : (!x.sent).toNat + callback.toNat + calling.toNat + h.ackRuns ≤ 1
  unsent : x.sent = false → x.status = none ∧ x.held = .free ∧ x.state.isTerminal = false ∧
    x.state ≠ .transferring ∧ h.registered = []
  closed : x.state.isTerminal = true → callback = false
  acked : calling = true → h.acked = true
  placed : Placed subs x h callback calling
  custody : Custody subs h.registered (x.outstanding (callback || calling)) pending releases

namespace TransferInv

variable {subs : List String} {x : JaxTransferKVSender} {h : History} {callback calling : Bool}
  {pending pending' : String → Bool} {releases releases' : String → Nat}

theorem new (h : ∀ sub ∈ subs, pending sub = false ∧ releases sub = 0) :
    TransferInv subs .new .new false false pending releases where
  once := by decide
  unsent := by simp [JaxTransferKVSender.new, History.new, KVPoll.isTerminal]
  closed := by simp
  acked := by simp
  placed := by simp [Placed, JaxTransferKVSender.new, History.new, History.LogsFor,
    KVPoll.isTerminal]
  custody := Custody.start h

theorem congr (hx : TransferInv subs x h callback calling pending releases)
    (hpending : ∀ sub ∈ subs, pending' sub = pending sub)
    (hreleases : ∀ sub ∈ subs, releases' sub = releases sub) :
    TransferInv subs x h callback calling pending' releases' where
  once := hx.once
  unsent := hx.unsent
  closed := hx.closed
  acked := hx.acked
  placed := hx.placed
  custody := hx.custody.congr hpending hreleases

theorem sent_of_held (hx : TransferInv subs x h callback calling pending releases)
    (hheld : x.held ≠ .free) : x.sent = true := by
  cases hsent : x.sent with
  | true => rfl
  | false => exact absurd (hx.unsent hsent).2.1 hheld

theorem owes_registered (hx : TransferInv subs x h callback calling pending releases)
    (sub : String) (hsub : sub ∈ x.held.owes) : sub ∈ subs :=
  hx.custody.inScope sub (hx.custody.onceTaken sub (List.mem_append_left _ hsub))

/-! The steps of a transfer, one after the other. -/

theorem create (hx : TransferInv subs x h callback calling pending releases)
    (hstate : x.state = .bootstrapping) :
    TransferInv subs { x with state := .waitingForInput } h callback calling pending releases where
  once := hx.once
  unsent := by
    intro hsent
    obtain ⟨hstatus, hheld, -, -, hreg⟩ := hx.unsent hsent
    exact ⟨hstatus, hheld, rfl, by simp, hreg⟩
  closed := by simp [KVPoll.isTerminal]
  acked := hx.acked
  placed := by
    have hplaced := hx.placed
    cases hheld : x.held <;>
      simp_all [Placed, History.LogsFor, KVPoll.isTerminal]
  custody := hx.custody

/-- Before `send` the transfer has nothing anywhere. -/
theorem quiet (hx : TransferInv subs x h callback calling pending releases)
    (hsent : x.sent = false) : callback = false ∧ calling = false ∧ h.ackRuns = 0 := by
  have honce := hx.once
  rw [hsent] at honce
  cases callback <;> cases calling <;> simp at honce ⊢
  · exact honce
  all_goals omega

theorem send (hx : TransferInv subs x h callback calling pending releases)
    (hstate : x.state = .waitingForInput) (hsent : x.sent = false) :
    TransferInv subs { x with sent := true, held := .sending [] subs } h true calling pending
      releases := by
  obtain ⟨hcallback, hcalling, hruns⟩ := hx.quiet hsent
  obtain ⟨hstatus, hheld, -, -, hreg⟩ := hx.unsent hsent
  have hplaced := hx.placed
  unfold Placed at hplaced
  rw [hheld] at hplaced
  constructor
  · simp [hcalling, hruns]
  · simp
  · simp [hstate, KVPoll.isTerminal]
  · exact hx.acked
  · exact ⟨hstate, hstatus, hplaced.1, hreg, List.nil_append _, rfl⟩
  · simpa [JaxTransferKVSender.outstanding, Held.owes, hstatus, hheld] using hx.custody

theorem sendRejected (hx : TransferInv subs x h callback calling pending releases)
    (hstate : x.state = .waitingForInput) (hsent : x.sent = false) :
    TransferInv subs { x with sent := true, held := .rollback [] } h true calling pending
      releases := by
  obtain ⟨hcallback, hcalling, hruns⟩ := hx.quiet hsent
  obtain ⟨hstatus, hheld, -, -, hreg⟩ := hx.unsent hsent
  have hplaced := hx.placed
  unfold Placed at hplaced
  rw [hheld] at hplaced
  constructor
  · simp [hcalling, hruns]
  · simp
  · simp [hstate, KVPoll.isTerminal]
  · exact hx.acked
  · exact ⟨hstate, hstatus, hplaced.1⟩
  · simpa [JaxTransferKVSender.outstanding, Held.owes, hstatus, hheld] using hx.custody

theorem registerPull (hx : TransferInv subs x h callback calling pending releases)
    (hnodup : subs.Nodup) {done todo : List String} {sub : String}
    (hheld : x.held = .sending done (sub :: todo)) :
    TransferInv subs { x with held := .sending (done ++ [sub]) todo }
      { h with registered := h.registered ++ [sub] } callback calling
      (Function.update pending sub true) releases := by
  have hsent := hx.sent_of_held (by simp [hheld])
  have hplaced := hx.placed
  unfold Placed at hplaced
  rw [hheld] at hplaced
  obtain ⟨hstate, hstatus, hlogs, hreg, hsubs, hawaited⟩ := hplaced
  have hscope : sub ∈ subs := by
    rw [← hsubs]
    simp
  have hnew : sub ∉ h.registered := by
    rw [← hsubs, List.nodup_append] at hnodup
    intro hold
    rw [hreg] at hold
    exact hnodup.2.2 sub hold sub List.mem_cons_self rfl
  constructor
  · exact hx.once
  · simp [hsent]
  · exact hx.closed
  · exact hx.acked
  · refine ⟨hstate, hstatus, hlogs, ?_, ?_, hawaited⟩
    · rw [← hreg]
    · rw [← hsubs, List.append_assoc, List.singleton_append]
  · have htake := hx.custody.takeOn hscope hnew
    simpa [JaxTransferKVSender.outstanding, Held.owes, hstatus, hheld] using htake

theorem handoffRaise (hx : TransferInv subs x h callback calling pending releases)
    {done todo : List String} (hheld : x.held = .sending done todo) :
    TransferInv subs { x with held := .rollback done } h callback calling pending releases := by
  have hsent := hx.sent_of_held (by simp [hheld])
  have hplaced := hx.placed
  unfold Placed at hplaced
  rw [hheld] at hplaced
  constructor
  · exact hx.once
  · simp [hsent]
  · exact hx.closed
  · exact hx.acked
  · exact ⟨hplaced.1, hplaced.2.1, hplaced.2.2.1⟩
  · simpa [JaxTransferKVSender.outstanding, Held.owes, hheld] using hx.custody

/-- A release by the thread in the section, whichever section it is. -/
theorem release (hx : TransferInv subs x h callback calling pending releases)
    (held : Held) {todo : List String} {sub : String} (howes : x.held.owes = sub :: todo)
    (hrest : held.owes = todo) (hfree : x.held ≠ .free)
    (hplaced : Placed subs { x with held := held } h callback calling) :
    TransferInv subs { x with held := held } h callback calling
      (Function.update pending sub false)
      (Function.update releases sub (releases sub + 1)) := by
  have hsent := hx.sent_of_held hfree
  have hcustody := hx.custody
  unfold JaxTransferKVSender.outstanding at hcustody
  rw [howes, List.cons_append] at hcustody
  constructor
  · exact hx.once
  · simp [hsent]
  · exact hx.closed
  · exact hx.acked
  · exact hplaced
  · unfold JaxTransferKVSender.outstanding
    rw [hrest]
    exact hcustody.giveBack

theorem rollbackEnd (hx : TransferInv subs x h callback calling pending releases)
    (hheld : x.held = .rollback []) :
    TransferInv subs { x with held := .free } h false calling pending releases := by
  have hsent := hx.sent_of_held (by simp [hheld])
  have hplaced := hx.placed
  unfold Placed at hplaced
  rw [hheld] at hplaced
  obtain ⟨hstate, hstatus, hlogs⟩ := hplaced
  constructor
  · have honce := hx.once
    dsimp only at honce ⊢
    simp only [Bool.toNat_false]
    omega
  · simp [hsent]
  · simp
  · exact hx.acked
  · exact ⟨hlogs, by simp [hstate]⟩
  · simpa [JaxTransferKVSender.outstanding, Held.owes, hstatus, hheld] using hx.custody

theorem sendEnd (hx : TransferInv subs x h callback calling pending releases)
    {done : List String} (hheld : x.held = .sending done []) :
    TransferInv subs { x with status := some done, state := .transferring, held := .free } h
      callback calling pending releases := by
  have hsent := hx.sent_of_held (by simp [hheld])
  have hplaced := hx.placed
  unfold Placed at hplaced
  rw [hheld] at hplaced
  obtain ⟨hstate, hstatus, hlogs, hreg, -, hawaited⟩ := hplaced
  constructor
  · exact hx.once
  · simp [hsent]
  · simp [KVPoll.isTerminal]
  · exact hx.acked
  · refine ⟨?_, ?_⟩
    · simpa [History.LogsFor, hstate, KVPoll.isTerminal] using hlogs
    · intro _
      exact ⟨by rw [← hreg], hawaited⟩
  · simpa [JaxTransferKVSender.outstanding, Held.owes, hstatus, hheld, hawaited] using hx.custody

/-- The listener takes the callback; what is awaited stays the same. -/
theorem ackArrives (hx : TransferInv subs x h true calling pending releases) :
    TransferInv subs x { h with acked := true } false true pending releases := by
  have honce := hx.once
  have hcalling : calling = false := by
    cases calling <;> simp at honce ⊢
    omega
  subst hcalling
  constructor
  · simp at honce ⊢
    omega
  · exact hx.unsent
  · simp
  · simp
  · have hplaced := hx.placed
    unfold Placed at hplaced ⊢
    cases hheld : x.held with
    | failing reason todo =>
      rw [hheld] at hplaced
      exact absurd hplaced.2.1 (by simp)
    | acking todo =>
      rw [hheld] at hplaced
      exact ⟨hplaced.1, rfl, hplaced.2.2⟩
    | free | sending done todo | rollback todo | retiring outcome | recording outcome =>
      rw [hheld] at hplaced
      exact hplaced
  · exact hx.custody

theorem ackEnter (hx : TransferInv subs x h callback true pending releases)
    (hheld : x.held = .free) :
    TransferInv subs { x with held := .acking (x.status.getD []) }
      { h with ackRuns := h.ackRuns + 1 } callback false pending releases := by
  have honce := hx.once
  have hcallback : callback = false := by
    cases callback <;> simp at honce ⊢
    omega
  subst hcallback
  have hsent : x.sent = true := by
    cases hsent : x.sent <;> simp [hsent] at honce ⊢
    omega
  have hplaced := hx.placed
  unfold Placed at hplaced
  rw [hheld] at hplaced
  have hruns : h.ackRuns = 0 := by
    simp at honce
    omega
  constructor
  · simp [hsent, hruns]
  · simp [hsent]
  · simp
  · simp
  · exact ⟨by rw [hruns], hx.acked rfl, hplaced.1⟩
  · simpa [JaxTransferKVSender.outstanding, Held.owes, hheld] using hx.custody

/-- While `_on_ack` runs, nothing else of the transfer is under way. -/
theorem alone (hx : TransferInv subs x h callback calling pending releases)
    {todo : List String} (hheld : x.held = .acking todo) :
    callback = false ∧ calling = false := by
  have honce := hx.once
  have hplaced := hx.placed
  unfold Placed at hplaced
  rw [hheld] at hplaced
  rw [hplaced.1] at honce
  cases callback <;> cases calling <;> simp at honce ⊢

theorem ackSucceed (hx : TransferInv subs x h callback calling pending releases)
    (hheld : x.held = .acking []) (hstate : x.state = .transferring) :
    TransferInv subs { x with state := .success, held := .retiring ⟨.success, "ack"⟩ } h
      callback calling pending releases := by
  have hsent := hx.sent_of_held (by simp [hheld])
  obtain ⟨hcallback, hcalling⟩ := hx.alone hheld
  have hplaced := hx.placed
  unfold Placed at hplaced
  rw [hheld] at hplaced
  have hlogs := hplaced.2.2
  rw [hstate] at hlogs
  constructor
  · exact hx.once
  · simp [hsent]
  · intro _
    exact hcallback
  · exact hx.acked
  · exact ⟨rfl, rfl, hlogs.1, hlogs.2⟩
  · simpa [JaxTransferKVSender.outstanding, Held.owes, hheld] using hx.custody

theorem ackLate (hx : TransferInv subs x h callback calling pending releases)
    (hheld : x.held = .acking []) (hstate : x.state ≠ .transferring) :
    TransferInv subs { x with held := .free } h callback calling pending releases := by
  have hsent := hx.sent_of_held (by simp [hheld])
  have hplaced := hx.placed
  unfold Placed at hplaced
  rw [hheld] at hplaced
  constructor
  · exact hx.once
  · simp [hsent]
  · exact hx.closed
  · exact hx.acked
  · exact ⟨hplaced.2.2, fun h => absurd h hstate⟩
  · simpa [JaxTransferKVSender.outstanding, Held.owes, hheld] using hx.custody

theorem retire (hx : TransferInv subs x h callback calling pending releases)
    {outcome : Outcome} (hheld : x.held = .retiring outcome) :
    TransferInv subs { x with held := .recording outcome }
      { h with retired := h.retired ++ [outcome] } callback calling pending releases := by
  have hsent := hx.sent_of_held (by simp [hheld])
  have hplaced := hx.placed
  unfold Placed at hplaced
  rw [hheld] at hplaced
  obtain ⟨hstate, hterminal, hretired, hrecorded⟩ := hplaced
  constructor
  · exact hx.once
  · simp [hsent]
  · exact hx.closed
  · exact hx.acked
  · exact ⟨hstate, hterminal, by rw [hretired, List.nil_append], hrecorded⟩
  · simpa [JaxTransferKVSender.outstanding, Held.owes, hheld] using hx.custody

theorem record (hx : TransferInv subs x h callback calling pending releases)
    {outcome : Outcome} (hheld : x.held = .recording outcome) (unpruned : Nat) :
    TransferInv subs { x with held := .free, unpruned := unpruned }
      { h with recorded := h.recorded ++ [outcome] } callback calling pending releases := by
  have hsent := hx.sent_of_held (by simp [hheld])
  have hplaced := hx.placed
  unfold Placed at hplaced
  rw [hheld] at hplaced
  obtain ⟨hstate, hterminal, hretired, hrecorded⟩ := hplaced
  constructor
  · exact hx.once
  · simp [hsent]
  · exact hx.closed
  · exact hx.acked
  · refine ⟨?_, ?_⟩
    · unfold History.LogsFor
      dsimp only
      rw [if_pos hterminal]
      refine ⟨outcome.reason, ?_, ?_⟩
      · rw [hretired, hstate]
      · rw [hrecorded, hstate, List.nil_append]
    · intro htransferring
      dsimp only at htransferring
      rw [htransferring] at hterminal
      cases hterminal
  · simpa [JaxTransferKVSender.outstanding, Held.owes, hheld] using hx.custody

/-- `fail` takes over the releases only where it gets the callback itself. -/
theorem failEnter (hx : TransferInv subs x h callback calling pending releases)
    (hsent : x.sent = true) (hheld : x.held = .free) (hstate : x.state.isTerminal = false)
    (reason : String) :
    TransferInv subs
      { x with held := .failing reason (if callback then x.status.getD [] else []) } h false
      calling pending releases := by
  have honce := hx.once
  have hplaced := hx.placed
  unfold Placed at hplaced
  rw [hheld] at hplaced
  constructor
  · simp only [Bool.toNat_false]
    omega
  · simp [hsent]
  · simp
  · exact hx.acked
  · exact ⟨hstate, rfl, hplaced.1⟩
  · cases callback with
    | false => simpa [JaxTransferKVSender.outstanding, Held.owes, hheld] using hx.custody
    | true =>
      have hcalling : calling = false := by
        cases calling <;> simp at honce ⊢
        omega
      simpa [JaxTransferKVSender.outstanding, Held.owes, hheld, hcalling] using hx.custody

theorem failEnd (hx : TransferInv subs x h callback calling pending releases)
    {reason : String} (hheld : x.held = .failing reason []) :
    TransferInv subs { x with state := .failed, held := .retiring ⟨.failed, reason⟩ } h
      callback calling pending releases := by
  have hsent := hx.sent_of_held (by simp [hheld])
  have hplaced := hx.placed
  unfold Placed at hplaced
  rw [hheld] at hplaced
  obtain ⟨hstate, hcallback, hlogs⟩ := hplaced
  unfold History.LogsFor at hlogs
  rw [hstate] at hlogs
  constructor
  · exact hx.once
  · simp [hsent]
  · intro _
    exact hcallback
  · exact hx.acked
  · exact ⟨rfl, rfl, hlogs.1, hlogs.2⟩
  · simpa [JaxTransferKVSender.outstanding, Held.owes, hheld] using hx.custody

theorem setUnpruned (hx : TransferInv subs x h callback calling pending releases)
    (unpruned : Nat) :
    TransferInv subs { x with unpruned := unpruned } h callback calling pending releases where
  once := hx.once
  unsent := hx.unsent
  closed := hx.closed
  acked := hx.acked
  placed := hx.placed
  custody := hx.custody

end TransferInv

/-! ### Runs -/

section Runs

variable {ι : Type} [DecidableEq ι] {T : Transfers ι} {s s' : System ι} {i j : ι}

/-- The listener took the callback of the transfer and is not in it yet. -/
def Listener.calls : Listener ι → ι → Bool
  | .calling j, i => decide (j = i)
  | _, _ => false

def InvAt (T : Transfers ι) (s : System ι) (i : ι) : Prop :=
  TransferInv (T.subUuids i) (s.sender i) (s.history i) (s.callbacks (T.uuid i)).isSome
    (s.listener.calls i) s.pending s.releases

structure Inv (T : Transfers ι) (s : System ι) : Prop where
  transfers : ∀ i, InvAt T s i
  own : ∀ uuid i, s.callbacks uuid = some i → uuid = T.uuid i
  /-- What the bounded tables keep was logged. -/
  retired : ∀ entry ∈ s.retired, ∃ i, entry.1 = T.uuid i ∧ entry.2 ∈ (s.history i).retired
  records : ∀ entry ∈ s.records, ∃ i, entry.1 = T.reqId i ∧ entry.2.transferId = T.uuid i ∧
    entry.2.outcome ∈ (s.history i).recorded

/-- The step changed no registration of the transfer: neither its callback nor a pull
nor its entry of the registry, nor anything of the sender. -/
structure Unaffected (T : Transfers ι) (s s' : System ι) (j : ι) : Prop where
  sender : s'.sender j = s.sender j
  history : s'.history j = s.history j
  callback : s'.callbacks (T.uuid j) = s.callbacks (T.uuid j)
  calling : s'.listener.calls j = s.listener.calls j
  pulls : ∀ sub ∈ T.subUuids j, s'.pending sub = s.pending sub
  releases : ∀ sub ∈ T.subUuids j, s'.releases sub = s.releases sub
  registry : s'.senders (T.reqId j) = s.senders (T.reqId j)

theorem InvAt.unaffected (h : InvAt T s j) (hsame : Unaffected T s s' j) : InvAt T s' j := by
  unfold InvAt at h ⊢
  rw [hsame.sender, hsame.history, hsame.callback, hsame.calling]
  exact h.congr hsame.pulls hsame.releases

omit [DecidableEq ι] in
/-- The pull a step registers or releases is one of its own transfer. -/
theorem Transfers.ne_sub (hij : j ≠ i) {sub : String}
    (hsub : sub ∈ T.subUuids i) : ∀ other ∈ T.subUuids j, other ≠ sub := by
  intro other hother heq
  subst heq
  exact T.subUuids_disjoint hij hother hsub

theorem Step.unaffected (hs : Inv T s) {label : Option ι} (hstep : Step T label s s')
    (hlabel : label ≠ some j) : Unaffected T s s' j := by
  have hne : ∀ i, label = some i → j ≠ i ∧ T.uuid j ≠ T.uuid i ∧ T.reqId j ≠ T.reqId i := by
    intro i hi
    have hij : j ≠ i := by
      intro heq
      subst heq
      exact hlabel hi
    exact ⟨hij, T.uuid_injective.ne hij, T.reqId_injective.ne hij⟩
  cases hstep with
  | ackDropped hpoll hcallback => constructor <;> simp
  | @registerPull _ i done todo sub hheld hnew =>
    obtain ⟨hij, huuid, hreq⟩ := hne i rfl
    have hplaced := (hs.transfers i).placed
    unfold Placed at hplaced
    rw [hheld] at hplaced
    have hsub : sub ∈ T.subUuids i := by
      rw [← hplaced.2.2.2.2.1]
      simp
    have hother := Transfers.ne_sub hij hsub
    constructor <;>
      simp +contextual [System.setSender, System.setHistory, System.registerPull, hij, hother]
  | @rollbackRelease _ i todo sub hheld | @failRelease _ i reason todo sub hheld
  | @ackRelease _ i todo sub hlistener hheld =>
    obtain ⟨hij, huuid, hreq⟩ := hne i rfl
    have hsub := (hs.transfers i).owes_registered sub (by simp [hheld, Held.owes])
    have hother := Transfers.ne_sub hij hsub
    constructor <;>
      simp +contextual [System.setSender, System.release, hij, hother]
  | @ackArrives _ i uuid hpoll hcallback =>
    obtain ⟨hij, huuid, hreq⟩ := hne i rfl
    have hown := hs.own uuid i hcallback
    subst hown
    constructor <;> simp [System.setHistory, Listener.calls, hij, huuid, hpoll, hij.symm]
  | @ackEnter _ i hlistener hfree | @ackLate _ i hlistener hheld hstate
  | @ackPrune _ i hlistener | @ackClose _ i hlistener =>
    obtain ⟨hij, huuid, hreq⟩ := hne i rfl
    constructor <;>
      simp [System.setSender, System.pruneSender, System.setHistory, Listener.calls, hij, hreq,
        hlistener, hij.symm]
  | @recordAck _ i outcome hlistener hheld =>
    obtain ⟨hij, huuid, hreq⟩ := hne i rfl
    obtain ⟨records, heq, -⟩ := System.recordTerminal_spec
      { s with listener := .pruning i } (T.reqId i) (T.uuid i) outcome
    rw [heq]
    constructor <;>
      simp [System.setSender, System.setHistory, Listener.calls, hij, hlistener]
  | @recordFail _ i outcome hlistener hheld =>
    obtain ⟨hij, huuid, hreq⟩ := hne i rfl
    obtain ⟨records, heq, -⟩ := s.recordTerminal_spec (T.reqId i) (T.uuid i) outcome
    rw [heq]
    constructor <;> simp [System.setSender, System.setHistory, hij]
  | @retire _ i outcome hheld =>
    obtain ⟨hij, huuid, hreq⟩ := hne i rfl
    obtain ⟨retired, heq, -⟩ := s.markRetired_spec (T.uuid i) outcome
    rw [heq]
    constructor <;> simp [System.setSender, System.setHistory, hij]
  | @create _ i | @send _ i | @sendRefused _ i | @handoffRaise _ i | @rollbackEnd _ i | @sendEnd _ i
  | @ackSucceed _ i | @failEnter _ i | @failEnd _ i | @failPrune _ i | @clear _ i =>
    obtain ⟨hij, huuid, hreq⟩ := hne i rfl
    constructor <;>
      simp [System.setSender, System.registerCallback, System.refuseCallback,
        System.unregisterCallback, System.clearTerminalRecord, System.pruneSender, hij, huuid,
        hreq]

theorem Step.own (hs : Inv T s) (hstep : Step T (some i) s s') : InvAt T s' i := by
  have hx := hs.transfers i
  unfold InvAt at hx ⊢
  cases hstep with
  | create _ hstate hnew =>
    have hnext := hx.create hstate
    simpa [System.setSender, System.clearTerminalRecord] using hnext
  | send _ hstate hsent hfree hnew =>
    have hnext := hx.send hstate hsent
    have hreject := hx.sendRejected hstate hsent
    cases hok : T.accepted i with
    | true => simpa [System.setSender, System.registerCallback, hok] using hnext
    | false => simpa [System.setSender, System.registerCallback, hok] using hreject
  | sendRefused _ hstate hsent hfree hold =>
    have hquiet := (hx.quiet hsent).1
    exact absurd (by simpa using hquiet) hold
  | registerPull _ hheld hnew =>
    have hnext := hx.registerPull T.subUuids_nodup hheld
    simpa [System.setSender, System.setHistory, System.registerPull] using hnext
  | handoffRaise _ hheld =>
    have hnext := hx.handoffRaise hheld
    simpa [System.setSender] using hnext
  | @rollbackRelease _ _ todo sub hheld =>
    have hplaced := hx.placed
    unfold Placed at hplaced
    rw [hheld] at hplaced
    have hnext := hx.release (.rollback todo) (by rw [hheld]; rfl) rfl (by simp [hheld]) hplaced
    simpa [System.setSender, System.release] using hnext
  | rollbackEnd _ hheld =>
    have hnext := hx.rollbackEnd hheld
    simpa [System.setSender, System.unregisterCallback] using hnext
  | sendEnd _ hheld =>
    have hnext := hx.sendEnd hheld
    simpa [System.setSender] using hnext
  | @ackArrives _ _ uuid hpoll hcallback =>
    have hown := hs.own uuid i hcallback
    subst hown
    rw [hcallback] at hx
    have hnext := hx.ackArrives
    simpa [System.setHistory, Listener.calls] using hnext
  | ackEnter _ hlistener hfree =>
    have hcalls : s.listener.calls i = true := by simp [hlistener, Listener.calls]
    rw [hcalls] at hx
    have hnext := hx.ackEnter hfree
    simpa [System.setSender, System.setHistory, Listener.calls] using hnext
  | @ackRelease _ _ todo sub hlistener hheld =>
    have hplaced := hx.placed
    unfold Placed at hplaced
    rw [hheld] at hplaced
    have hnext := hx.release (.acking todo) (by rw [hheld]; rfl) rfl (by simp [hheld]) hplaced
    simpa [System.setSender, System.release] using hnext
  | ackSucceed _ hlistener hheld hstate =>
    have hnext := hx.ackSucceed hheld hstate
    simpa [System.setSender] using hnext
  | ackLate _ hlistener hheld hstate =>
    rw [hlistener] at hx
    have hnext := hx.ackLate hheld hstate
    simpa [System.setSender, Listener.calls] using hnext
  | @retire _ _ outcome hheld =>
    have hnext := hx.retire hheld
    obtain ⟨retired, heq, -⟩ := s.markRetired_spec (T.uuid i) outcome
    rw [heq]
    simpa [System.setSender, System.setHistory] using hnext
  | @recordAck _ _ outcome hlistener hheld =>
    rw [hlistener] at hx
    have hnext := hx.record hheld (s.sender i).unpruned
    obtain ⟨records, heq, -⟩ := System.recordTerminal_spec
      { s with listener := .pruning i } (T.reqId i) (T.uuid i) outcome
    rw [heq]
    simpa [System.setSender, System.setHistory, Listener.calls] using hnext
  | @recordFail _ _ outcome hlistener hheld =>
    have hnext := hx.record hheld ((s.sender i).unpruned + 1)
    obtain ⟨records, heq, -⟩ := s.recordTerminal_spec (T.reqId i) (T.uuid i) outcome
    rw [heq]
    simpa [System.setSender, System.setHistory] using hnext
  | ackPrune _ hlistener =>
    rw [hlistener] at hx
    simpa [System.pruneSender, Listener.calls] using hx
  | ackClose _ hlistener =>
    rw [hlistener] at hx
    simpa [Listener.calls] using hx
  | failEnter _ reason hsent hfree hstate =>
    have hnext := hx.failEnter hsent hfree hstate reason
    simpa [System.setSender, System.unregisterCallback] using hnext
  | @failRelease _ _ reason todo sub hheld =>
    have hplaced := hx.placed
    unfold Placed at hplaced
    rw [hheld] at hplaced
    have hnext := hx.release (.failing reason todo) (by rw [hheld]; rfl) rfl (by simp [hheld]) hplaced
    simpa [System.setSender, System.release] using hnext
  | failEnd _ hheld =>
    have hnext := hx.failEnd hheld
    simpa [System.setSender] using hnext
  | failPrune _ hunpruned =>
    have hnext := hx.setUnpruned
    simpa [System.setSender, System.pruneSender] using hnext _
  | clear _ => exact hx

/-! What a step does to the tables of the notifier and of the manager. -/

theorem Step.logs_grow {label : Option ι} (hstep : Step T label s s') (j : ι) :
    (∀ outcome ∈ (s.history j).retired, outcome ∈ (s'.history j).retired) ∧
      ∀ outcome ∈ (s.history j).recorded, outcome ∈ (s'.history j).recorded := by
  cases hstep with
  | @registerPull _ i | @ackArrives _ i | @ackEnter _ i =>
    by_cases hij : j = i
    · subst hij
      simp [System.setHistory]
    · simp [System.setSender, System.setHistory, System.registerPull, hij]
  | @retire _ i outcome | @recordAck _ i outcome | @recordFail _ i outcome =>
    by_cases hij : j = i
    · subst hij
      simp +contextual [System.setHistory]
    · simp [System.setSender, System.setHistory, System.markRetired, System.recordTerminal, hij]
  | _ => exact ⟨fun _ h => h, fun _ h => h⟩

theorem Step.callbacks_own (hs : Inv T s) {label : Option ι} (hstep : Step T label s s') :
    ∀ uuid i, s'.callbacks uuid = some i → uuid = T.uuid i := by
  intro uuid j hj
  cases hstep with
  | @send _ i =>
    by_cases huuid : uuid = T.uuid i
    · subst huuid
      simp only [System.setSender, System.registerCallback, Function.update_self,
        Option.some.injEq] at hj
      rw [hj]
    · simp only [System.setSender, System.registerCallback, Function.update_of_ne huuid] at hj
      exact hs.own uuid j hj
  | @rollbackEnd _ i | @failEnter _ i =>
    by_cases huuid : uuid = T.uuid i
    · subst huuid
      simp [System.setSender, System.unregisterCallback] at hj
    · simp only [System.setSender, System.unregisterCallback, Function.update_of_ne huuid] at hj
      exact hs.own uuid j hj
  | @ackArrives _ i other =>
    by_cases huuid : uuid = other
    · subst huuid
      simp [System.setHistory] at hj
    · simp only [System.setHistory, Function.update_of_ne huuid] at hj
      exact hs.own uuid j hj
  | _ => exact hs.own uuid j hj

theorem Step.retired_entry {label : Option ι} (hstep : Step T label s s')
    {entry : String × Outcome} (h : entry ∈ s'.retired) :
    entry ∈ s.retired ∨ ∃ i, entry.1 = T.uuid i ∧ entry.2 ∈ (s'.history i).retired := by
  cases hstep with
  | send | sendRefused => exact Or.inl (mem_discardKey h)
  | ackDropped => exact Or.inl (mem_moveToEnd h)
  | @retire _ i outcome =>
    obtain ⟨retired, heq, hmem⟩ := s.markRetired_spec (T.uuid i) outcome
    rw [heq] at h ⊢
    rcases hmem entry h with hold | hnew
    · exact Or.inl hold
    · subst hnew
      exact Or.inr ⟨i, rfl, by simp [System.setHistory]⟩
  | _ => exact Or.inl h

theorem Step.records_entry {label : Option ι} (hstep : Step T label s s')
    {entry : String × TerminalTransferRecord} (h : entry ∈ s'.records) :
    entry ∈ s.records ∨ ∃ i, entry.1 = T.reqId i ∧ entry.2.transferId = T.uuid i ∧
      entry.2.outcome ∈ (s'.history i).recorded := by
  cases hstep with
  | create | clear => exact Or.inl (mem_discardKey h)
  | @recordAck _ i outcome =>
    obtain ⟨records, heq, hmem⟩ := System.recordTerminal_spec
      { s with listener := .pruning i } (T.reqId i) (T.uuid i) outcome
    rw [heq] at h ⊢
    rcases hmem entry h with hold | hnew
    · exact Or.inl hold
    · subst hnew
      exact Or.inr ⟨i, rfl, rfl, by simp [System.setHistory]⟩
  | @recordFail _ i outcome =>
    obtain ⟨records, heq, hmem⟩ := s.recordTerminal_spec (T.reqId i) (T.uuid i) outcome
    rw [heq] at h ⊢
    rcases hmem entry h with hold | hnew
    · exact Or.inl hold
    · subst hnew
      exact Or.inr ⟨i, rfl, rfl, by simp [System.setHistory]⟩
  | _ => exact Or.inl h

theorem Inv.init : Inv T (System.init ι) where
  transfers := fun i => TransferInv.new (fun _ _ => ⟨rfl, rfl⟩)
  own := by simp [System.init]
  retired := by simp [System.init]
  records := by simp [System.init]

theorem Inv.step (hs : Inv T s) {label : Option ι} (hstep : Step T label s s') : Inv T s' where
  transfers := by
    intro j
    by_cases hlabel : label = some j
    · subst hlabel
      exact hstep.own hs
    · exact (hs.transfers j).unaffected (hstep.unaffected hs hlabel)
  own := hstep.callbacks_own hs
  retired := by
    intro entry h
    rcases hstep.retired_entry h with hold | hnew
    · obtain ⟨i, hkey, hmem⟩ := hs.retired entry hold
      exact ⟨i, hkey, (hstep.logs_grow i).1 _ hmem⟩
    · exact hnew
  records := by
    intro entry h
    rcases hstep.records_entry h with hold | hnew
    · obtain ⟨i, hkey, hid, hmem⟩ := hs.records entry hold
      exact ⟨i, hkey, hid, (hstep.logs_grow i).2 _ hmem⟩
    · exact hnew

theorem Inv.run (hs : Inv T s) (hrun : Run T s s') : Inv T s' := by
  induction hrun with
  | refl => exact hs
  | tail _ hstep ih =>
    obtain ⟨label, hstep⟩ := hstep
    exact ih.step hstep

theorem Step.terminal_stable (hs : Inv T s) {label : Option ι} (hstep : Step T label s s')
    (hterminal : (s.sender j).state.isTerminal = true) :
    (s'.sender j).state = (s.sender j).state := by
  by_cases hlabel : label = some j
  · subst hlabel
    have hplaced := (hs.transfers j).placed
    unfold Placed at hplaced
    cases hstep with
    | create _ hstate =>
      rw [hstate] at hterminal
      cases hterminal
    | sendEnd _ hheld =>
      rw [hheld] at hplaced
      rw [hplaced.1] at hterminal
      cases hterminal
    | ackSucceed _ hlistener hheld hstate =>
      rw [hstate] at hterminal
      cases hterminal
    | failEnd _ hheld =>
      rw [hheld] at hplaced
      rw [hplaced.1] at hterminal
      cases hterminal
    | _ => simp [System.setSender, System.setHistory, System.registerCallback,
        System.refuseCallback, System.unregisterCallback, System.registerPull, System.release,
        System.markRetired, System.recordTerminal, System.clearTerminalRecord,
        System.pruneSender]
  · rw [(hstep.unaffected hs hlabel).sender]

theorem Inv.terminal_stable (hs : Inv T s) (hrun : Run T s s')
    (hterminal : (s.sender j).state.isTerminal = true) :
    (s'.sender j).state = (s.sender j).state := by
  induction hrun with
  | refl => rfl
  | tail hrun hstep ih =>
    obtain ⟨label, hstep⟩ := hstep
    rw [hstep.terminal_stable (hs.run hrun) (by rw [ih]; exact hterminal), ih]

end Runs

end SglJax.Disaggregation.PullAcks
