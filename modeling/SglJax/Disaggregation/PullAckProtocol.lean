import SglJax.Disaggregation.PullAckSafety

/-! What every run of senders and acknowledgements keeps, and the one moment at which
a transfer that is still TRANSFERRING has lost a pull: inside `fail`. -/
namespace SglJax.Disaggregation.PullAcks

variable {ι : Type} [DecidableEq ι] {T : Transfers ι} {s s' : System ι} {i : ι}

theorem Reachable.inv (h : Reachable T s) : Inv T s := Inv.init.run h

theorem Reachable.step (h : Reachable T s) {label : Option ι} (hstep : Step T label s s') :
    Reachable T s' :=
  h.tail ⟨label, hstep⟩

/-- With nothing awaited and no thread in a section, every pull was released. -/
theorem InvAt.all_released (h : InvAt T s i) (hterminal : (s.sender i).state.isTerminal = true)
    (hfree : (s.sender i).held = .free) (hcalls : s.listener.calls i = false) :
    ∀ sub ∈ (s.history i).registered, s.releases sub = 1 ∧ s.pending sub = false := by
  intro sub hsub
  have hcallback := h.closed hterminal
  have hout : sub ∉ (s.sender i).outstanding
      ((s.callbacks (T.uuid i)).isSome || s.listener.calls i) := by
    rw [hcallback, hcalls]
    simp [JaxTransferKVSender.outstanding, hfree, Held.owes]
  exact (h.custody.returned sub hsub hout).symm

theorem InvAt.released_le_one (h : InvAt T s i) :
    ∀ sub ∈ (s.history i).registered, s.releases sub ≤ 1 := by
  intro sub hsub
  by_cases hout : sub ∈ (s.sender i).outstanding
      ((s.callbacks (T.uuid i)).isSome || s.listener.calls i)
  · rw [(h.custody.kept sub hout).2]
    exact Nat.zero_le 1
  · rw [(h.custody.returned sub hsub hout).2]

/-- A transfer in progress retains its pulls until its callback is taken. -/
theorem InvAt.retained (h : InvAt T s i) (hstate : (s.sender i).state = .transferring)
    (hacked : (s.history i).acked = false)
    (hfail : ∀ reason todo, (s.sender i).held ≠ .failing reason todo) :
    ∀ sub ∈ (s.history i).registered, s.pending sub = true ∧ s.releases sub = 0 := by
  intro sub hsub
  have hplaced := h.placed
  unfold Placed at hplaced
  cases hheld : (s.sender i).held with
  | free =>
    rw [hheld] at hplaced
    obtain ⟨hstatus, hawaited⟩ := hplaced.2 hstate
    apply h.custody.kept
    unfold JaxTransferKVSender.outstanding
    rw [hheld, hawaited, hstatus]
    exact List.mem_append_right _ hsub
  | failing reason todo => exact absurd hheld (hfail reason todo)
  | acking todo =>
    rw [hheld] at hplaced
    rw [hplaced.2.1] at hacked
    cases hacked
  | sending done todo =>
    rw [hheld] at hplaced
    rw [hplaced.1] at hstate
    cases hstate
  | rollback todo =>
    rw [hheld] at hplaced
    rw [hplaced.1] at hstate
    cases hstate
  | retiring outcome =>
    rw [hheld] at hplaced
    have hterminal := hplaced.2.1
    rw [hstate] at hterminal
    cases hterminal
  | recording outcome =>
    rw [hheld] at hplaced
    have hterminal := hplaced.2.1
    rw [hstate] at hterminal
    cases hterminal

theorem InvAt.ackRuns_le_one (h : InvAt T s i) : (s.history i).ackRuns ≤ 1 := by
  have honce := h.once
  omega

/-- The two tables hold nothing of the transfer but `outcome`. -/
def TablesSay (T : Transfers ι) (s : System ι) (i : ι) (outcome : Outcome) : Prop :=
  (∀ entry, (T.uuid i, entry) ∈ s.retired → entry = outcome) ∧
    ∀ record, (T.reqId i, record) ∈ s.records → record = ⟨T.uuid i, outcome⟩

theorem Inv.retired_of (hs : Inv T s) {entry : Outcome} (h : (T.uuid i, entry) ∈ s.retired) :
    entry ∈ (s.history i).retired := by
  obtain ⟨j, hkey, hmem⟩ := hs.retired _ h
  rw [T.uuid_injective hkey]
  exact hmem

theorem Inv.records_of (hs : Inv T s) {record : TerminalTransferRecord}
    (h : (T.reqId i, record) ∈ s.records) :
    record.transferId = T.uuid i ∧ record.outcome ∈ (s.history i).recorded := by
  obtain ⟨j, hkey, hid, hmem⟩ := hs.records _ h
  rw [T.reqId_injective hkey]
  exact ⟨hid, hmem⟩

theorem Inv.agree (hs : Inv T s) (hterminal : (s.sender i).state.isTerminal = true)
    (hfree : (s.sender i).held = .free) :
    ∃ reason, (s.history i).retired = [⟨(s.sender i).state, reason⟩] ∧
      (s.history i).recorded = [⟨(s.sender i).state, reason⟩] ∧
      TablesSay T s i ⟨(s.sender i).state, reason⟩ := by
  have hplaced := (hs.transfers i).placed
  unfold Placed at hplaced
  rw [hfree] at hplaced
  have hlogs := hplaced.1
  unfold History.LogsFor at hlogs
  rw [if_pos hterminal] at hlogs
  obtain ⟨reason, hretired, hrecorded⟩ := hlogs
  refine ⟨reason, hretired, hrecorded, ?_, ?_⟩
  · intro entry hentry
    have hmem := hs.retired_of hentry
    rw [hretired] at hmem
    exact List.mem_singleton.mp hmem
  · intro record hrecord
    obtain ⟨hid, hmem⟩ := hs.records_of hrecord
    rw [hrecorded] at hmem
    have houtcome := List.mem_singleton.mp hmem
    cases record
    dsimp only at hid houtcome
    rw [hid, houtcome]

theorem InvAt.no_logs (h : InvAt T s i) (hopen : (s.sender i).state.isTerminal = false) :
    (s.history i).retired = [] ∧ (s.history i).recorded = [] := by
  have hplaced := h.placed
  unfold Placed History.LogsFor at hplaced
  rw [hopen] at hplaced
  cases hheld : (s.sender i).held <;> rw [hheld] at hplaced <;> simp_all

/-! The listener always gets through the releases it took over. -/

theorem acking_settles (todo : List String) (hlistener : s.listener = .running i)
    (hheld : (s.sender i).held = .acking todo)
    (hterminal : (s.sender i).state.isTerminal = true) :
    ∃ s', Run T s s' ∧ (s'.sender i).held = .free ∧ s'.listener.calls i = false := by
  induction todo generalizing s with
  | nil =>
    have hstate : (s.sender i).state ≠ .transferring := by
      intro heq
      rw [heq] at hterminal
      cases hterminal
    refine ⟨_, .single ⟨_, .ackLate i hlistener hheld hstate⟩, ?_, rfl⟩
    simp [System.setSender]
  | cons sub rest ih =>
    have hstep : Step T (some i) s _ := .ackRelease i hlistener hheld
    obtain ⟨s', hrun, hfree, hcalls⟩ := ih (s := (s.release sub).setSender i
      { s.sender i with held := .acking rest }) hlistener (by simp [System.setSender])
      (by simpa [System.setSender] using hterminal)
    exact ⟨s', hrun.head ⟨_, hstep⟩, hfree, hcalls⟩

theorem settles (hterminal : (s.sender i).state.isTerminal = true)
    (hfree : (s.sender i).held = .free) :
    ∃ s', Run T s s' ∧ (s'.sender i).held = .free ∧ s'.listener.calls i = false := by
  cases hcalls : s.listener.calls i with
  | false => exact ⟨s, .refl, hfree, hcalls⟩
  | true =>
    have hlistener : s.listener = .calling i := by
      unfold Listener.calls at hcalls
      split at hcalls
      · rename_i heq
        rw [heq, of_decide_eq_true hcalls]
      · cases hcalls
    have hstep : Step T (some i) s _ := .ackEnter i hlistener hfree
    obtain ⟨s', hrun, hlast⟩ := acking_settles (T := T) (s := (({ s with listener := .running i
      }.setSender i { s.sender i with held := .acking ((s.sender i).status.getD []) }).setHistory i
      { s.history i with ackRuns := (s.history i).ackRuns + 1 })) ((s.sender i).status.getD []) rfl
      (by simp [System.setSender, System.setHistory])
      (by simpa [System.setSender, System.setHistory] using hterminal)
    exact ⟨s', hrun.head ⟨_, hstep⟩, hlast⟩

/-- The guarantees of the acknowledgement protocol in a state. A sender's state is read
under its lock; inside `fail` the releases come just before the transition. -/
structure AckProtocol (T : Transfers ι) (s : System ι) : Prop where
  /-- A terminal state is never left. -/
  stable : ∀ i s', Run T s s' → (s.sender i).state.isTerminal = true →
    (s'.sender i).state = (s.sender i).state
  /-- State, terminal record and retired record agree: one outcome was written to each
  table, and what the bounded tables still keep is that outcome. -/
  agree : ∀ i, (s.sender i).state.isTerminal = true → (s.sender i).held = .free →
    ∃ reason, (s.history i).retired = [⟨(s.sender i).state, reason⟩] ∧
      (s.history i).recorded = [⟨(s.sender i).state, reason⟩] ∧
      TablesSay T s i ⟨(s.sender i).state, reason⟩
  /-- Before that nothing is written. -/
  quiet : ∀ i, (s.sender i).state.isTerminal = false →
    (s.history i).retired = [] ∧ (s.history i).recorded = []
  ackOnce : ∀ i, (s.history i).ackRuns ≤ 1
  /-- A terminal sender's registrations were released exactly once, as soon as the
  listener is not on its way to `_on_ack` with the callback it took, -/
  released : ∀ i, (s.sender i).state.isTerminal = true → (s.sender i).held = .free →
    s.listener.calls i = false →
    ∀ sub ∈ (s.history i).registered, s.releases sub = 1 ∧ s.pending sub = false
  /-- which it gets through without help. -/
  settles : ∀ i, (s.sender i).state.isTerminal = true → (s.sender i).held = .free →
    ∃ s', Run T s s' ∧ (s'.sender i).held = .free ∧ s'.listener.calls i = false
  notTwice : ∀ i, ∀ sub ∈ (s.history i).registered, s.releases sub ≤ 1
  /-- No release while TRANSFERRING without an acknowledgement, but for the section of
  `fail` itself. -/
  retained : ∀ i, (s.sender i).state = .transferring → (s.history i).acked = false →
    (∀ reason todo, (s.sender i).held ≠ .failing reason todo) →
    ∀ sub ∈ (s.history i).registered, s.pending sub = true ∧ s.releases sub = 0
  /-- A step of one transfer leaves the others alone. -/
  apart : ∀ label s' j, Step T label s s' → label ≠ some j → Unaffected T s s' j

theorem reachable_ackProtocol {ι : Type} [DecidableEq ι] (T : Transfers ι) {s : System ι}
    (h : Reachable T s) : AckProtocol T s where
  stable := fun _ _ hrun hterminal => h.inv.terminal_stable hrun hterminal
  agree := fun _ hterminal hfree => h.inv.agree hterminal hfree
  quiet := fun i hopen => (h.inv.transfers i).no_logs hopen
  ackOnce := fun i => (h.inv.transfers i).ackRuns_le_one
  released := fun i hterminal hfree hcalls =>
    (h.inv.transfers i).all_released hterminal hfree hcalls
  settles := fun _ hterminal hfree => PullAcks.settles hterminal hfree
  notTwice := fun i => (h.inv.transfers i).released_le_one
  retained := fun i hstate hacked hfail => (h.inv.transfers i).retained hstate hacked hfail
  apart := fun _ _ _ hstep hlabel => hstep.unaffected h.inv hlabel

/-! A single transfer with one entry, aborted before any acknowledgement. -/

def lone : Transfers Unit where
  reqId := fun _ => "r"
  uuid := fun _ => "t"
  entries := fun _ => ["kv"]
  reqId_injective := fun _ _ _ => rfl
  uuid_injective := fun _ _ _ => rfl
  entries_nodup := fun _ => List.nodup_singleton _

theorem lone_accepted : lone.accepted () = true := by decide

theorem lone_subUuids : lone.subUuids () = [lone.subUuid () "kv"] := by
  unfold Transfers.subUuids
  rw [if_pos lone_accepted]
  rfl

/-- `send` went through. -/
theorem lone_sends : ∃ s, Reachable lone s ∧ (s.sender ()).held = .free ∧
    (s.sender ()).state = .transferring ∧ (s.sender ()).sent = true ∧
    (s.sender ()).status = some [lone.subUuid () "kv"] ∧ s.callbacks (lone.uuid ()) = some () ∧
    (s.history ()).registered = [lone.subUuid () "kv"] ∧ (s.history ()).acked = false ∧
    s.releases (lone.subUuid () "kv") = 0 := by
  have hinit : Reachable lone (System.init Unit) := .refl
  have hcreate := hinit.step (.create () rfl rfl)
  have hsend := hcreate.step (.send () rfl rfl rfl rfl)
  rw [if_pos lone_accepted, lone_subUuids] at hsend
  have hregister := hsend.step (.registerPull () rfl rfl)
  have hend := hregister.step (.sendEnd () rfl)
  exact ⟨_, hend, rfl, rfl, rfl, rfl, rfl, rfl, rfl, rfl⟩

theorem lone_ackProtocol : ∃ s, Reachable lone s ∧ AckProtocol lone s := by
  obtain ⟨s, hs, -⟩ := lone_sends
  exact ⟨s, hs, reachable_ackProtocol lone hs⟩

/-- `fail` took the callback. -/
theorem lone_fails : ∃ s, Reachable lone s ∧
    (s.sender ()).held = .failing "abort" [lone.subUuid () "kv"] ∧
    (s.sender ()).state = .transferring ∧ (s.history ()).acked = false ∧
    (s.history ()).registered = [lone.subUuid () "kv"] ∧
    s.releases (lone.subUuid () "kv") = 0 := by
  obtain ⟨s, hs, hfree, hstate, hsent, hstatus, hcallback, hreg, hacked, hreleases⟩ := lone_sends
  have hopen : (s.sender ()).state.isTerminal = false := by
    rw [hstate]
    rfl
  refine ⟨_, hs.step (.failEnter () "abort" hsent hfree hopen), ?_, ?_, hacked, hreg, hreleases⟩
  · simp [System.setSender, hcallback, hstatus]
  · simpa [System.setSender] using hstate

/-- `fail` releases before its transition: at that moment the pull of a transfer that is
TRANSFERRING is gone without an acknowledgement. -/
theorem released_while_transferring : ∃ s, Reachable lone s ∧
    (s.sender ()).state = .transferring ∧ (s.history ()).acked = false ∧
    lone.subUuid () "kv" ∈ (s.history ()).registered ∧
    s.pending (lone.subUuid () "kv") = false ∧ s.releases (lone.subUuid () "kv") = 1 := by
  obtain ⟨s, hs, hheld, hstate, hacked, hreg, hreleases⟩ := lone_fails
  refine ⟨_, hs.step (.failRelease () hheld), ?_, hacked, ?_, ?_, ?_⟩
  · simpa [System.setSender] using hstate
  · simp [System.setSender, System.release, hreg]
  · simp [System.setSender, System.release]
  · simp [System.setSender, System.release, hreleases]

end SglJax.Disaggregation.PullAcks
