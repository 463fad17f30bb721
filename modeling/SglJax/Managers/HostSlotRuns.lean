import SglJax.Managers.HostSlotRounds

/-! The slots over whole runs of the prefill server. -/
namespace SglJax.Managers

open MemCache

variable {τ R Λ : Type}

namespace PrefillServer

def IsChunk (s : PrefillServer R) (uid : Nat) : Prop :=
  ∃ rank q, s.chunkedReqs rank = some q ∧ q.uid = uid

/-- Under way outside of a batch. -/
def Live (s : PrefillServer R) (uid : Nat) : Prop := s.IsChunk uid ∨ uid ∈ s.transferring

/-- Each slot that is not free is recorded on one request, which is under way, and each
request in the batch or the queue has one. -/
structure SlotsFollow (intake : Intake) (s : PrefillServer R) : Prop where
  ledger : SlotLedger none s.slots
  waiting_nodup : (s.waitingQueue.map (·.uid)).Nodup
  waiting_rank : ∀ req ∈ s.waitingQueue, req.dpRank = intake.dpRank req.uid ∧
    req.dpRank < s.dpSize
  waiting_apart : ∀ req ∈ s.waitingQueue, req.uid ∉ s.batch ∧ ¬ s.Live req.uid
  chunked : ∀ rank q, s.chunkedReqs rank = some q → q.dpRank = rank ∧ rank < s.dpSize ∧
    q.dpRank = intake.dpRank q.uid ∧ q.uid ∉ s.transferring
  batch_nodup : s.batch.Nodup
  batch_apart : ∀ uid ∈ s.batch, uid ∉ s.transferring
  waiting_old : ∀ req ∈ s.waitingQueue, req.uid < s.received
  old : ∀ uid, uid ∈ s.batch ∨ s.Live uid → uid < s.received
  holder : ∀ uid, s.slots.bufferId uid ≠ none → uid ∈ s.batch ∨ s.Live uid
  transfers : ∀ uid ∈ s.transferring, s.slots.bufferId uid ≠ none
  holds : ∀ uid, uid ∈ s.batch ∨ s.IsChunk uid → (intake.bootstrapRoom uid).isSome →
    s.slots.bufferId uid ≠ none
  staged : ∀ uid, s.slots.bufferId uid ≠ none → (intake.bootstrapRoom uid).isSome
  never_full : s.hostPoolFull = []

namespace SlotsFollow

variable {intake : Intake} {s s' : PrefillServer R} {cache : AdmissionCache τ R Λ} {uid : Nat}
  {rest : List Nat}

theorem init (dpSize poolSize : Nat) : SlotsFollow intake (.init R dpSize poolSize) where
  ledger := SlotLedger.init poolSize
  waiting_nodup := List.nodup_nil
  waiting_rank := by simp [PrefillServer.init]
  waiting_apart := by simp [PrefillServer.init]
  chunked := by simp [PrefillServer.init]
  batch_nodup := List.nodup_nil
  batch_apart := by simp [PrefillServer.init]
  waiting_old := by simp [PrefillServer.init]
  old := by simp [PrefillServer.init, Live, IsChunk]
  holder := by simp [PrefillServer.init, HostSlots.init]
  transfers := by simp [PrefillServer.init]
  holds := by simp [PrefillServer.init, IsChunk]
  staged := by simp [PrefillServer.init, HostSlots.init]
  never_full := rfl

/-- A request enters the waiting queue that is nowhere else. -/
theorem enqueue (h : SlotsFollow intake s) {req : WaitingReq R} {received : Nat}
    (hrank : req.dpRank = intake.dpRank req.uid ∧ req.dpRank < s.dpSize)
    (hwaiting : req.uid ∉ s.waitingQueue.map (·.uid)) (hbatch : req.uid ∉ s.batch)
    (hlive : ¬ s.Live req.uid) (hlt : req.uid < received) (hle : s.received ≤ received) :
    SlotsFollow intake
      { s with waitingQueue := s.waitingQueue ++ [req], received := received } where
  ledger := h.ledger
  waiting_nodup := by
    rw [List.map_append, List.map_singleton]
    apply List.Nodup.append h.waiting_nodup (List.nodup_singleton _)
    intro uid hmem hreq
    rw [List.mem_singleton.mp hreq] at hmem
    exact hwaiting hmem
  waiting_rank := by
    intro x hx
    rcases List.mem_append.mp hx with hx | hx
    · exact h.waiting_rank x hx
    · rw [List.mem_singleton.mp hx]
      exact hrank
  waiting_apart := by
    intro x hx
    rcases List.mem_append.mp hx with hx | hx
    · exact h.waiting_apart x hx
    · rw [List.mem_singleton.mp hx]
      exact ⟨hbatch, hlive⟩
  chunked := h.chunked
  batch_nodup := h.batch_nodup
  batch_apart := h.batch_apart
  waiting_old := by
    intro x hx
    rcases List.mem_append.mp hx with hx | hx
    · exact (h.waiting_old x hx).trans_le hle
    · rw [List.mem_singleton.mp hx]
      exact hlt
  old := fun uid huid => (h.old uid huid).trans_le hle
  holder := h.holder
  transfers := h.transfers
  holds := h.holds
  staged := h.staged
  never_full := h.never_full

theorem dequeue (h : SlotsFollow intake s) (keep : WaitingReq R → Bool) :
    SlotsFollow intake { s with waitingQueue := s.waitingQueue.filter keep } where
  ledger := h.ledger
  waiting_nodup := (List.filter_sublist.map _).nodup h.waiting_nodup
  waiting_rank := fun x hx => h.waiting_rank x (List.mem_of_mem_filter hx)
  waiting_apart := fun x hx => h.waiting_apart x (List.mem_of_mem_filter hx)
  chunked := h.chunked
  batch_nodup := h.batch_nodup
  batch_apart := h.batch_apart
  waiting_old := fun x hx => h.waiting_old x (List.mem_of_mem_filter hx)
  old := h.old
  holder := h.holder
  transfers := h.transfers
  holds := h.holds
  staged := h.staged
  never_full := h.never_full

/-- A request ends: it leaves wherever it was, and its slot is released. -/
theorem finish (h : SlotsFollow intake s) (uid : Nat) {batch transferring : List Nat}
    {chunkedReqs : Nat → Option (WaitingReq R)} (hbatch : batch.Sublist s.batch)
    (huidbatch : uid ∉ batch)
    (htransfer : ∀ x, x ∈ transferring ↔ x ∈ s.transferring ∧ x ≠ uid)
    (hchunked : ∀ rank q, chunkedReqs rank = some q ↔
      s.chunkedReqs rank = some q ∧ q.uid ≠ uid)
    (hleft : ∀ x ∈ s.batch, x ≠ uid → x ∈ batch) :
    SlotsFollow intake
      { s with
        batch := batch
        transferring := transferring
        chunkedReqs := chunkedReqs
        slots := s.slots.releasePrefillHostBuffer uid } := by
  obtain ⟨hledger, hbuffer⟩ := h.ledger.releasePrefillHostBuffer uid
  have hsome : ∀ x, (s.slots.releasePrefillHostBuffer uid).bufferId x ≠ none ↔
      s.slots.bufferId x ≠ none ∧ x ≠ uid := by
    intro x
    rw [hbuffer]
    by_cases heq : x = uid
    · subst heq
      simp
    · simp [heq]
  have hchunk : ∀ x, (∃ rank q, chunkedReqs rank = some q ∧ q.uid = x) ↔
      s.IsChunk x ∧ x ≠ uid := by
    intro x
    constructor
    · rintro ⟨rank, q, hq, rfl⟩
      obtain ⟨hq, hne⟩ := (hchunked rank q).mp hq
      exact ⟨⟨rank, q, hq, rfl⟩, hne⟩
    · rintro ⟨⟨rank, q, hq, rfl⟩, hne⟩
      exact ⟨rank, q, (hchunked rank q).mpr ⟨hq, hne⟩, rfl⟩
  have hlive : ∀ x, PrefillServer.Live { s with
      batch := batch
      transferring := transferring
      chunkedReqs := chunkedReqs
      slots := s.slots.releasePrefillHostBuffer uid } x ↔ s.Live x ∧ x ≠ uid := by
    intro x
    change (∃ rank q, chunkedReqs rank = some q ∧ q.uid = x) ∨ x ∈ transferring ↔ _
    rw [hchunk, htransfer]
    unfold Live
    tauto
  constructor
  · exact hledger
  · exact h.waiting_nodup
  · exact h.waiting_rank
  · intro req hreq
    obtain ⟨hb, hl⟩ := h.waiting_apart req hreq
    rw [hlive]
    exact ⟨fun hmem => hb (hbatch.subset hmem), fun hmem => hl hmem.1⟩
  · intro rank q hq
    obtain ⟨hq, hne⟩ := (hchunked rank q).mp hq
    obtain ⟨h₁, h₂, h₃, h₄⟩ := h.chunked rank q hq
    exact ⟨h₁, h₂, h₃, fun hmem => h₄ ((htransfer _).mp hmem).1⟩
  · exact hbatch.nodup h.batch_nodup
  · intro x hx hmem
    exact h.batch_apart x (hbatch.subset hx) ((htransfer x).mp hmem).1
  · exact h.waiting_old
  · intro x hx
    rw [hlive] at hx
    apply h.old
    rcases hx with hx | hx
    · exact Or.inl (hbatch.subset hx)
    · exact Or.inr hx.1
  · intro x hx
    rw [hlive]
    obtain ⟨hx, hne⟩ := (hsome x).mp hx
    rcases h.holder x hx with hb | hl
    · exact Or.inl (hleft x hb hne)
    · exact Or.inr ⟨hl, hne⟩
  · intro x hx
    obtain ⟨hx, hne⟩ := (htransfer x).mp hx
    exact (hsome x).mpr ⟨h.transfers x hx, hne⟩
  · intro x hx hroom
    have hne : x ≠ uid := by
      rcases hx with hx | hx
      · intro heq
        exact huidbatch (heq ▸ hx)
      · exact ((hchunk x).mp hx).2
    refine (hsome x).mpr ⟨?_, hne⟩
    apply h.holds x _ hroom
    rcases hx with hx | hx
    · exact Or.inl (hbatch.subset hx)
    · exact Or.inr ((hchunk x).mp hx).1
  · intro x hx
    exact h.staged x ((hsome x).mp hx).1
  · exact h.never_full

/-- The forward of the batch returned for one request after the other. -/
theorem handoff (h : SlotsFollow intake { s with batch := uid :: rest })
    (startOk : Nat → Bool) :
    SlotsFollow intake { PrefillServer.handoff intake startOk s uid with batch := rest } := by
  obtain ⟨huidrest, hrest⟩ := List.nodup_cons.mp h.batch_nodup
  -- leaving the batch with its slot elsewhere or without one
  have hdrop : (s.slots.bufferId uid = none ∨ s.Live uid) →
      SlotsFollow intake { s with batch := rest } := by
    intro hplace
    exact
      { ledger := h.ledger
        waiting_nodup := h.waiting_nodup
        waiting_rank := h.waiting_rank
        waiting_apart := fun req hreq =>
          ⟨fun hmem => (h.waiting_apart req hreq).1 (List.mem_cons_of_mem _ hmem),
            (h.waiting_apart req hreq).2⟩
        chunked := h.chunked
        batch_nodup := hrest
        batch_apart := fun x hx => h.batch_apart x (List.mem_cons_of_mem _ hx)
        waiting_old := h.waiting_old
        old := fun x hx => h.old x (hx.imp (List.mem_cons_of_mem _) id)
        holder := by
          intro x hx
          rcases h.holder x hx with hb | hl
          · rcases List.mem_cons.mp hb with heq | hb
            · subst heq
              exact Or.inr (hplace.resolve_left hx)
            · exact Or.inl hb
          · exact Or.inr hl
        transfers := h.transfers
        holds := fun x hx => h.holds x (hx.imp (List.mem_cons_of_mem _) id)
        staged := h.staged
        never_full := h.never_full }
  unfold PrefillServer.handoff
  split
  · rename_i hroom
    apply hdrop
    left
    by_contra hsome
    have hstaged := h.staged uid hsome
    rw [Option.isNone_iff_eq_none] at hroom
    rw [hroom] at hstaged
    cases hstaged
  · rename_i hroom
    split
    · rename_i hmid
      apply hdrop
      right
      unfold isMidChunk at hmid
      rw [List.any_eq_true] at hmid
      obtain ⟨rank, -, hany⟩ := hmid
      rw [Option.any_eq_true] at hany
      obtain ⟨q, hq, huid⟩ := hany
      exact Or.inl ⟨rank, q, hq, by simpa using huid⟩
    · rename_i hmid
      have hchunk : ∀ rank q, s.chunkedReqs rank = some q → q.uid ≠ uid := by
        intro rank q hq heq
        apply hmid
        unfold isMidChunk
        rw [List.any_eq_true]
        refine ⟨rank, List.mem_range.mpr (h.chunked rank q hq).2.1, ?_⟩
        rw [hq]
        simpa using heq
      split
      · rename_i hmem
        exact absurd hmem (h.batch_apart uid List.mem_cons_self)
      · rename_i hnot
        have hholds := h.holds uid (Or.inl List.mem_cons_self)
          (by rw [Option.isNone_iff_eq_none] at hroom; exact Option.ne_none_iff_isSome.mp hroom)
        have hreserve : s.slots.reservePrefillBuffer uid = some s.slots := by
          unfold HostSlots.reservePrefillBuffer
          rw [if_pos (Option.ne_none_iff_isSome.mp hholds)]
        rw [hreserve]
        dsimp only
        split
        · exact
            { ledger := h.ledger
              waiting_nodup := h.waiting_nodup
              waiting_rank := h.waiting_rank
              waiting_apart := by
                intro req hreq
                obtain ⟨hb, hl⟩ := h.waiting_apart req hreq
                refine ⟨fun hmem => hb (List.mem_cons_of_mem _ hmem), ?_⟩
                rintro (hc | ht)
                · exact hl (Or.inl hc)
                · rcases List.mem_append.mp ht with ht | ht
                  · exact hl (Or.inr ht)
                  · rw [List.mem_singleton.mp ht] at hb
                    exact hb List.mem_cons_self
              chunked := by
                intro rank q hq
                obtain ⟨h₁, h₂, h₃, h₄⟩ := h.chunked rank q hq
                refine ⟨h₁, h₂, h₃, ?_⟩
                intro ht
                rcases List.mem_append.mp ht with ht | ht
                · exact h₄ ht
                · exact hchunk rank q hq (List.mem_singleton.mp ht)
              batch_nodup := hrest
              batch_apart := by
                intro x hx ht
                rcases List.mem_append.mp ht with ht | ht
                · exact h.batch_apart x (List.mem_cons_of_mem _ hx) ht
                · rw [List.mem_singleton.mp ht] at hx
                  exact huidrest hx
              waiting_old := h.waiting_old
              old := by
                rintro x (hx | hc | ht)
                · exact h.old x (Or.inl (List.mem_cons_of_mem _ hx))
                · exact h.old x (Or.inr (Or.inl hc))
                · rcases List.mem_append.mp ht with ht | ht
                  · exact h.old x (Or.inr (Or.inr ht))
                  · rw [List.mem_singleton.mp ht]
                    exact h.old uid (Or.inl List.mem_cons_self)
              holder := by
                intro x hx
                rcases h.holder x hx with hb | hc | ht
                · rcases List.mem_cons.mp hb with heq | hb
                  · subst heq
                    exact Or.inr (Or.inr (List.mem_append_right _ (List.mem_singleton_self x)))
                  · exact Or.inl hb
                · exact Or.inr (Or.inl hc)
                · exact Or.inr (Or.inr (List.mem_append_left _ ht))
              transfers := by
                intro x ht
                rcases List.mem_append.mp ht with ht | ht
                · exact h.transfers x ht
                · rw [List.mem_singleton.mp ht]
                  exact hholds
              holds := fun x hx => h.holds x (hx.imp (List.mem_cons_of_mem _) id)
              staged := h.staged
              never_full := h.never_full }
        · exact h.finish uid (List.sublist_cons_self uid rest) huidrest
            (fun x => ⟨fun hx => ⟨hx, fun heq => hnot (heq ▸ hx)⟩, fun hx => hx.1⟩)
            (fun rank q => ⟨fun hq => ⟨hq, hchunk rank q hq⟩, fun hq => hq.1⟩)
            (fun x hx hne => (List.mem_cons.mp hx).resolve_left hne)

theorem forward (h : SlotsFollow intake s) (startOk : Nat → Bool) :
    SlotsFollow intake
      { s.batch.foldl (PrefillServer.handoff intake startOk) s with batch := [] } := by
  have hall : ∀ (todo : List Nat) (t : PrefillServer R), SlotsFollow intake { t with batch := todo } →
      SlotsFollow intake { todo.foldl (PrefillServer.handoff intake startOk) t with batch := [] } := by
    intro todo
    induction todo with
    | nil => exact fun t ht => ht
    | cons uid rest ih =>
      intro t ht
      rw [List.foldl_cons]
      exact ih _ (ht.handoff startOk)
  exact hall s.batch s h

/-! ### A round -/

/-- The round as the loop over the waiting queue finds it. -/
def loopContext (s : PrefillServer R) (intake : Intake) (queue : List (WaitingReq R))
    (adder : PrefillAdder τ R) (chunkedReqs : Nat → Option (WaitingReq R)) : LoopContext R where
  intake := intake
  dpSize := s.dpSize
  chunkedReqs := chunkedReqs
  live := s.Live
  known := fun uid => s.IsChunk uid ∨ uid ∈ queue.map (·.uid)
  running := fun uid => uid ∈ adder.canRunUids
  holding := fun uid => s.slots.bufferId uid ≠ none

/-- What a permuted queue keeps. -/
theorem queue_mem {queue : List (WaitingReq R)}
    (hqueue : (queue.map fun req => (req.uid, req.dpRank)).Perm
      (s.waitingQueue.map fun req => (req.uid, req.dpRank))) {req : WaitingReq R}
    (hreq : req ∈ queue) :
    ∃ req' ∈ s.waitingQueue, req'.uid = req.uid ∧ req'.dpRank = req.dpRank := by
  have hmem := hqueue.subset (List.mem_map_of_mem hreq)
  obtain ⟨req', hreq', heq⟩ := List.mem_map.mp hmem
  exact ⟨req', hreq', congrArg Prod.fst heq, congrArg Prod.snd heq⟩

theorem queue_nodup (h : SlotsFollow intake s) {queue : List (WaitingReq R)}
    (hqueue : (queue.map fun req => (req.uid, req.dpRank)).Perm
      (s.waitingQueue.map fun req => (req.uid, req.dpRank))) :
    (queue.map (·.uid)).Nodup := by
  have huids := hqueue.map Prod.fst
  rw [List.map_map, List.map_map] at huids
  exact huids.nodup_iff.mpr h.waiting_nodup

theorem canRunUids_nothing {round : PrefillRound τ R} : round.adder.canRunUids = [] := by
  unfold PrefillAdder.canRunUids
  rw [round.nothingAdded.1]
  simp

/-- What the loop over the waiting queue starts from. -/
theorem loopInv (h : SlotsFollow intake s) (hbatch : s.batch = []) {round : PrefillRound τ R}
    (hdp : round.adder.dpSize = s.dpSize) {queue : List (WaitingReq R)}
    (hqueue : (queue.map fun req => (req.uid, req.dpRank)).Perm
      (s.waitingQueue.map fun req => (req.uid, req.dpRank)))
    {adder : PrefillAdder τ R} {chunkedReqs : Nat → Option (WaitingReq R)}
    (hchunks : round.addChunkedReqs cache (List.range s.dpSize) (round.adder, s.chunkedReqs) =
      some (adder, chunkedReqs)) :
    PrefillRound.Continues (round.adder, s.chunkedReqs) (adder, chunkedReqs) ∧
      LoopInv (loopContext s intake queue adder chunkedReqs) queue (s.admitStart round adder) := by
  have hcont : PrefillRound.Continues (round.adder, s.chunkedReqs) (adder, chunkedReqs) := by
    apply PrefillRound.addChunkedReqs_continues _ hchunks
    intro rank q hq
    obtain ⟨hrank, hlt, -⟩ := h.chunked rank q hq
    dsimp only
    rw [hrank, hdp]
    exact hlt
  have hrun : ∀ uid ∈ adder.canRunUids, s.IsChunk uid := by
    intro uid huid
    rcases hcont.added uid huid with hmem | hchunk
    · dsimp only at hmem
      rw [canRunUids_nothing] at hmem
      cases hmem
    · exact hchunk
  refine ⟨hcont, ?_⟩
  constructor
  · exact h.ledger
  · exact hcont.dpSize.trans hdp
  · exact h.queue_nodup hqueue
  · intro req hreq
    obtain ⟨req', hreq', huid, hrank⟩ := queue_mem hqueue hreq
    rw [← huid, ← hrank]
    exact h.waiting_rank req' hreq'
  · intro req hreq
    obtain ⟨req', hreq', huid, -⟩ := queue_mem hqueue hreq
    have hlive : ¬ s.Live req.uid := by
      rw [← huid]
      exact (h.waiting_apart req' hreq').2
    exact ⟨hlive, fun hmem => hlive (Or.inl (hrun _ hmem)),
      Or.inr (List.mem_map_of_mem hreq)⟩
  · apply PrefillRound.addChunkedReqs_nodup intake.dpRank _ List.nodup_range _ _ hchunks
    · intro rank q hq
      obtain ⟨hrank, hlt, hintake, -⟩ := h.chunked rank q hq
      dsimp only
      rw [← hintake, hrank, hdp]
      exact ⟨hlt, rfl⟩
    · dsimp only
      rw [canRunUids_nothing]
      simp
    · dsimp only
      rw [canRunUids_nothing]
      exact List.nodup_nil
  · exact fun uid huid => Or.inl (hrun uid huid)
  · exact fun uid huid => huid
  · intro uid hsome
    rcases h.holder uid hsome with hb | hl
    · rw [hbatch] at hb
      cases hb
    · exact Or.inr hl
  · exact fun uid huid => h.holds uid (Or.inr (hrun uid huid))
  · exact fun uid huid => huid
  · exact h.staged
  · intro rank q hq
    have hnone : adder.newChunkedReqs = fun _ => none :=
      hcont.newChunkedReqs.trans round.nothingAdded.2
    change adder.newChunkedReqs rank = some q at hq
    rw [hnone] at hq
    cases hq

theorem round (h : SlotsFollow intake s) (hbatch : s.batch = []) {round : PrefillRound τ R}
    (hdp : round.adder.dpSize = s.dpSize) {queue : List (WaitingReq R)}
    (hqueue : (queue.map fun req => (req.uid, req.dpRank)).Perm
      (s.waitingQueue.map fun req => (req.uid, req.dpRank)))
    (hlasts : s.RoundLasts cache intake round queue)
    (hround : s.getNewBatchPrefill cache intake round queue = some s') :
    SlotsFollow intake s' := by
  unfold getNewBatchPrefill at hround
  split at hround
  · cases hround
  rename_i adder chunkedReqs hchunks
  cases hround
  obtain ⟨hcont, hstart⟩ := h.loopInv hbatch hdp hqueue hchunks
  have hspec : LoopInv (loopContext s intake queue adder chunkedReqs) []
        (round.admitLoop cache intake.bootstrapRoom chunkedReqs queue
          (s.admitStart round adder)).2 ∧
      (round.admitLoop cache intake.bootstrapRoom chunkedReqs queue
        (s.admitStart round adder)).1.map (fun req => (req.uid, req.dpRank)) =
        queue.map fun req => (req.uid, req.dpRank) :=
    PrefillRound.admitLoop_spec hstart (hlasts adder chunkedReqs hchunks)
  generalize round.admitLoop cache intake.bootstrapRoom chunkedReqs queue
    (s.admitStart round adder) = l at hspec ⊢
  obtain ⟨left, st⟩ := l
  obtain ⟨hloop, hkeys⟩ := hspec
  dsimp only at hloop hkeys ⊢
  have hleft : (left.map fun req => (req.uid, req.dpRank)).Perm
      (s.waitingQueue.map fun req => (req.uid, req.dpRank)) := by
    rw [hkeys]
    exact hqueue
  -- a chunk of the new table was one, or is in the batch
  have hchunk : ∀ rank q, (st.adder.newChunkedReqs rank).or (chunkedReqs rank) = some q →
      (q.dpRank = rank ∧ rank < s.dpSize ∧ q.dpRank = intake.dpRank q.uid) ∧
        ((q.uid ∈ st.adder.canRunUids ∧ ¬ s.Live q.uid) ∨ s.IsChunk q.uid) := by
    intro rank q hq
    cases hnew : st.adder.newChunkedReqs rank with
    | some q' =>
      rw [hnew] at hq
      cases hq
      obtain ⟨h₁, h₂, h₃, h₄, h₅, -⟩ := hloop.chunked rank q hnew
      exact ⟨⟨h₁, h₂, h₃⟩, Or.inl ⟨h₄, h₅⟩⟩
    | none =>
      rw [hnew, Option.none_or] at hq
      obtain ⟨q', hq', huid, hrank⟩ := hcont.chunked rank q hq
      obtain ⟨h₁, h₂, h₃, -⟩ := h.chunked rank q' hq'
      rw [hrank, huid]
      exact ⟨⟨h₁, h₂, h₃⟩, Or.inr ⟨rank, q', hq', rfl⟩⟩
  have hstays : ∀ uid, s.Live uid → uid ∈ st.adder.canRunUids ∨
      (∃ rank q, (st.adder.newChunkedReqs rank).or (chunkedReqs rank) = some q ∧ q.uid = uid) ∨
        uid ∈ s.transferring := by
    rintro uid (⟨rank, q, hq, rfl⟩ | ht)
    · rcases hcont.kept rank q hq with hmem | ⟨q', hq', huid⟩
      · exact Or.inl (hloop.run_grows _ hmem)
      · right
        left
        refine ⟨rank, q', ?_, huid⟩
        cases hnew : st.adder.newChunkedReqs rank with
        | none => rw [Option.none_or]; exact hq'
        | some x =>
          have hnone := (hloop.chunked rank x hnew).2.2.2.2.2
          change chunkedReqs rank = none at hnone
          dsimp only at hq'
          rw [hnone] at hq'
          cases hq'
    · exact Or.inr (Or.inr ht)
  have hqueued : ∀ uid ∈ queue.map (·.uid), ∃ req ∈ s.waitingQueue, req.uid = uid := by
    intro uid huid
    obtain ⟨req, hreq, rfl⟩ := List.mem_map.mp huid
    obtain ⟨req', hreq', huid, -⟩ := queue_mem hqueue hreq
    exact ⟨req', hreq', huid⟩
  constructor
  · exact hloop.ledger
  · exact (List.filter_sublist.map _).nodup (h.queue_nodup hleft)
  · intro req hreq
    obtain ⟨req', hreq', huid, hrank⟩ := queue_mem hleft (List.mem_of_mem_filter hreq)
    rw [← huid, ← hrank]
    exact h.waiting_rank req' hreq'
  · intro req hreq
    obtain ⟨hmem, hnot⟩ := List.mem_filter.mp hreq
    obtain ⟨req', hreq', huid, -⟩ := queue_mem hleft hmem
    have hrun : req.uid ∉ st.adder.canRunUids := by simpa using hnot
    have hlive := (h.waiting_apart req' hreq').2
    rw [huid] at hlive
    refine ⟨hrun, ?_⟩
    rintro (⟨rank, q, hq, hquid⟩ | ht)
    · rcases (hchunk rank q hq).2 with ⟨hin, -⟩ | hold
      · exact hrun (hquid ▸ hin)
      · exact hlive (Or.inl (hquid ▸ hold))
    · exact hlive (Or.inr ht)
  · intro rank q hq
    obtain ⟨⟨h₁, h₂, h₃⟩, hplace⟩ := hchunk rank q hq
    refine ⟨h₁, h₂, h₃, ?_⟩
    intro ht
    rcases hplace with ⟨-, hlive⟩ | ⟨rank', q', hq', huid⟩
    · exact hlive (Or.inr ht)
    · exact (h.chunked rank' q' hq').2.2.2 (huid ▸ ht)
  · exact hloop.run_nodup
  · intro uid huid ht
    rcases hloop.run_known uid huid with ⟨rank, q, hq, rfl⟩ | hmem
    · exact (h.chunked rank q hq).2.2.2 ht
    · obtain ⟨req, hreq, rfl⟩ := hqueued uid hmem
      exact (h.waiting_apart req hreq).2 (Or.inr ht)
  · intro req hreq
    obtain ⟨req', hreq', huid, -⟩ := queue_mem hleft (List.mem_of_mem_filter hreq)
    rw [← huid]
    exact h.waiting_old req' hreq'
  · have hrunold : ∀ uid ∈ st.adder.canRunUids, uid < s.received := by
      intro uid huid
      rcases hloop.run_known uid huid with hc | hmem
      · exact h.old uid (Or.inr (Or.inl hc))
      · obtain ⟨req, hreq, rfl⟩ := hqueued uid hmem
        exact h.waiting_old req hreq
    rintro uid (hrun | ⟨rank, q, hq, rfl⟩ | ht)
    · exact hrunold uid hrun
    · rcases (hchunk rank q hq).2 with ⟨hin, -⟩ | hold
      · exact hrunold _ hin
      · exact h.old _ (Or.inr (Or.inl hold))
    · exact h.old uid (Or.inr (Or.inr ht))
  · intro uid hsome
    rcases hloop.holder uid hsome with hrun | hlive
    · exact Or.inl hrun
    · exact hstays uid hlive
  · intro uid ht
    exact hloop.keeps uid (h.transfers uid ht)
  · rintro uid (hrun | ⟨rank, q, hq, rfl⟩) hroom
    · exact hloop.holds uid hrun hroom
    · rcases (hchunk rank q hq).2 with ⟨hin, -⟩ | hold
      · exact hloop.holds _ hin hroom
      · exact hloop.keeps _ (h.holds _ (Or.inr hold) hroom)
  · exact hloop.staged
  · exact h.never_full

end SlotsFollow

/-! ### Runs -/

namespace SlotsFollow

variable {intake : Intake} {s s' : PrefillServer R} {cache : AdmissionCache τ R Λ} {uid : Nat}

theorem terminal (h : SlotsFollow intake s) (huid : uid ∈ s.transferring) :
    SlotsFollow intake
      { s with
        transferring := s.transferring.filter (· ≠ uid)
        slots := s.slots.releasePrefillHostBuffer uid } := by
  have hbatch : uid ∉ s.batch := fun hmem => h.batch_apart uid hmem huid
  apply h.finish uid (List.Sublist.refl s.batch) hbatch
  · intro x
    simp
  · intro rank q
    constructor
    · intro hq
      refine ⟨hq, ?_⟩
      intro heq
      exact (h.chunked rank q hq).2.2.2 (heq ▸ huid)
    · exact fun hq => hq.1
  · exact fun x hx _ => hx

theorem abortChunked (h : SlotsFollow intake s) {rank : Nat} {req : WaitingReq R}
    (hbatch : s.batch = []) (hreq : s.chunkedReqs rank = some req) :
    SlotsFollow intake
      { s with
        chunkedReqs := Function.update s.chunkedReqs rank none
        slots := s.slots.releasePrefillHostBuffer req.uid } := by
  obtain ⟨hrank, -, hintake, hapart⟩ := h.chunked rank req hreq
  apply h.finish req.uid (List.Sublist.refl s.batch)
  · rw [hbatch]
    exact List.not_mem_nil
  · intro x
    constructor
    · intro hx
      exact ⟨hx, fun heq => hapart (heq ▸ hx)⟩
    · exact fun hx => hx.1
  · intro rank' q
    by_cases heq : rank' = rank
    · subst heq
      rw [Function.update_self, hreq]
      constructor
      · intro hq
        cases hq
      · rintro ⟨hq, hne⟩
        cases hq
        exact absurd rfl hne
    · rw [Function.update_of_ne heq]
      constructor
      · intro hq
        refine ⟨hq, ?_⟩
        -- a request is a chunk of the rank it was given only
        intro huid
        obtain ⟨hqrank, -, hqintake, -⟩ := h.chunked rank' q hq
        apply heq
        rw [← hqrank, hqintake, huid, ← hintake, hrank]
      · exact fun hq => hq.1
  · exact fun x hx _ => hx

theorem retractChunked (h : SlotsFollow intake s) {rank : Nat} {req req' : WaitingReq R}
    (hbatch : s.batch = []) (hreq : s.chunkedReqs rank = some req) (huid : req'.uid = req.uid)
    (hrank : req'.dpRank = req.dpRank) :
    SlotsFollow intake
      { s with
        chunkedReqs := Function.update s.chunkedReqs rank none
        slots := s.slots.releasePrefillHostBuffer req.uid
        waitingQueue := s.waitingQueue ++ [req'] } := by
  obtain ⟨hreqrank, hlt, hintake, hapart⟩ := h.chunked rank req hreq
  have hlive : s.Live req.uid := Or.inl ⟨rank, req, hreq, rfl⟩
  apply (h.abortChunked hbatch hreq).enqueue
  · rw [huid, hrank]
    exact ⟨hintake, hreqrank ▸ hlt⟩
  · rw [huid]
    intro hmem
    obtain ⟨x, hx, hxuid⟩ := List.mem_map.mp hmem
    exact (h.waiting_apart x hx).2 (hxuid ▸ hlive)
  · change req'.uid ∉ s.batch
    rw [hbatch]
    exact List.not_mem_nil
  · rw [huid]
    rintro (⟨rank', q, hq, hquid⟩ | ht)
    · dsimp only at hq
      by_cases heq : rank' = rank
      · subst heq
        rw [Function.update_self] at hq
        cases hq
      · rw [Function.update_of_ne heq] at hq
        obtain ⟨hqrank, -, hqintake, -⟩ := h.chunked rank' q hq
        apply heq
        rw [← hqrank, hqintake, hquid, ← hintake, hreqrank]
    · exact hapart ht
  · rw [huid]
    exact h.old req.uid (Or.inr hlive)
  · exact Nat.le_refl _

theorem receive (h : SlotsFollow intake s) {req : WaitingReq R} (huid : req.uid = s.received)
    (hrank : req.dpRank = intake.dpRank req.uid) (hlt : req.dpRank < s.dpSize) :
    SlotsFollow intake
      { s with waitingQueue := s.waitingQueue ++ [req], received := s.received + 1 } := by
  have hfresh : ∀ x, x ∈ s.batch ∨ s.Live x → x ≠ req.uid := by
    intro x hx heq
    have hold := h.old x hx
    omega
  apply h.enqueue ⟨hrank, hlt⟩
  · intro hmem
    obtain ⟨x, hx, hxuid⟩ := List.mem_map.mp hmem
    have hold := h.waiting_old x hx
    omega
  · exact fun hmem => hfresh _ (Or.inl hmem) rfl
  · exact fun hlive => hfresh _ (Or.inr hlive) rfl
  · omega
  · omega

theorem step (h : SlotsFollow intake s)
    (hstep : Step cache intake (RoundLasts cache intake) s s') : SlotsFollow intake s' := by
  cases hstep with
  | receive req huid hrank hlt => exact h.receive huid hrank hlt
  | round round queue hbatch hdp hqueue hok hround => exact h.round hbatch hdp hqueue hok hround
  | forward startOk => exact h.forward startOk
  | terminal uid huid => exact h.terminal huid
  | abortWaiting keep => exact h.dequeue keep
  | abortChunked rank hbatch hreq => exact h.abortChunked hbatch hreq
  | retractChunked rank hbatch hreq huid hrank => exact h.retractChunked hbatch hreq huid hrank

theorem run {dpSize poolSize : Nat}
    (hrun : Reaches cache intake (RoundLasts cache intake) dpSize poolSize s) :
    SlotsFollow intake s := by
  induction hrun with
  | refl => exact .init dpSize poolSize
  | tail _ hstep ih => exact ih.step hstep

end SlotsFollow

/-- Host staging slots follow admission. -/
structure HostSlotsFollow (intake : Intake) (s : PrefillServer R) : Prop where
  /-- Each request that was put in `can_run_list` has a slot of its own. -/
  admitted : ∀ uid ∈ s.batch, (intake.bootstrapRoom uid).isSome →
    ∃ b < s.slots.pool.poolSize, s.slots.bufferId uid = some b ∧ b ∉ s.slots.pool.freeIds
  /-- Each slot that is not free is recorded on one request, and that one is live. -/
  recorded : ∀ b < s.slots.pool.poolSize, b ∉ s.slots.pool.freeIds →
    ∃! uid, s.slots.bufferId uid = some b ∧ (uid ∈ s.batch ∨ s.Live uid)
  /-- A slot that is free was released as often as it was reserved, and one that is not
  once less. -/
  releasedOnce : ∀ b < s.slots.pool.poolSize, s.slots.reserved b =
    s.slots.released b + if b ∈ s.slots.pool.freeIds then 0 else 1
  noReleaseFails : s.slots.errors = []
  neverFull : s.hostPoolFull = []

theorem SlotsFollow.hostSlotsFollow {intake : Intake} {s : PrefillServer R}
    (h : SlotsFollow intake s) : HostSlotsFollow intake s where
  admitted := by
    intro uid huid hroom
    have hsome := h.holds uid (Or.inl huid) hroom
    obtain ⟨b, hb⟩ := Option.ne_none_iff_exists'.mp hsome
    obtain ⟨hlt, hnot⟩ := h.ledger.taken uid b hb
    exact ⟨b, hlt, hb, hnot⟩
  recorded := by
    intro b hlt hnot
    rcases h.ledger.recorded b hlt hnot with hloose | ⟨uid, huid⟩
    · cases hloose
    · refine ⟨uid, ⟨huid, h.holder uid (by rw [huid]; exact Option.some_ne_none b)⟩, ?_⟩
      rintro uid' ⟨huid', -⟩
      exact h.ledger.distinct uid' uid b huid' huid
  releasedOnce := h.ledger.counts
  noReleaseFails := h.ledger.no_error
  neverFull := h.never_full

/-- The slots follow admission in every run whose rounds keep some budget after each
request that had a slot reserved. -/
theorem reaches_hostSlotsFollow {cache : AdmissionCache τ R Λ} {intake : Intake}
    {dpSize poolSize : Nat} {s : PrefillServer R}
    (hrun : Reaches cache intake (RoundLasts cache intake) dpSize poolSize s) :
    HostSlotsFollow intake s :=
  (SlotsFollow.run hrun).hostSlotsFollow

/-! ### A request that uses up the budget of its round -/

/-- One request to stage, on rank 0. -/
def lonePrefill : Intake where
  bootstrapRoom _ := some 7
  dpRank _ := 0

def tenTokens : WaitingReq Unit where
  uid := 0
  dpRank := 0
  originInputLen := 10
  outputLen := 0
  maxNewTokens := 1
  ignoreEos := false
  fillIds := List.range 10
  prefixIndices := []
  extendInputLen := 10
  hostHitLength := 0
  lastNode := 0
  lastHostNode := 0
  lastMatchedPrefixLen := 0
  lockParams := none

/-- A round with `max_prefill_tokens` as given. -/
def freshRound (maxPrefillTokens : Int) : PrefillRound RadixCache Unit where
  adder := { tightAdder with remInputTokens := maxPrefillTokens }
  nothingAdded := ⟨rfl, rfl⟩
  batchIsFull _ := false
  runningLen _ := 0
  perDpMaxRunningRequests := 8
  pendingChunkedAbort _ := false
  recurrent := none
  lora := none
  initNextRoundInput tree req := (tree, req)
  initChunkedInput req := req
  init_uid _ _ := rfl
  init_dpRank _ _ := rfl
  chunked_uid _ := rfl
  chunked_dpRank _ := rfl

/-- The server after it received the request. -/
def oneWaiting : PrefillServer Unit :=
  { PrefillServer.init Unit 1 2 with waitingQueue := [tenTokens], received := 1 }

theorem reaches_oneWaiting
    (ok : PrefillServer Unit → PrefillRound RadixCache Unit → List (WaitingReq Unit) → Prop) :
    Reaches radixAdmission lonePrefill ok 1 2 oneWaiting :=
  Relation.ReflTransGen.single (.receive tenTokens rfl rfl (by decide))

/-- The round is the one step after the request came. -/
theorem reaches_freshRound {maxPrefillTokens : Int} {s : PrefillServer Unit}
    {ok : PrefillServer Unit → PrefillRound RadixCache Unit → List (WaitingReq Unit) → Prop}
    (hok : ok oneWaiting (freshRound maxPrefillTokens) [tenTokens])
    (hround : oneWaiting.getNewBatchPrefill radixAdmission lonePrefill
      (freshRound maxPrefillTokens) [tenTokens] = some s) :
    Reaches radixAdmission lonePrefill ok 1 2 s :=
  (reaches_oneWaiting ok).tail (.round (freshRound maxPrefillTokens) [tenTokens] rfl rfl
    (List.Perm.refl _) hok hround)

/-- With budget to spare the request keeps its slot. -/
theorem hundred_lasts :
    RoundLasts radixAdmission lonePrefill oneWaiting (freshRound 100) [tenTokens] := by
  intro adder chunkedReqs hchunks
  cases hchunks
  refine ⟨?_, fun _ => trivial⟩
  intro b req' st' hlook
  have hcall : (freshRound 100).look lonePrefill.bootstrapRoom oneWaiting.chunkedReqs
      (oneWaiting.admitStart (freshRound 100) (freshRound 100).adder) tenTokens =
      .call (some b) req' st' := hlook
  cases hcall
  intro _
  decide +kernel

theorem lone_hostSlotsFollow : ∃ s : PrefillServer Unit,
    s.batch = [0] ∧ s.slots.bufferId 0 = some 0 ∧ HostSlotsFollow lonePrefill s := by
  have hsome : ((oneWaiting.getNewBatchPrefill radixAdmission lonePrefill (freshRound 100)
      [tenTokens]).map fun s => (s.batch, s.slots.bufferId 0)) = some ([0], some 0) := by
    decide +kernel
  obtain ⟨s, hround, hs⟩ := Option.map_eq_some_iff.mp hsome
  obtain ⟨hbatch, hslot⟩ := Prod.mk.inj hs
  exact ⟨s, hbatch, hslot, reaches_hostSlotsFollow (reaches_freshRound hundred_lasts hround)⟩

/-- The request takes the last ten tokens of the round: it is in the batch, its slot
went back to the pool. -/
theorem admitted_without_slot : ∃ s : PrefillServer Unit,
    Reaches radixAdmission lonePrefill (fun _ _ _ => True) 1 2 s ∧ s.batch = [0] ∧
      (lonePrefill.bootstrapRoom 0).isSome ∧ s.slots.bufferId 0 = none ∧
      0 ∈ s.slots.pool.freeIds := by
  have hsome : ((oneWaiting.getNewBatchPrefill radixAdmission lonePrefill (freshRound 10)
      [tenTokens]).map fun s => (s.batch, s.slots.bufferId 0, s.slots.pool.freeIds)) =
      some ([0], none, [1, 0]) := by
    decide +kernel
  obtain ⟨s, hround, hs⟩ := Option.map_eq_some_iff.mp hsome
  obtain ⟨hbatch, hslots⟩ := Prod.mk.inj hs
  obtain ⟨hslot, hfree⟩ := Prod.mk.inj hslots
  refine ⟨s, reaches_freshRound trivial hround, hbatch, rfl, hslot, ?_⟩
  rw [hfree]
  decide

end PrefillServer

end SglJax.Managers
