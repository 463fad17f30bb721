import SglJax.Managers.HostSlotSafety

/-! One round of admission keeps the slots and the requests together. -/
namespace SglJax.Managers

variable {τ R Λ : Type}

theorem flatMap_update_append {α : Type} {ranks : List Nat} {f : Nat → List α} {rank : Nat}
    (hnodup : ranks.Nodup) (hrank : rank ∈ ranks) (x : α) :
    (ranks.flatMap (Function.update f rank (f rank ++ [x]))).Perm (x :: ranks.flatMap f) := by
  induction ranks with
  | nil => cases hrank
  | cons r ranks ih =>
    obtain ⟨hr, hrest⟩ := List.nodup_cons.mp hnodup
    rw [List.flatMap_cons, List.flatMap_cons]
    by_cases heq : r = rank
    · subst heq
      have hsame : ranks.flatMap (Function.update f r (f r ++ [x])) = ranks.flatMap f := by
        apply List.flatMap_congr
        intro r' hr'
        apply Function.update_of_ne
        intro heq
        exact hr (heq ▸ hr')
      rw [Function.update_self, hsame, List.append_assoc]
      exact List.perm_middle
    · have hmem : rank ∈ ranks := by
        rcases List.mem_cons.mp hrank with h | h
        · exact absurd h.symm heq
        · exact h
      rw [Function.update_of_ne heq]
      exact ((ih hrest hmem).append_left (f r)).trans List.perm_middle

theorem PrefillAdder.SameBatch.canRunUids {a b : PrefillAdder τ R}
    (h : PrefillAdder.SameBatch a b) : b.canRunUids = a.canRunUids := by
  unfold PrefillAdder.canRunUids
  rw [h.dpSize, h.canRunList]

theorem PrefillAdder.Added.canRunUids {a b : PrefillAdder τ R} {req : WaitingReq R}
    (h : PrefillAdder.Added a b req) (hlt : req.dpRank < a.dpSize) :
    b.canRunUids.Perm (req.uid :: a.canRunUids) := by
  obtain ⟨q, hq, -, hlist, -⟩ := h.appended
  unfold PrefillAdder.canRunUids
  rw [h.dpSize, hlist]
  have hmap : (fun rank => (Function.update a.canRunList req.dpRank
      (a.canRunList req.dpRank ++ [q]) rank).map (·.uid)) =
      Function.update (fun rank => (a.canRunList rank).map (·.uid)) req.dpRank
        ((a.canRunList req.dpRank).map (·.uid) ++ [req.uid]) := by
    funext rank
    by_cases heq : rank = req.dpRank
    · subst heq
      rw [Function.update_self, Function.update_self, List.map_append, List.map_singleton, hq]
    · rw [Function.update_of_ne heq, Function.update_of_ne heq]
  rw [hmap]
  exact flatMap_update_append List.nodup_range (List.mem_range.mpr hlt) req.uid

theorem PrefillAdder.Added.mem_canRunUids {a b : PrefillAdder τ R} {req : WaitingReq R}
    (h : PrefillAdder.Added a b req) (hlt : req.dpRank < a.dpSize) {uid : Nat} :
    uid ∈ b.canRunUids ↔ uid ∈ a.canRunUids ∨ uid = req.uid := by
  rw [(h.canRunUids hlt).mem_iff, List.mem_cons, or_comm]

/-! ### The loop over the waiting queue -/

/-- What a round starts from. `live`: the requests under way before it; `known`: those
that may be in its batch; `running`: those the chunks put there; `holding`: those with a
slot. -/
structure LoopContext (R : Type) where
  intake : Intake
  dpSize : Nat
  chunkedReqs : Nat → Option (WaitingReq R)
  live : Nat → Prop
  known : Nat → Prop
  running : Nat → Prop
  holding : Nat → Prop

/-- What holds when the loop comes to `todo`. -/
structure LoopInv (ctx : LoopContext R) (todo : List (WaitingReq R)) (st : AdmitState τ R) :
    Prop where
  ledger : SlotLedger none st.slots
  ranks : st.adder.dpSize = ctx.dpSize
  todo_nodup : (todo.map (·.uid)).Nodup
  todo_rank : ∀ req ∈ todo, req.dpRank = ctx.intake.dpRank req.uid ∧ req.dpRank < ctx.dpSize
  todo_apart : ∀ req ∈ todo, ¬ ctx.live req.uid ∧ req.uid ∉ st.adder.canRunUids ∧
    ctx.known req.uid
  run_nodup : st.adder.canRunUids.Nodup
  run_known : ∀ uid ∈ st.adder.canRunUids, ctx.known uid
  run_grows : ∀ uid, ctx.running uid → uid ∈ st.adder.canRunUids
  holder : ∀ uid, st.slots.bufferId uid ≠ none → uid ∈ st.adder.canRunUids ∨ ctx.live uid
  holds : ∀ uid ∈ st.adder.canRunUids, (ctx.intake.bootstrapRoom uid).isSome →
    st.slots.bufferId uid ≠ none
  keeps : ∀ uid, ctx.holding uid → st.slots.bufferId uid ≠ none
  staged : ∀ uid, st.slots.bufferId uid ≠ none → (ctx.intake.bootstrapRoom uid).isSome
  chunked : ∀ rank q, st.adder.newChunkedReqs rank = some q → q.dpRank = rank ∧
    rank < ctx.dpSize ∧ q.dpRank = ctx.intake.dpRank q.uid ∧ q.uid ∈ st.adder.canRunUids ∧
    ¬ ctx.live q.uid ∧ ctx.chunkedReqs rank = none

namespace LoopInv

variable {ctx : LoopContext R} {req : WaitingReq R} {todo rest : List (WaitingReq R)}
  {st st' : AdmitState τ R}

theorem mono (h : LoopInv ctx todo st) (hsub : rest.Sublist todo) : LoopInv ctx rest st where
  ledger := h.ledger
  ranks := h.ranks
  todo_nodup := (hsub.map _).nodup h.todo_nodup
  todo_rank := fun req hreq => h.todo_rank req (hsub.subset hreq)
  todo_apart := fun req hreq => h.todo_apart req (hsub.subset hreq)
  run_nodup := h.run_nodup
  run_known := h.run_known
  run_grows := h.run_grows
  holder := h.holder
  holds := h.holds
  keeps := h.keeps
  staged := h.staged
  chunked := h.chunked

/-- A request that was not visited yet has no slot. -/
theorem no_slot (h : LoopInv ctx todo st) (hreq : req ∈ todo) :
    st.slots.bufferId req.uid = none := by
  by_contra hsome
  obtain ⟨hlive, hnot, -⟩ := h.todo_apart req hreq
  rcases h.holder req.uid hsome with hrun | hl
  · exact hnot hrun
  · exact hlive hl

/-- The loop went on without changing the batch. -/
theorem skip (h : LoopInv ctx todo st) (hsame : PrefillAdder.SameBatch st.adder st'.adder)
    (hledger : SlotLedger none st'.slots) (hbuffer : st'.slots.bufferId = st.slots.bufferId) :
    LoopInv ctx todo st' := by
  have hrun := hsame.canRunUids
  constructor
  · exact hledger
  · exact hsame.dpSize.trans h.ranks
  · exact h.todo_nodup
  · exact h.todo_rank
  · rw [hrun]
    exact h.todo_apart
  · rw [hrun]
    exact h.run_nodup
  · rw [hrun]
    exact h.run_known
  · rw [hrun]
    exact h.run_grows
  · rw [hrun, hbuffer]
    exact h.holder
  · rw [hrun, hbuffer]
    exact h.holds
  · rw [hbuffer]
    exact h.keeps
  · rw [hbuffer]
    exact h.staged
  · rw [hrun, hsame.newChunkedReqs]
    exact h.chunked

/-- The request was added and its slot recorded. -/
theorem added (h : LoopInv ctx (req :: rest) st) (reservedBid : Option Nat)
    (hadded : PrefillAdder.Added st.adder st'.adder req) (hledger : SlotLedger none st'.slots)
    (hbuffer : ∀ uid, st'.slots.bufferId uid =
      if uid = req.uid then reservedBid else st.slots.bufferId uid)
    (hstaged : reservedBid.isSome = (ctx.intake.bootstrapRoom req.uid).isSome)
    (halone : ctx.chunkedReqs req.dpRank = none) : LoopInv ctx rest st' := by
  obtain ⟨hrank, hlt⟩ := h.todo_rank req List.mem_cons_self
  obtain ⟨hlive, hnot, hknown⟩ := h.todo_apart req List.mem_cons_self
  have hperm := hadded.canRunUids (by rw [h.ranks]; exact hlt)
  have hmem : ∀ uid, uid ∈ st'.adder.canRunUids ↔ uid ∈ st.adder.canRunUids ∨ uid = req.uid :=
    fun uid => hadded.mem_canRunUids (by rw [h.ranks]; exact hlt)
  have hnone := h.no_slot List.mem_cons_self
  obtain ⟨hfresh, hnodup⟩ := List.nodup_cons.mp h.todo_nodup
  constructor
  · exact hledger
  · exact hadded.dpSize.trans h.ranks
  · exact hnodup
  · exact fun x hx => h.todo_rank x (List.mem_cons_of_mem _ hx)
  · intro x hx
    obtain ⟨hxlive, hxnot, hxknown⟩ := h.todo_apart x (List.mem_cons_of_mem _ hx)
    refine ⟨hxlive, ?_, hxknown⟩
    rw [hmem, not_or]
    refine ⟨hxnot, ?_⟩
    intro heq
    exact hfresh (List.mem_map.mpr ⟨x, hx, heq⟩)
  · exact hperm.nodup_iff.mpr (List.nodup_cons.mpr ⟨hnot, h.run_nodup⟩)
  · intro uid huid
    rw [hmem] at huid
    rcases huid with huid | huid
    · exact h.run_known uid huid
    · rw [huid]
      exact hknown
  · intro uid huid
    exact (hmem uid).mpr (Or.inl (h.run_grows uid huid))
  · intro uid hsome
    rw [hbuffer] at hsome
    rw [hmem]
    by_cases heq : uid = req.uid
    · exact Or.inl (Or.inr heq)
    · rw [if_neg heq] at hsome
      rcases h.holder uid hsome with hrun | hl
      · exact Or.inl (Or.inl hrun)
      · exact Or.inr hl
  · intro uid huid hroom
    rw [hbuffer]
    by_cases heq : uid = req.uid
    · rw [if_pos heq]
      rw [heq, ← hstaged] at hroom
      exact Option.ne_none_iff_isSome.mpr hroom
    · rw [if_neg heq]
      rw [hmem] at huid
      exact h.holds uid (huid.resolve_right heq) hroom
  · intro uid hholding
    have hold := h.keeps uid hholding
    rw [hbuffer]
    have hne : uid ≠ req.uid := by
      intro heq
      rw [heq] at hold
      exact hold hnone
    rw [if_neg hne]
    exact hold
  · intro uid hsome
    rw [hbuffer] at hsome
    by_cases heq : uid = req.uid
    · rw [if_pos heq] at hsome
      rw [heq, ← hstaged]
      exact Option.ne_none_iff_isSome.mp hsome
    · rw [if_neg heq] at hsome
      exact h.staged uid hsome
  · intro rank q hq
    obtain ⟨q', hq', hq'rank, -, hnew⟩ := hadded.appended
    have hold : st.adder.newChunkedReqs rank = some q →
        q.dpRank = rank ∧ rank < ctx.dpSize ∧ q.dpRank = ctx.intake.dpRank q.uid ∧
          q.uid ∈ st'.adder.canRunUids ∧ ¬ ctx.live q.uid ∧ ctx.chunkedReqs rank = none := by
      intro hq
      obtain ⟨h₁, h₂, h₃, h₄, h₅⟩ := h.chunked rank q hq
      exact ⟨h₁, h₂, h₃, (hmem q.uid).mpr (Or.inl h₄), h₅⟩
    rcases hnew with hnew | hnew
    · rw [hnew] at hq
      exact hold hq
    · by_cases heq : rank = req.dpRank
      · subst heq
        rw [hnew, Function.update_self] at hq
        cases hq
        refine ⟨hq'rank, hlt, ?_, ?_, ?_, halone⟩
        · rw [hq'rank, hq', hrank]
        · exact (hmem q.uid).mpr (Or.inr hq')
        · rw [hq']
          exact hlive
      · rw [hnew, Function.update_of_ne heq] at hq
        exact hold hq

end LoopInv

namespace PrefillRound

variable {cache : AdmissionCache τ R Λ} {ctx : LoopContext R} {round : PrefillRound τ R}
  {chunkedReqs : Nat → Option (WaitingReq R)} {req : WaitingReq R}
  {todo rest : List (WaitingReq R)} {st : AdmitState τ R}

theorem gate_same {stop : Bool} {st' : AdmitState τ R}
    (h : round.gate chunkedReqs st req = some (stop, st')) :
    st'.adder = st.adder ∧ st'.slots = st.slots := by
  unfold gate at h
  dsimp only at h
  split at h
  · cases h
    exact ⟨rfl, rfl⟩
  split at h
  · cases h
    exact ⟨rfl, rfl⟩
  split at h
  · cases h
    exact ⟨rfl, rfl⟩
  split at h
  · cases h
    exact ⟨rfl, rfl⟩
  split at h
  · cases h
    exact ⟨rfl, rfl⟩
  · cases h

theorem gate_open (h : round.gate chunkedReqs st req = none) :
    chunkedReqs req.dpRank = none := by
  unfold gate at h
  dsimp only at h
  split at h
  · cases h
  split at h
  · cases h
  split at h
  · cases h
  split at h
  · cases h
  · rename_i hchunked
    simp only [Bool.or_eq_true, not_or, Bool.not_eq_true, Option.isSome_eq_false_iff,
      Option.isNone_iff_eq_none] at hchunked
    exact hchunked.1

/-- The state after a look that does not call `add_one_req`. -/
theorem look_pass (h : LoopInv ctx (req :: rest) st) {stop : Bool}
    {req' : WaitingReq R} {st' : AdmitState τ R}
    (hlook : round.look ctx.intake.bootstrapRoom ctx.chunkedReqs st req = .pass stop req' st') :
    (req'.uid = req.uid ∧ req'.dpRank = req.dpRank) ∧
      PrefillAdder.SameBatch st.adder st'.adder ∧ SlotLedger none st'.slots ∧
      st'.slots.bufferId = st.slots.bufferId := by
  have hnone := h.no_slot List.mem_cons_self
  unfold look at hlook
  split at hlook
  · rename_i stop' st₁ hgate
    cases hlook
    obtain ⟨hadder, hslots⟩ := gate_same hgate
    rw [hadder, hslots]
    exact ⟨⟨rfl, rfl⟩, .refl _, h.ledger, rfl⟩
  · split at hlook
    · cases hlook
      exact ⟨⟨rfl, rfl⟩, .refl _, h.ledger, rfl⟩
    · rename_i reservedBid slots hreserve
      obtain ⟨hledger, hbuffer, -⟩ := h.ledger.reserveHostSlotForPd hnone hreserve
      obtain ⟨hreleased, hsame⟩ := hledger.releaseReserved
      dsimp only at hlook
      split at hlook
      · cases hlook
        exact ⟨⟨round.init_uid _ _, round.init_dpRank _ _⟩, ⟨rfl, rfl, rfl⟩, hreleased,
          hsame.trans hbuffer⟩
      · cases hlook

/-- The state in which `add_one_req` is called, with the reserved slot loose. -/
theorem look_call (h : LoopInv ctx (req :: rest) st)
    {reservedBid : Option Nat} {req' : WaitingReq R} {st' : AdmitState τ R}
    (hlook : round.look ctx.intake.bootstrapRoom ctx.chunkedReqs st req = .call reservedBid req' st') :
    (req'.uid = req.uid ∧ req'.dpRank = req.dpRank) ∧
      PrefillAdder.SameBatch st.adder st'.adder ∧ SlotLedger reservedBid st'.slots ∧
      st'.slots.bufferId = st.slots.bufferId ∧
      reservedBid.isSome = (ctx.intake.bootstrapRoom req.uid).isSome ∧
      ctx.chunkedReqs req.dpRank = none := by
  have hnone := h.no_slot List.mem_cons_self
  unfold look at hlook
  split at hlook
  · cases hlook
  · rename_i hgate
    have halone := gate_open hgate
    split at hlook
    · cases hlook
    · rename_i reserved slots hreserve
      obtain ⟨hledger, hbuffer, hstaged⟩ := h.ledger.reserveHostSlotForPd hnone hreserve
      dsimp only at hlook
      split at hlook
      · cases hlook
      · cases hlook
        exact ⟨⟨round.init_uid _ _, round.init_dpRank _ _⟩, ⟨rfl, rfl, rfl⟩, hledger, hbuffer,
          hstaged, halone⟩

theorem settle_adder (st : AdmitState τ R) (reservedBid : Option Nat) (uid dpRank : Nat)
    (result : AddReqResult) :
    (round.settle st reservedBid uid dpRank result).2.adder = st.adder := by
  cases result <;> rfl

/-- Any verdict but `CONTINUE` gives the reservation back. -/
theorem settle_slots (st : AdmitState τ R) (reservedBid : Option Nat) (uid dpRank : Nat)
    {result : AddReqResult} (h : result ≠ .continue_) :
    (round.settle st reservedBid uid dpRank result).2.slots =
      st.slots.releaseReserved reservedBid := by
  cases result with
  | continue_ => exact absurd rfl h
  | noToken | dpBudgetExhausted | other => rfl

theorem visit_spec (h : LoopInv ctx (req :: rest) st)
    (hlasts : ∀ b req' st', round.look ctx.intake.bootstrapRoom ctx.chunkedReqs st req =
      .call (some b) req' st' → BudgetLasts cache st'.adder req') :
    let v := round.visit cache ctx.intake.bootstrapRoom ctx.chunkedReqs st req
    LoopInv ctx rest v.2.2 ∧ v.2.1.uid = req.uid ∧
      v.2.1.dpRank = req.dpRank := by
  dsimp only
  unfold visit
  cases hlook : round.look ctx.intake.bootstrapRoom ctx.chunkedReqs st req with
  | pass stop req' st' =>
    obtain ⟨⟨huid, hrank⟩, hsame, hledger, hbuffer⟩ := look_pass h hlook
    have hrest := h.mono (List.sublist_cons_self req rest)
    exact ⟨hrest.skip hsame hledger hbuffer, huid, hrank⟩
  | call reservedBid req' st' =>
    obtain ⟨⟨huid, hrank⟩, hsame, hledger, hbuffer, hstaged, halone⟩ := look_call h hlook
    obtain ⟨hruid, hrrank⟩ := PrefillAdder.addOneReq_req cache st'.adder req'
    dsimp only
    refine ⟨?_, hruid.trans huid, hrrank.trans hrank⟩
    rcases PrefillAdder.addOneReq_reports cache st'.adder req' with
      ⟨hbatch, hresult⟩ | ⟨hadded, hresult⟩
    · have hrest := h.mono (List.sublist_cons_self req rest)
      obtain ⟨hreleased, hkept⟩ := hledger.releaseReserved
      apply hrest.skip
      · rw [settle_adder]
        exact hsame.trans hbatch
      · rw [settle_slots _ _ _ _ hresult]
        exact hreleased
      · rw [settle_slots _ _ _ _ hresult]
        exact hkept.trans hbuffer
    · have hnone : st'.slots.bufferId req'.uid = none := by
        rw [hbuffer, huid]
        exact h.no_slot List.mem_cons_self
      -- with a slot the budgets last, without one there is nothing to give back
      have hslots : (round.settle { st' with adder := (PrefillAdder.addOneReq cache st'.adder req').1 }
          reservedBid req'.uid req'.dpRank
          (PrefillAdder.addOneReq cache st'.adder req').2.2).2.slots =
          st'.slots.record req'.uid reservedBid := by
        cases reservedBid with
        | some b =>
          have hlast := hlasts b req' st' hlook hadded.canRunList_ne
          rw [hresult, hlast]
          rfl
        | none =>
          cases (PrefillAdder.addOneReq cache st'.adder req').2.2 <;> rfl
      apply h.added reservedBid
      · rw [settle_adder]
        exact .of_same hsame hadded huid hrank
      · rw [hslots]
        exact hledger.recordReserved hnone
      · intro uid
        rw [hslots, ← huid]
        cases reservedBid with
        | none =>
          by_cases heq : uid = req'.uid
          · rw [if_pos heq, heq]
            exact hnone
          · rw [if_neg heq, ← hbuffer]
            rfl
        | some b =>
          unfold HostSlots.record
          dsimp only
          rw [Function.update_apply, hbuffer]
      · exact hstaged
      · exact halone

/-- The loop keeps the requests of the queue and what holds of them. -/
theorem admitLoop_spec (h : LoopInv ctx todo st)
    (hlasts : round.BudgetsLast cache ctx.intake.bootstrapRoom ctx.chunkedReqs todo st) :
    let l := round.admitLoop cache ctx.intake.bootstrapRoom ctx.chunkedReqs todo st
    LoopInv ctx [] l.2 ∧
      l.1.map (fun req => (req.uid, req.dpRank)) = todo.map fun req => (req.uid, req.dpRank) := by
  induction todo generalizing st with
  | nil => exact ⟨h, rfl⟩
  | cons req rest ih =>
    obtain ⟨hhere, hafter⟩ := hlasts
    obtain ⟨hvisit, huid, hrank⟩ := visit_spec h hhere
    dsimp only
    unfold admitLoop
    split
    · rename_i req' st' heq
      rw [heq] at hvisit huid hrank
      refine ⟨hvisit.mono (List.nil_sublist rest), ?_⟩
      dsimp only at huid hrank
      rw [List.map_cons, List.map_cons, huid, hrank]
    · rename_i req' st' heq
      rw [heq] at hvisit huid hrank hafter
      obtain ⟨hlast, hmap⟩ := ih hvisit (hafter rfl)
      dsimp only at huid hrank hlast hmap ⊢
      refine ⟨hlast, ?_⟩
      rw [List.map_cons, List.map_cons, huid, hrank, hmap]

/-! ### The chunked requests of the ranks -/

/-- The chunked requests go on: each is in the batch or stays chunked, or both. -/
structure Continues (p p' : PrefillAdder τ R × (Nat → Option (WaitingReq R))) : Prop where
  dpSize : p'.1.dpSize = p.1.dpSize
  newChunkedReqs : p'.1.newChunkedReqs = p.1.newChunkedReqs
  mono : ∀ uid ∈ p.1.canRunUids, uid ∈ p'.1.canRunUids
  added : ∀ uid ∈ p'.1.canRunUids, uid ∈ p.1.canRunUids ∨
    ∃ rank q, p.2 rank = some q ∧ q.uid = uid
  chunked : ∀ rank q', p'.2 rank = some q' → ∃ q, p.2 rank = some q ∧
    PrefillAdder.SameReq q' q
  kept : ∀ rank q, p.2 rank = some q → q.uid ∈ p'.1.canRunUids ∨
    ∃ q', p'.2 rank = some q' ∧ q'.uid = q.uid

theorem Continues.refl (p : PrefillAdder τ R × (Nat → Option (WaitingReq R))) :
    Continues p p where
  dpSize := rfl
  newChunkedReqs := rfl
  mono := fun _ h => h
  added := fun _ h => Or.inl h
  chunked := fun _ q' h => ⟨q', h, rfl, rfl⟩
  kept := fun _ q h => Or.inr ⟨q, h, rfl⟩

theorem Continues.trans {p p' p'' : PrefillAdder τ R × (Nat → Option (WaitingReq R))}
    (h : Continues p p') (h' : Continues p' p'') : Continues p p'' where
  dpSize := h'.dpSize.trans h.dpSize
  newChunkedReqs := h'.newChunkedReqs.trans h.newChunkedReqs
  mono := fun uid huid => h'.mono uid (h.mono uid huid)
  added := by
    intro uid huid
    rcases h'.added uid huid with hmem | ⟨rank, q', hq', rfl⟩
    · exact h.added uid hmem
    · obtain ⟨q, hq, hsame⟩ := h.chunked rank q' hq'
      exact Or.inr ⟨rank, q, hq, hsame.1.symm⟩
  chunked := by
    intro rank q'' hq''
    obtain ⟨q', hq', hsame'⟩ := h'.chunked rank q'' hq''
    obtain ⟨q, hq, hsame⟩ := h.chunked rank q' hq'
    exact ⟨q, hq, hsame'.trans hsame⟩
  kept := by
    intro rank q hq
    rcases h.kept rank q hq with hmem | ⟨q', hq', huid'⟩
    · exact Or.inl (h'.mono _ hmem)
    · rcases h'.kept rank q' hq' with hmem | ⟨q'', hq'', huid''⟩
      · exact Or.inl (huid' ▸ hmem)
      · exact Or.inr ⟨q'', hq'', huid''.trans huid'⟩

theorem continues_chunk {adder adder' : PrefillAdder τ R} {rank : Nat}
    {more : Option (WaitingReq R)} (hreq : chunkedReqs rank = some req)
    (hlt : req.dpRank < adder.dpSize)
    (h : PrefillAdder.addChunkedReq cache adder (round.initChunkedInput req) =
      some (adder', more)) :
    Continues (adder, chunkedReqs) (adder', Function.update chunkedReqs rank more) := by
  have huid := round.chunked_uid req
  have hrank := round.chunked_dpRank req
  obtain ⟨hbatch, hfinal, hmore⟩ := PrefillAdder.addChunkedReq_batch h
  have hmem : ∀ uid, PrefillAdder.Added adder adder' (round.initChunkedInput req) →
      (uid ∈ adder'.canRunUids ↔ uid ∈ adder.canRunUids ∨ uid = req.uid) := by
    intro uid hadded
    rw [hadded.mem_canRunUids (by rw [hrank]; exact hlt), huid]
  constructor
  · rcases hbatch with hsame | ⟨hadded, -⟩
    · exact hsame.dpSize
    · exact hadded.dpSize
  · rcases hbatch with hsame | ⟨-, hnew⟩
    · exact hsame.newChunkedReqs
    · exact hnew
  · intro uid hrun
    dsimp only at hrun ⊢
    rcases hbatch with hsame | ⟨hadded, -⟩
    · rw [hsame.canRunUids]
      exact hrun
    · exact (hmem uid hadded).mpr (Or.inl hrun)
  · intro uid hrun
    dsimp only at hrun ⊢
    rcases hbatch with hsame | ⟨hadded, -⟩
    · rw [hsame.canRunUids] at hrun
      exact Or.inl hrun
    · rcases (hmem uid hadded).mp hrun with hold | hnew
      · exact Or.inl hold
      · exact Or.inr ⟨rank, req, hreq, hnew.symm⟩
  · intro rank' q' hq'
    dsimp only at hq'
    by_cases heq : rank' = rank
    · subst heq
      rw [Function.update_self] at hq'
      obtain ⟨hquid, hqrank⟩ := hmore q' hq'
      exact ⟨req, hreq, hquid.trans huid, hqrank.trans hrank⟩
    · rw [Function.update_of_ne heq] at hq'
      exact ⟨q', hq', rfl, rfl⟩
  · intro rank' q hq
    dsimp only at hq ⊢
    by_cases heq : rank' = rank
    · subst heq
      rw [hreq] at hq
      cases hq
      cases more with
      | none => exact Or.inl ((hmem req.uid (hfinal rfl)).mpr (Or.inr rfl))
      | some q' => exact Or.inr ⟨q', Function.update_self .., (hmore q' rfl).1.trans huid⟩
    · exact Or.inr ⟨q, by rw [Function.update_of_ne heq]; exact hq, rfl⟩

theorem addChunkedReqs_continues {ranks : List Nat}
    {p p' : PrefillAdder τ R × (Nat → Option (WaitingReq R))}
    (hlt : ∀ rank q, p.2 rank = some q → q.dpRank < p.1.dpSize)
    (h : round.addChunkedReqs cache ranks p = some p') : Continues p p' := by
  induction ranks generalizing p with
  | nil =>
    cases h
    exact .refl _
  | cons rank ranks ih =>
    obtain ⟨adder, chunkedReqs⟩ := p
    unfold addChunkedReqs at h
    split at h
    · exact ih hlt h
    · rename_i req hreq
      split at h
      · exact ih hlt h
      · split at h
        · cases h
        · rename_i adder' more hadd
          have hstep := continues_chunk hreq (hlt rank req hreq) hadd
          apply hstep.trans
          apply ih _ h
          intro rank' q' hq'
          obtain ⟨q, hq, hsame⟩ := hstep.chunked rank' q' hq'
          rw [hsame.2, hstep.dpSize]
          exact hlt rank' q hq

theorem addChunkedReqs_nodup {ranks : List Nat} (rankOf : Nat → Nat)
    {p p' : PrefillAdder τ R × (Nat → Option (WaitingReq R))}
    (hlt : ∀ rank q, p.2 rank = some q → q.dpRank < p.1.dpSize ∧ rankOf q.uid = rank)
    (hranks : ranks.Nodup) (hapart : ∀ uid ∈ p.1.canRunUids, rankOf uid ∉ ranks)
    (hnodup : p.1.canRunUids.Nodup) (h : round.addChunkedReqs cache ranks p = some p') :
    p'.1.canRunUids.Nodup := by
  induction ranks generalizing p with
  | nil =>
    cases h
    exact hnodup
  | cons rank ranks ih =>
    obtain ⟨adder, chunkedReqs⟩ := p
    obtain ⟨hrank, hrest⟩ := List.nodup_cons.mp hranks
    have hskip : ∀ uid ∈ adder.canRunUids, rankOf uid ∉ ranks :=
      fun uid huid hmem => hapart uid huid (List.mem_cons_of_mem _ hmem)
    unfold addChunkedReqs at h
    split at h
    · exact ih hlt hrest hskip hnodup h
    · rename_i req hreq
      split at h
      · exact ih hlt hrest hskip hnodup h
      · split at h
        · cases h
        · rename_i adder' more hadd
          obtain ⟨hreqlt, hreqrank⟩ := hlt rank req hreq
          have hstep := continues_chunk hreq hreqlt hadd
          have huid := round.chunked_uid req
          have hreqrun : req.uid ∉ adder.canRunUids := by
            intro hmem
            have hnot := hapart req.uid hmem
            rw [hreqrank] at hnot
            exact hnot List.mem_cons_self
          obtain ⟨hbatch, -, -⟩ := PrefillAdder.addChunkedReq_batch hadd
          have hafter : adder'.canRunUids.Nodup ∧
              ∀ uid ∈ adder'.canRunUids, uid ∈ adder.canRunUids ∨ uid = req.uid := by
            rcases hbatch with hsame | ⟨hadded, -⟩
            · rw [hsame.canRunUids]
              exact ⟨hnodup, fun uid hmem => Or.inl hmem⟩
            · have hadderlt : (round.initChunkedInput req).dpRank < adder.dpSize := by
                rw [round.chunked_dpRank]
                exact hreqlt
              refine ⟨?_, ?_⟩
              · rw [(hadded.canRunUids hadderlt).nodup_iff, huid]
                exact List.nodup_cons.mpr ⟨hreqrun, hnodup⟩
              · intro uid hmem
                rw [hadded.mem_canRunUids hadderlt, huid] at hmem
                exact hmem
          apply ih _ hrest _ hafter.1 h
          · intro rank' q' hq'
            obtain ⟨q, hq, hsame⟩ := hstep.chunked rank' q' hq'
            rw [hsame.1, hsame.2, hstep.dpSize]
            exact hlt rank' q hq
          · intro uid hmem
            rcases hafter.2 uid hmem with hold | hnew
            · exact hskip uid hold
            · rw [hnew, hreqrank]
              exact hrank

end PrefillRound

end SglJax.Managers
