import Mathlib.Data.List.Nodup
import SglJax.Managers.HostSlots
import SglJax.Managers.RejectedAdmission

/-! Each slot of the host pool is free or recorded on one request in progress, and an
admitted request has its slot, as long as the budgets of a round outlast the requests
it reserved slots for. -/
namespace SglJax.Managers

variable {τ R Λ : Type}

/-! ### What `add_one_req` does to the batch -/

namespace PrefillAdder

variable {cache : AdmissionCache τ R Λ} {a b : PrefillAdder τ R} {req : WaitingReq R}

/-- The adder took the request, whole or as a chunk. -/
structure Added (a b : PrefillAdder τ R) (req : WaitingReq R) : Prop where
  dpSize : b.dpSize = a.dpSize
  appended : ∃ q : WaitingReq R, q.uid = req.uid ∧ q.dpRank = req.dpRank ∧
    b.canRunList = Function.update a.canRunList req.dpRank (a.canRunList req.dpRank ++ [q]) ∧
    (b.newChunkedReqs = a.newChunkedReqs ∨
      b.newChunkedReqs = Function.update a.newChunkedReqs req.dpRank (some q))

/-- Neither the batch nor the chunked requests changed. -/
structure SameBatch (a b : PrefillAdder τ R) : Prop where
  dpSize : b.dpSize = a.dpSize
  canRunList : b.canRunList = a.canRunList
  newChunkedReqs : b.newChunkedReqs = a.newChunkedReqs

theorem SameBatch.refl (a : PrefillAdder τ R) : SameBatch a a := ⟨rfl, rfl, rfl⟩

theorem SameBatch.trans {c : PrefillAdder τ R} (h : SameBatch a b) (h' : SameBatch b c) :
    SameBatch a c :=
  ⟨h'.dpSize.trans h.dpSize, h'.canRunList.trans h.canRunList,
    h'.newChunkedReqs.trans h.newChunkedReqs⟩

theorem Added.of_same {c : PrefillAdder τ R} {req' : WaitingReq R} (h : SameBatch a b)
    (hadded : Added b c req') (huid : req'.uid = req.uid) (hrank : req'.dpRank = req.dpRank) :
    Added a c req where
  dpSize := hadded.dpSize.trans h.dpSize
  appended := by
    obtain ⟨q, hq, hqrank, hlist, hnew⟩ := hadded.appended
    rw [hrank, h.canRunList] at hlist
    rw [hrank, h.newChunkedReqs] at hnew
    exact ⟨q, hq.trans huid, hqrank.trans hrank, hlist, hnew⟩

theorem Added.tree (h : Added a b req) (tree : τ) : Added a { b with tree := tree } req :=
  ⟨h.dpSize, h.appended⟩

theorem SameBatch.tree (h : SameBatch a b) (tree : τ) : SameBatch a { b with tree := tree } :=
  ⟨h.dpSize, h.canRunList, h.newChunkedReqs⟩

theorem Added.canRunList_ne (h : Added a b req) : b.canRunList ≠ a.canRunList := by
  obtain ⟨q, -, -, hlist, -⟩ := h.appended
  rw [hlist]
  exact append_ne _ _ _

/-- `append`, with the budgets updated. -/
theorem added_append (req : WaitingReq R) (chunked : Bool) (q : WaitingReq R) (huid : q.uid = req.uid)
    (hrank : q.dpRank = req.dpRank) (prefixLen : Nat) (extendInputLen : Int)
    (maxNewTokens : Nat) :
    Added a (updatePrefillBudget cache (append a req.dpRank chunked q) req.dpRank prefixLen
      extendInputLen maxNewTokens) req where
  dpSize := rfl
  appended := by
    refine ⟨q, huid, hrank, rfl, ?_⟩
    cases chunked with
    | false => exact Or.inl rfl
    | true => exact Or.inr rfl

theorem added_appendLocked (chunked : Bool) (extendInputLen : Int) (maxNewTokens : Nat) :
    Added a (appendLocked cache a req chunked extendInputLen maxNewTokens).1 req ∧
      (appendLocked cache a req chunked extendInputLen maxNewTokens).2.uid = req.uid ∧
      (appendLocked cache a req chunked extendInputLen maxNewTokens).2.dpRank = req.dpRank := by
  refine ⟨⟨rfl, (appendLocked cache a req chunked extendInputLen maxNewTokens).2, rfl, rfl, rfl,
    ?_⟩, rfl, rfl⟩
  cases chunked with
  | false => exact Or.inl rfl
  | true => exact Or.inr rfl

theorem capAtBoundary_uid (cache : AdmissionCache τ R Λ) (req : WaitingReq R) :
    (capAtBoundary cache req).uid = req.uid := by
  unfold capAtBoundary
  split
  · split <;> rfl
  · rfl

theorem capAtBoundary_dpRank (cache : AdmissionCache τ R Λ) (req : WaitingReq R) :
    (capAtBoundary cache req).dpRank = req.dpRank := by
  unfold capAtBoundary
  split
  · split <;> rfl
  · rfl

/-- A call that does not add the request says so, and one that does reports the budgets
that are left. -/
def Reports (cache : AdmissionCache τ R Λ) (a b : PrefillAdder τ R) (req : WaitingReq R)
    (result : AddReqResult) : Prop :=
  (SameBatch a b ∧ result ≠ .continue_) ∨
    (Added a b req ∧ result = budgetStateAfterAdd cache b req.dpRank)

theorem ignoreEosAdmit_reports (cache : AdmissionCache τ R Λ) (a : PrefillAdder τ R)
    (req : WaitingReq R) :
    Reports cache a (ignoreEosAdmit cache a req).1 req (ignoreEosAdmit cache a req).2.2 := by
  unfold ignoreEosAdmit
  dsimp only
  split
  · rename_i rem hrem
    split
    · exact Or.inr ⟨added_append req false req rfl rfl _ _ _, rfl⟩
    · split
      · exact Or.inl ⟨.refl a, by simp⟩
      · exact Or.inr ⟨added_append req true { req with
            extendInputLen := rem req.dpRank
            fillIds := req.fillIds.take (rem req.dpRank).toNat } rfl rfl _ _ _, rfl⟩
  · exact Or.inr ⟨added_append req false req rfl rfl _ _ _, rfl⟩

theorem addOneReqIgnoreEos_reports (cache : AdmissionCache τ R Λ) (a : PrefillAdder τ R)
    (req : WaitingReq R) :
    Reports cache a (addOneReqIgnoreEos cache a req).1 req (addOneReqIgnoreEos cache a req).2.2 := by
  unfold addOneReqIgnoreEos
  split
  · exact Or.inl ⟨.refl a, by simp⟩
  · dsimp only
    split
    · rcases ignoreEosAdmit_reports cache { a with
          reqStates := Function.update a.reqStates req.dpRank (some (reqStatesWith a req)) } req
        with h | h
      · exact Or.inl ⟨⟨h.1.dpSize, h.1.canRunList, h.1.newChunkedReqs⟩, h.2⟩
      · exact Or.inr ⟨⟨h.1.dpSize, h.1.appended⟩, h.2⟩
    · exact Or.inl ⟨⟨rfl, rfl, rfl⟩, by simp⟩

/-- What the tests after the load report; `none` stands for an admission. -/
theorem admitLoaded_reports (cache : AdmissionCache τ R Λ) (a : PrefillAdder τ R)
    (req : WaitingReq R) :
    (∃ result, (admitLoaded cache a req).2.2 = some result ∧ result ≠ .continue_ ∧
      SameBatch a (admitLoaded cache a req).1) ∨
    ((admitLoaded cache a req).2.2 = none ∧ Added a (admitLoaded cache a req).1 req) := by
  have huid := capAtBoundary_uid cache
    { req with lastMatchedPrefixLen := req.prefixIndices.length }
  have hrank := capAtBoundary_dpRank cache
    { req with lastMatchedPrefixLen := req.prefixIndices.length }
  unfold admitLoaded
  dsimp only
  generalize capAtBoundary cache { req with lastMatchedPrefixLen := req.prefixIndices.length } = q
    at huid hrank
  split
  · exact Or.inl ⟨.other, rfl, by simp, .refl a⟩
  · split
    · right
      exact ⟨rfl, .of_same (.refl a) (added_appendLocked _ _ _).1 huid hrank⟩
    · rename_i rem hrem
      split
      · right
        exact ⟨rfl, .of_same (.refl a) (added_appendLocked _ _ _).1 huid hrank⟩
      · split
        · exact Or.inl ⟨.dpBudgetExhausted, rfl, by simp, .refl a⟩
        · right
          exact ⟨rfl, .of_same (.refl a) (added_appendLocked _ _ _).1 huid hrank⟩

theorem loadBack_same (cache : AdmissionCache τ R Λ) (a : PrefillAdder τ R)
    (req : WaitingReq R) : SameBatch a (loadBack cache a req).1 := by
  unfold loadBack
  split
  · dsimp only
    split <;> exact ⟨rfl, rfl, rfl⟩
  · exact .refl a

theorem loadBack_req (cache : AdmissionCache τ R Λ) (a : PrefillAdder τ R)
    (req : WaitingReq R) : (loadBack cache a req).2.uid = req.uid ∧
    (loadBack cache a req).2.dpRank = req.dpRank := by
  unfold loadBack
  split
  · dsimp only
    split <;> exact ⟨rfl, rfl⟩
  · exact ⟨rfl, rfl⟩

theorem addLocked_reports (cache : AdmissionCache τ R Λ) (a : PrefillAdder τ R)
    (req : WaitingReq R) :
    (∃ result, (addLocked cache a req).2.2 = some result ∧ result ≠ .continue_ ∧
      SameBatch a (addLocked cache a req).1) ∨
    ((addLocked cache a req).2.2 = none ∧ Added a (addLocked cache a req).1 req) := by
  unfold addLocked
  split
  · exact Or.inl ⟨.noToken, rfl, by simp, .refl a⟩
  · split
    · exact Or.inl ⟨.dpBudgetExhausted, rfl, by simp, .refl a⟩
    · have hsame := loadBack_same cache a req
      obtain ⟨huid, hrank⟩ := loadBack_req cache a req
      rcases admitLoaded_reports cache (loadBack cache a req).1 (loadBack cache a req).2 with
        ⟨result, heq, hne, hbatch⟩ | ⟨heq, hadded⟩
      · exact Or.inl ⟨result, heq, hne, hsame.trans hbatch⟩
      · exact Or.inr ⟨heq, .of_same hsame hadded huid hrank⟩

theorem rejectsEarly_ne {result : AddReqResult} (h : rejectsEarly cache a req = some result) :
    result ≠ .continue_ := by
  unfold rejectsEarly at h
  split at h
  · cases h
    simp
  · split at h
    · cases h
      simp
    · cases h

theorem addOneReq_reports (cache : AdmissionCache τ R Λ) (a : PrefillAdder τ R)
    (req : WaitingReq R) :
    Reports cache a (addOneReq cache a req).1 req (addOneReq cache a req).2.2 := by
  unfold addOneReq
  split
  · exact Or.inl ⟨.refl a, by simp⟩
  · split
    · exact addOneReqIgnoreEos_reports cache a req
    · split
      · rename_i result hearly
        exact Or.inl ⟨.refl a, rejectsEarly_ne hearly⟩
      · have hlock : SameBatch a { a with tree := (cache.incLockRef a.tree req.lastNode).1 } :=
          ⟨rfl, rfl, rfl⟩
        dsimp only
        rcases addLocked_reports cache
          { a with tree := (cache.incLockRef a.tree req.lastNode).1 } req with
            ⟨result, heq, hne, hbatch⟩ | ⟨heq, hadded⟩
        · rw [heq]
          exact Or.inl ⟨(hlock.trans hbatch).tree _, hne⟩
        · rw [heq]
          exact Or.inr ⟨(Added.of_same hlock hadded rfl rfl).tree _, rfl⟩

/-- The request that comes back is the one that was tried. -/
def SameReq (q req : WaitingReq R) : Prop := q.uid = req.uid ∧ q.dpRank = req.dpRank

theorem SameReq.trans {q r : WaitingReq R} (h : SameReq r q) (h' : SameReq q req) :
    SameReq r req :=
  ⟨h.1.trans h'.1, h.2.trans h'.2⟩

theorem addOneReqIgnoreEos_req (cache : AdmissionCache τ R Λ) (a : PrefillAdder τ R)
    (req : WaitingReq R) : SameReq (addOneReqIgnoreEos cache a req).2.1 req := by
  unfold addOneReqIgnoreEos
  split
  · exact ⟨rfl, rfl⟩
  · dsimp only
    split
    · unfold ignoreEosAdmit
      dsimp only
      split
      · split
        · exact ⟨rfl, rfl⟩
        · split <;> exact ⟨rfl, rfl⟩
      · exact ⟨rfl, rfl⟩
    · exact ⟨rfl, rfl⟩

theorem admitLoaded_req (cache : AdmissionCache τ R Λ) (a : PrefillAdder τ R)
    (req : WaitingReq R) : SameReq (admitLoaded cache a req).2.1 req := by
  have hcap : SameReq (capAtBoundary cache
      { req with lastMatchedPrefixLen := req.prefixIndices.length }) req :=
    ⟨capAtBoundary_uid cache _, capAtBoundary_dpRank cache _⟩
  unfold admitLoaded
  dsimp only
  split
  · exact hcap
  · split
    · exact hcap
    · split
      · exact hcap
      · split <;> exact hcap

theorem addOneReq_req (cache : AdmissionCache τ R Λ) (a : PrefillAdder τ R)
    (req : WaitingReq R) : SameReq (addOneReq cache a req).2.1 req := by
  unfold addOneReq
  split
  · exact ⟨rfl, rfl⟩
  · split
    · exact addOneReqIgnoreEos_req cache a req
    · split
      · exact ⟨rfl, rfl⟩
      · dsimp only
        unfold addLocked
        split
        · exact ⟨rfl, rfl⟩
        · split
          · exact ⟨rfl, rfl⟩
          · exact (admitLoaded_req cache _ _).trans (loadBack_req cache _ req)

theorem addChunkedReq_batch {more : Option (WaitingReq R)}
    (h : addChunkedReq cache a req = some (b, more)) :
    (SameBatch a b ∨ (Added a b req ∧ b.newChunkedReqs = a.newChunkedReqs)) ∧
      (more = none → Added a b req) ∧ (∀ q, more = some q → q.uid = req.uid ∧
        q.dpRank = req.dpRank) := by
  unfold addChunkedReq at h
  split at h
  · cases h
  · dsimp only at h
    split at h
    · cases h
      exact ⟨Or.inl (.refl a), by simp, by simp⟩
    · simp only [Option.some.injEq, Prod.mk.injEq] at h
      obtain ⟨hb, hmore⟩ := h
      have hadded : Added a b req := by
        rw [← hb]
        exact added_append req false _ (by rfl) (by rfl) _ _ _
      refine ⟨Or.inr ⟨hadded, by rw [← hb]; rfl⟩, fun _ => hadded, ?_⟩
      intro q hq
      rw [← hmore] at hq
      rw [Option.ite_some_none_eq_some] at hq
      obtain ⟨-, rfl⟩ := hq
      exact ⟨rfl, rfl⟩

end PrefillAdder

/-! ### The slots -/

/-- Each slot is free, recorded on one request, or the one slot that was reserved and
is not recorded yet. -/
structure SlotLedger (loose : Option Nat) (slots : HostSlots) : Prop where
  free_nodup : slots.pool.freeIds.Nodup
  free_lt : ∀ b ∈ slots.pool.freeIds, b < slots.pool.poolSize
  taken : ∀ uid b, slots.bufferId uid = some b →
    b < slots.pool.poolSize ∧ b ∉ slots.pool.freeIds
  distinct : ∀ uid uid' b, slots.bufferId uid = some b → slots.bufferId uid' = some b → uid = uid'
  recorded : ∀ b < slots.pool.poolSize, b ∉ slots.pool.freeIds →
    loose = some b ∨ ∃ uid, slots.bufferId uid = some b
  loose_taken : ∀ b, loose = some b → b < slots.pool.poolSize ∧ b ∉ slots.pool.freeIds ∧
    ∀ uid, slots.bufferId uid ≠ some b
  counts : ∀ b < slots.pool.poolSize, slots.reserved b =
    slots.released b + if b ∈ slots.pool.freeIds then 0 else 1
  no_error : slots.errors = []

namespace SlotLedger

variable {slots slots' : HostSlots} {loose : Option Nat} {uid b : Nat}

theorem init (poolSize : Nat) : SlotLedger none (.init poolSize) where
  free_nodup := List.nodup_range
  free_lt := fun b hb => List.mem_range.mp hb
  taken := by simp [HostSlots.init]
  distinct := by simp [HostSlots.init]
  recorded := by
    intro b hb hfree
    exact absurd (List.mem_range.mpr hb) hfree
  loose_taken := by simp
  counts := by
    intro b hb
    have hfree : b ∈ (HostSlots.init poolSize).pool.freeIds := List.mem_range.mpr hb
    rw [if_pos hfree]
    rfl
  no_error := rfl

theorem reserve (h : SlotLedger none slots) (hreserve : slots.reserve = some (b, slots')) :
    SlotLedger (some b) slots' ∧ slots'.bufferId = slots.bufferId := by
  unfold HostSlots.reserve QueueHostKVPool.reserve at hreserve
  split at hreserve
  · cases hreserve
  · rename_i b' pool hpool
    split at hpool
    · cases hpool
    · rename_i rest hfree
      cases hpool
      cases hreserve
      have hnodup := h.free_nodup
      have hlt := h.free_lt
      have hcounts := h.counts
      rw [hfree] at hnodup hlt hcounts
      obtain ⟨hfirst, hrest⟩ := List.nodup_cons.mp hnodup
      refine ⟨⟨hrest, fun x hx => hlt x (List.mem_cons_of_mem _ hx), ?_, h.distinct, ?_, ?_, ?_,
        h.no_error⟩, rfl⟩
      · intro uid x hx
        obtain ⟨hxlt, hnot⟩ := h.taken uid x hx
        rw [hfree] at hnot
        exact ⟨hxlt, fun hmem => hnot (List.mem_cons_of_mem _ hmem)⟩
      · intro x hx hnot
        dsimp only at hx hnot
        by_cases heq : x = b
        · exact Or.inl (by rw [heq])
        · have hold : x ∉ slots.pool.freeIds := by
            rw [hfree, List.mem_cons, not_or]
            exact ⟨heq, hnot⟩
          rcases h.recorded x hx hold with hloose | huid
          · cases hloose
          · exact Or.inr huid
      · intro x hx
        cases hx
        refine ⟨hlt b List.mem_cons_self, hfirst, ?_⟩
        intro uid huid
        have hnot := (h.taken uid b huid).2
        rw [hfree] at hnot
        exact hnot List.mem_cons_self
      · intro x hx
        have hold := hcounts x hx
        dsimp only
        by_cases heq : x = b
        · subst heq
          rw [if_pos List.mem_cons_self] at hold
          rw [Function.update_self, if_neg hfirst, hold]
        · rw [Function.update_of_ne heq, hold]
          simp [heq]

theorem record (h : SlotLedger (some b) slots) (hnone : slots.bufferId uid = none) :
    SlotLedger none (slots.record uid (some b)) := by
  obtain ⟨hlt, hnot, hfresh⟩ := h.loose_taken b rfl
  refine ⟨h.free_nodup, h.free_lt, ?_, ?_, ?_, by simp, h.counts, h.no_error⟩
  · intro uid' b' hb'
    unfold HostSlots.record at hb' ⊢
    dsimp only at hb' ⊢
    by_cases heq : uid' = uid
    · subst heq
      rw [Function.update_self] at hb'
      cases hb'
      exact ⟨hlt, hnot⟩
    · rw [Function.update_of_ne heq] at hb'
      exact h.taken uid' b' hb'
  · intro uid₁ uid₂ b' h₁ h₂
    unfold HostSlots.record at h₁ h₂
    dsimp only at h₁ h₂
    by_cases heq₁ : uid₁ = uid <;> by_cases heq₂ : uid₂ = uid
    · rw [heq₁, heq₂]
    · subst heq₁
      rw [Function.update_self] at h₁
      rw [Function.update_of_ne heq₂] at h₂
      cases h₁
      exact absurd h₂ (hfresh uid₂)
    · subst heq₂
      rw [Function.update_of_ne heq₁] at h₁
      rw [Function.update_self] at h₂
      cases h₂
      exact absurd h₁ (hfresh uid₁)
    · rw [Function.update_of_ne heq₁] at h₁
      rw [Function.update_of_ne heq₂] at h₂
      exact h.distinct uid₁ uid₂ b' h₁ h₂
  · intro b' hb' hfree
    right
    unfold HostSlots.record
    dsimp only
    rcases h.recorded b' hb' hfree with hloose | ⟨uid', huid'⟩
    · cases hloose
      exact ⟨uid, Function.update_self ..⟩
    · have hne : uid' ≠ uid := by
        intro heq
        subst heq
        rw [hnone] at huid'
        cases huid'
      exact ⟨uid', by rw [Function.update_of_ne hne]; exact huid'⟩

theorem release (h : SlotLedger (some b) slots) :
    SlotLedger none (slots.release b) ∧ (slots.release b).bufferId = slots.bufferId := by
  obtain ⟨hlt, hnot, hfresh⟩ := h.loose_taken b rfl
  have hpool : slots.pool.release b =
      .ok { slots.pool with freeIds := slots.pool.freeIds ++ [b] } := by
    unfold QueueHostKVPool.release
    rw [if_neg hnot, if_neg (by simpa using hlt)]
  unfold HostSlots.release
  dsimp only
  rw [hpool]
  refine ⟨⟨?_, ?_, ?_, h.distinct, ?_, by simp, ?_, h.no_error⟩, rfl⟩
  · apply List.Nodup.append h.free_nodup (List.nodup_singleton b)
    intro x hx hxb
    rw [List.mem_singleton.mp hxb] at hx
    exact hnot hx
  · intro x hx
    rcases List.mem_append.mp hx with hx | hx
    · exact h.free_lt x hx
    · rw [List.mem_singleton.mp hx]
      exact hlt
  · intro uid x hx
    obtain ⟨hxlt, hxfree⟩ := h.taken uid x hx
    refine ⟨hxlt, ?_⟩
    intro hmem
    rcases List.mem_append.mp hmem with hmem | hmem
    · exact hxfree hmem
    · rw [List.mem_singleton.mp hmem] at hx
      exact hfresh uid hx
  · intro x hx hfree
    dsimp only at hx hfree
    rw [List.mem_append, List.mem_singleton, not_or] at hfree
    rcases h.recorded x hx hfree.1 with hloose | huid
    · cases hloose
      exact absurd rfl hfree.2
    · exact Or.inr huid
  · intro x hx
    have hold := h.counts x hx
    dsimp only at hx ⊢
    by_cases heq : x = b
    · subst heq
      rw [if_neg hnot] at hold
      rw [Function.update_self, hold, if_pos (List.mem_append_right _ (List.mem_singleton_self x))]
    · rw [Function.update_of_ne heq, hold]
      simp [heq]

/-- Clearing `disagg_host_buffer_id` leaves its slot to be released. -/
theorem unrecord (h : SlotLedger none slots) (hb : slots.bufferId uid = some b) :
    SlotLedger (some b)
      { slots with bufferId := Function.update slots.bufferId uid none } := by
  obtain ⟨hlt, hnot⟩ := h.taken uid b hb
  have hold : ∀ uid' b', Function.update slots.bufferId uid none uid' = some b' →
      uid' ≠ uid ∧ slots.bufferId uid' = some b' := by
    intro uid' b' hb'
    have hne : uid' ≠ uid := by
      intro heq
      subst heq
      rw [Function.update_self] at hb'
      cases hb'
    rw [Function.update_of_ne hne] at hb'
    exact ⟨hne, hb'⟩
  refine ⟨h.free_nodup, h.free_lt, ?_, ?_, ?_, ?_, h.counts, h.no_error⟩
  · intro uid' b' hb'
    exact h.taken uid' b' (hold uid' b' hb').2
  · intro uid₁ uid₂ b' h₁ h₂
    exact h.distinct uid₁ uid₂ b' (hold uid₁ b' h₁).2 (hold uid₂ b' h₂).2
  · intro b' hb' hfree
    rcases h.recorded b' hb' hfree with hloose | ⟨uid', huid'⟩
    · cases hloose
    · by_cases heq : uid' = uid
      · subst heq
        rw [huid'] at hb
        exact Or.inl hb.symm
      · exact Or.inr ⟨uid', by dsimp only; rw [Function.update_of_ne heq]; exact huid'⟩
  · intro b' hb'
    cases hb'
    refine ⟨hlt, hnot, ?_⟩
    intro uid' huid'
    obtain ⟨hne, huid'⟩ := hold uid' b huid'
    exact hne (h.distinct uid' uid b huid' hb)

theorem releasePrefillHostBuffer (h : SlotLedger none slots) (uid : Nat) :
    SlotLedger none (slots.releasePrefillHostBuffer uid) ∧
      (slots.releasePrefillHostBuffer uid).bufferId = Function.update slots.bufferId uid none := by
  unfold HostSlots.releasePrefillHostBuffer
  split
  · rename_i hnone
    refine ⟨h, ?_⟩
    rw [← hnone, Function.update_eq_self]
  · rename_i b hb
    exact (h.unrecord hb).release

theorem releaseReserved (h : SlotLedger loose slots) :
    SlotLedger none (slots.releaseReserved loose) ∧
      (slots.releaseReserved loose).bufferId = slots.bufferId := by
  unfold HostSlots.releaseReserved
  cases loose with
  | none => exact ⟨h, rfl⟩
  | some b => exact h.release

theorem recordReserved (h : SlotLedger loose slots) (hnone : slots.bufferId uid = none) :
    SlotLedger none (slots.record uid loose) := by
  cases loose with
  | none => exact h
  | some b => exact h.record hnone

theorem reserveHostSlotForPd (h : SlotLedger none slots) {room : Option Int}
    {reservedBid : Option Nat} (hnone : slots.bufferId uid = none)
    (hreserve : slots.reserveHostSlotForPd room uid = some (reservedBid, slots')) :
    SlotLedger reservedBid slots' ∧ slots'.bufferId = slots.bufferId ∧
      (reservedBid.isSome = room.isSome) := by
  unfold HostSlots.reserveHostSlotForPd at hreserve
  rw [hnone] at hreserve
  cases room with
  | none =>
    cases hreserve
    exact ⟨h, rfl, rfl⟩
  | some r =>
    simp only [Option.isNone_some, Option.isSome_none, Bool.or_self, Bool.false_eq_true,
      if_false, Option.map_eq_some_iff] at hreserve
    obtain ⟨⟨b, next⟩, hb, heq⟩ := hreserve
    cases heq
    obtain ⟨hledger, hsame⟩ := h.reserve hb
    exact ⟨hledger, hsame, rfl⟩

end SlotLedger

end SglJax.Managers
