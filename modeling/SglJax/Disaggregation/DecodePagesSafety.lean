import SglJax.Disaggregation.DecodePages

/-! The pages of a decode server stay with one holder each, as long as no waiting
request is made to drop the pages it received. -/
namespace SglJax.Disaggregation.DecodePages

open MemCache

/-! ### Holdings of a list -/

section Lists

variable {pool : PoolShape} {a : PoolAllocator} {hs : List Holding} {req : Req}

/-- Requests without slots may go. -/
theorem filter_holdings {reqs : List Req} (keep : Req → Bool)
    (held : PagesHeld pool a (reqs.map Req.holding ++ hs))
    (hnone : ∀ req ∈ reqs, keep req = false → req.indices = []) :
    PagesHeld pool a ((reqs.filter keep).map Req.holding ++ hs) := by
  induction reqs generalizing hs with
  | nil => exact held
  | cons req reqs ih =>
    have hrest : ∀ x ∈ reqs, keep x = false → x.indices = [] :=
      fun x hx => hnone x (List.mem_cons_of_mem _ hx)
    rw [List.map_cons, List.cons_append] at held
    by_cases hkeep : keep req
    · rw [List.filter_cons_of_pos hkeep, List.map_cons, List.cons_append]
      exact (ih (held.perm List.perm_middle.symm) hrest).perm List.perm_middle
    · rw [List.filter_cons_of_neg hkeep]
      exact ih (held.dropNothing (hnone req List.mem_cons_self (by simpa using hkeep))) hrest

theorem writeAll_holdings (batch : List Extend) (out : List Nat) :
    (Extend.writeAll batch out).map Req.holding =
      Holding.Extension.writeAll (batch.map fun e => ⟨e.req.holding, e.seqLen, e.le⟩) out := by
  induction batch generalizing out with
  | nil => rfl
  | cons e rest ih =>
    unfold Extend.writeAll
    rw [List.map_cons, ih]
    rfl

theorem writeAll_uids (batch : List Extend) (out : List Nat) :
    (Extend.writeAll batch out).map Req.uid = (batch.map Extend.req).map Req.uid := by
  induction batch generalizing out with
  | nil => rfl
  | cons e rest ih =>
    unfold Extend.writeAll
    rw [List.map_cons, ih]
    rfl

theorem writeAll_committed {batch : List Extend} {out : List Nat}
    (h : ∀ e ∈ batch, e.req.kvCommittedLen ≤ e.req.indices.length) :
    ∀ req ∈ Extend.writeAll batch out, req.kvCommittedLen ≤ req.indices.length := by
  induction batch generalizing out with
  | nil =>
    intro req hreq
    cases hreq
  | cons e rest ih =>
    intro req hreq
    unfold Extend.writeAll at hreq
    rcases List.mem_cons.mp hreq with rfl | hreq
    · have hle := h e List.mem_cons_self
      dsimp only
      rw [List.length_append]
      omega
    · exact ih (fun x hx => h x (List.mem_cons_of_mem _ hx)) req hreq

end Lists

/-! ### The invariant -/

/-- The request has no pages of its own. -/
structure Req.Fresh (req : Req) : Prop where
  indices : req.indices = []
  kvCommittedLen : req.kvCommittedLen = 0

/-- The entry has the whole pages for its prompt. -/
structure DecodeBookkeeping.Sized (pageSize : Nat) (entry : DecodeBookkeeping) : Prop where
  fresh : entry.req.Fresh
  sized : ∃ kvIndices, entry.kvIndices = some kvIndices ∧
    kvIndices.length = pagesFor pageSize entry.req.originLen * pageSize

/-- The entry was not admitted yet. -/
structure DecodeBookkeeping.Unstarted (entry : DecodeBookkeeping) : Prop where
  fresh : entry.req.Fresh
  kvIndices : entry.kvIndices = none

def DecodeBookkeeping.uid (entry : DecodeBookkeeping) : Nat := entry.req.uid

/-- The requests wherever they are. -/
def DecodeServer.uids (s : DecodeServer) : List Nat :=
  s.pendingBootstrap.map Req.uid ++ (s.preallocQueue.map DecodeBookkeeping.uid ++
    (s.transferQueue.map DecodeBookkeeping.uid ++
      (s.waitingQueue.map Req.uid ++ s.running.map Req.uid)))

structure Owned (pool : PoolShape) (s : DecodeServer) : Prop where
  pages : PagesHeld pool s.allocator s.holdings
  uids : s.uids.Nodup
  old : ∀ uid ∈ s.uids, uid < s.received
  pending : ∀ req ∈ s.pendingBootstrap, req.Fresh
  prealloc : ∀ entry ∈ s.preallocQueue, entry.Unstarted
  transfer : ∀ entry ∈ s.transferQueue, entry.Sized pool.pageSize
  waiting : ∀ req ∈ s.waitingQueue, req.kvCommittedLen = 0
  running : ∀ req ∈ s.running, req.kvCommittedLen ≤ req.indices.length

/-! ### The sweep -/

section Sweep

variable {pool : PoolShape} {settings : AdmitSettings} {sweep : AdmitSweep}
  {transferPerDp : Nat → Nat} {nTransfer : Nat} {entry : DecodeBookkeeping}
  {st st' : AdmitState} {rest : List Holding}

/-- What the sweep keeps of its state, beside the `rest` of the holdings. -/
structure Swept (pool : PoolShape) (rest : List Holding) (st : AdmitState) : Prop where
  pages : PagesHeld pool st.allocator (st.transferQueue.map DecodeBookkeeping.holding ++ rest)
  transfer : ∀ entry ∈ st.transferQueue, entry.Sized pool.pageSize

theorem addEntry_eq {entries entries' : List DecodeBookkeeping}
    (h : addEntry entries entry = some entries') : entries' = entries ++ [entry] := by
  unfold addEntry at h
  split at h
  · cases h
  · cases h
    rfl

/-- What a visit leaves: the transfer queue as it is, or with the entry in it. -/
theorem expire_cases (sweep : AdmitSweep) (entry : DecodeBookkeeping) (st : AdmitState) :
    expire sweep entry st = .leave st ∨ expire sweep entry st = .keep st := by
  unfold expire
  split
  · exact Or.inl rfl
  · exact Or.inr rfl

/-- The outcomes of a visit, when the transfer queue is `queue` before it. -/
structure Visited (pool : PoolShape) (rest : List Holding) (entry : DecodeBookkeeping)
    (queue : List DecodeBookkeeping) (visit : Visit) : Prop where
  keep : ∀ st', visit = .keep st' → Swept pool rest st' ∧ st'.transferQueue = queue
  leave : ∀ st', visit = .leave st' → Swept pool rest st' ∧
    (st'.transferQueue = queue ∨ ∃ kvIndices, st'.transferQueue = queue ++
      [{ entry with kvIndices := some kvIndices }])

theorem visited_stay (h : Swept pool rest st) {visit : Visit}
    (hvisit : visit = .leave st ∨ visit = .keep st) :
    Visited pool rest entry st.transferQueue visit where
  keep := by
    intro st' heq
    rcases hvisit with rfl | rfl
    · cases heq
    · cases heq
      exact ⟨h, rfl⟩
  leave := by
    intro st' heq
    rcases hvisit with rfl | rfl
    · cases heq
      exact ⟨h, Or.inl rfl⟩
    · cases heq

theorem visited_end {queue : List DecodeBookkeeping} {visit : Visit}
    (hvisit : visit = .stop ∨ visit = .raises) : Visited pool rest entry queue visit where
  keep := by
    intro st' heq
    rcases hvisit with rfl | rfl <;> cases heq
  leave := by
    intro st' heq
    rcases hvisit with rfl | rfl <;> cases heq

theorem visited_startTransfer (sweep : AdmitSweep) (hentry : entry.Unstarted)
    {kvIndices : List Nat}
    (hlen : kvIndices.length = pagesFor pool.pageSize entry.req.originLen * pool.pageSize)
    (hpages : PagesHeld pool st.allocator (⟨entry.req.dpRank, kvIndices⟩ ::
      (st.transferQueue.map DecodeBookkeeping.holding ++ rest)))
    (htransfer : ∀ entry ∈ st.transferQueue, entry.Sized pool.pageSize) :
    Visited pool rest entry st.transferQueue (startTransfer sweep entry kvIndices st) := by
  have hreleased : Swept pool rest
      { st with allocator := st.allocator.free kvIndices entry.req.dpRank } :=
    ⟨hpages.free, htransfer⟩
  unfold startTransfer
  dsimp only
  split
  · exact visited_stay hreleased (Or.inl rfl)
  · exact visited_stay hreleased (expire_cases ..)
  · split
    · exact visited_end (Or.inr rfl)
    · rename_i entries hadd
      have hentries := addEntry_eq hadd
      subst hentries
      constructor
      · intro st' heq
        cases heq
      · intro st' heq
        cases heq
        refine ⟨⟨?_, ?_⟩, Or.inr ⟨kvIndices, rfl⟩⟩
        · dsimp only
          rw [List.map_append, List.map_singleton, List.append_assoc, List.singleton_append]
          exact hpages.perm List.perm_middle.symm
        · intro x hx
          rcases List.mem_append.mp hx with hx | hx
          · exact htransfer x hx
          · rw [List.mem_singleton.mp hx]
            exact ⟨hentry.fresh, kvIndices, rfl, hlen⟩

theorem visited_admitEntry (settings : AdmitSettings) (sweep : AdmitSweep)
    (transferPerDp : Nat → Nat) (nTransfer : Nat) (h : Swept pool rest st)
    (hentry : entry.Unstarted) :
    Visited pool rest entry st.transferQueue
      (admitEntry settings sweep transferPerDp nTransfer entry st) := by
  have hblocked : ∀ a, PagesHeld pool a
      (st.transferQueue.map DecodeBookkeeping.holding ++ rest) →
      Swept pool rest (blockRank entry.req.dpRank { st with allocator := a }) :=
    fun a hpages => ⟨hpages, h.transfer⟩
  unfold admitEntry
  dsimp only
  split
  · exact visited_end (Or.inl rfl)
  split
  · exact visited_stay h (Or.inr rfl)
  split
  · exact visited_stay h (Or.inr rfl)
  split
  · exact visited_stay (hblocked _ h.pages) (Or.inr rfl)
  split
  · exact visited_stay h (expire_cases ..)
  rw [h.pages.pageSize]
  split
  · exact visited_end (Or.inr rfl)
  · rename_i allocator halloc
    exact visited_stay (hblocked allocator (h.pages.alloc halloc)) (Or.inr rfl)
  · rename_i allocator kvIndices halloc
    obtain ⟨hlen, hpages⟩ := h.pages.alloc halloc
    have hstart := @visited_startTransfer pool entry { st with allocator := allocator } rest sweep
      hentry kvIndices hlen hpages h.transfer
    exact hstart

/-- The loop keeps the pages with their holders and every request in one place. -/
theorem admitLoop_spec {todo left : List DecodeBookkeeping} (h : Swept pool rest st)
    (htodo : ∀ entry ∈ todo, entry.Unstarted)
    (heq : admitLoop settings sweep transferPerDp nTransfer todo st = some (left, st')) :
    Swept pool rest st' ∧ (∀ entry ∈ left, entry.Unstarted) ∧
      (left.map DecodeBookkeeping.uid ++ st'.transferQueue.map DecodeBookkeeping.uid).Subperm
        (todo.map DecodeBookkeeping.uid ++ st.transferQueue.map DecodeBookkeeping.uid) := by
  induction todo generalizing st left with
  | nil =>
    cases heq
    exact ⟨h, htodo, .refl _⟩
  | cons entry todo ih =>
    have hentry := htodo entry List.mem_cons_self
    have hrest : ∀ x ∈ todo, x.Unstarted := fun x hx => htodo x (List.mem_cons_of_mem _ hx)
    have hvisit := visited_admitEntry settings sweep transferPerDp nTransfer h hentry
    unfold admitLoop at heq
    split at heq
    · cases heq
      exact ⟨h, htodo, .refl _⟩
    · cases heq
    · rename_i next hnext
      obtain ⟨hswept, hsame⟩ := hvisit.keep next hnext
      obtain ⟨⟨left', st''⟩, hloop, hout⟩ := Option.map_eq_some_iff.mp heq
      cases hout
      obtain ⟨hdone, hleft, hsub⟩ := ih hswept hrest hloop
      rw [hsame] at hsub
      refine ⟨hdone, ?_, (List.subperm_cons entry.uid).mpr hsub⟩
      intro x hx
      rcases List.mem_cons.mp hx with rfl | hx
      · exact hentry
      · exact hleft x hx
    · rename_i next hnext
      obtain ⟨hswept, hmoved⟩ := hvisit.leave next hnext
      obtain ⟨hdone, hleft, hsub⟩ := ih hswept hrest heq
      refine ⟨hdone, hleft, hsub.trans ?_⟩
      rw [List.map_cons, List.cons_append]
      rcases hmoved with hsame | ⟨kvIndices, hadded⟩
      · rw [hsame]
        exact (List.sublist_cons_self _ _).subperm
      · rw [hadded, List.map_append, List.map_singleton, ← List.append_assoc]
        exact (List.perm_append_singleton _ _).subperm

end Sweep

namespace Owned

variable {pool : PoolShape} {settings : AdmitSettings} {s s' : DecodeServer} {req : Req}
  {others : List Req} {entry : DecodeBookkeeping} {rest queue : List DecodeBookkeeping}

theorem init {size pageSize dpSize : Nat} (hpage : 1 < pageSize) (hdp : 0 < dpSize)
    (hsize : size % (pageSize * dpSize) = 0) :
    Owned ⟨pageSize, size / pageSize / dpSize⟩ (.init size pageSize dpSize) where
  pages := PagesHeld.init hpage hdp hsize
  uids := List.nodup_nil
  old := by simp [DecodeServer.init, DecodeServer.uids]
  pending := by simp [DecodeServer.init]
  prealloc := by simp [DecodeServer.init]
  transfer := by simp [DecodeServer.init]
  waiting := by simp [DecodeServer.init]
  running := by simp [DecodeServer.init]

theorem sweep (h : Owned pool s) {sweep : AdmitSweep}
    (heq : s.admitDecodePrealloc settings sweep = some s') : Owned pool s' := by
  unfold DecodeServer.admitDecodePrealloc at heq
  obtain ⟨⟨left, st⟩, hloop, hout⟩ := Option.map_eq_some_iff.mp heq
  cases hout
  have hstart : Swept pool (s.waitingQueue.map Req.holding ++ s.running.map Req.holding)
      { allocator := s.allocator
        transferQueue := s.transferQueue
        admitted := 0
        admittedPerDp := fun _ => 0
        capacityBlockedRanks := [] } := ⟨h.pages, h.transfer⟩
  obtain ⟨hswept, hleft, hsub⟩ := admitLoop_spec hstart h.prealloc hloop
  dsimp only at hsub
  have huids : (s.pendingBootstrap.map Req.uid ++ (left.map DecodeBookkeeping.uid ++
      (st.transferQueue.map DecodeBookkeeping.uid ++
        (s.waitingQueue.map Req.uid ++ s.running.map Req.uid)))).Subperm s.uids := by
    unfold DecodeServer.uids
    apply (List.subperm_append_left _).mpr
    rw [← List.append_assoc, ← List.append_assoc (s.preallocQueue.map DecodeBookkeeping.uid)]
    exact (List.subperm_append_right _).mpr hsub
  constructor
  · exact hswept.pages
  · obtain ⟨uids, hperm, hsublist⟩ := huids
    exact hperm.nodup_iff.mp (hsublist.nodup h.uids)
  · exact fun uid huid => h.old uid (huids.subset huid)
  · exact h.pending
  · exact hleft
  · exact hswept.transfer
  · exact h.waiting
  · exact h.running

/-! ### The drain -/

theorem permTransfer (h : Owned pool s) (hperm : s.transferQueue.Perm queue) :
    Owned pool { s with transferQueue := queue } := by
  have huids : s.uids.Perm (DecodeServer.uids { s with transferQueue := queue }) := by
    unfold DecodeServer.uids
    exact (((hperm.map _).append_right _).append_left _).append_left _
  constructor
  · exact h.pages.perm ((hperm.map _).append_right _)
  · exact huids.nodup_iff.mp h.uids
  · exact fun uid huid => h.old uid (huids.mem_iff.mpr huid)
  · exact h.pending
  · exact h.prealloc
  · exact fun x hx => h.transfer x (hperm.mem_iff.mpr hx)
  · exact h.waiting
  · exact h.running

/-- The first entry leaves, and its pages with it. -/
theorem dropEntry (h : Owned pool { s with transferQueue := entry :: rest })
    {allocator : PoolAllocator}
    (hpages : PagesHeld pool allocator (rest.map DecodeBookkeeping.holding ++
      (s.waitingQueue.map Req.holding ++ s.running.map Req.holding))) :
    Owned pool { s with transferQueue := rest, allocator := allocator } := by
  have huids : (DecodeServer.uids { s with transferQueue := rest, allocator := allocator }).Sublist
      (DecodeServer.uids { s with transferQueue := entry :: rest }) := by
    unfold DecodeServer.uids
    dsimp only
    rw [List.map_cons, List.cons_append]
    exact ((List.sublist_cons_self _ _).append_left _).append_left _
  constructor
  · exact hpages
  · exact huids.nodup h.uids
  · exact fun uid huid => h.old uid (huids.subset huid)
  · exact h.pending
  · exact h.prealloc
  · exact fun x hx => h.transfer x (List.mem_cons_of_mem _ hx)
  · exact h.waiting
  · exact h.running

theorem releaseEntry (h : Owned pool { s with transferQueue := entry :: rest }) :
    Owned pool { s.releaseEntry entry with transferQueue := rest } := by
  obtain ⟨-, kvIndices, hkv, -⟩ := h.transfer entry List.mem_cons_self
  have hpages := h.pages
  unfold DecodeServer.holdings at hpages
  dsimp only at hpages
  rw [List.map_cons, List.cons_append] at hpages
  have hfreed := hpages.free
  unfold DecodeBookkeeping.holding at hfreed
  apply h.dropEntry
  unfold DecodeServer.releaseEntry releaseDecodeKvIndices
  rw [hkv] at hfreed ⊢
  exact hfreed

/-- The first entry leaves, and its request waits with what is left of its pages. -/
theorem enqueue (h : Owned pool { s with transferQueue := entry :: rest })
    {allocator : PoolAllocator} {kvIndices : List Nat}
    (hpages : PagesHeld pool allocator
      (⟨entry.req.dpRank, kvIndices.take (entry.req.originLen - 1)⟩ ::
        (rest.map DecodeBookkeeping.holding ++
          (s.waitingQueue.map Req.holding ++ s.running.map Req.holding)))) :
    Owned pool
      { DecodeServer.enqueueForDecode { s with allocator := allocator }
          (DecodeServer.setDecodeBookkeeping entry.req kvIndices) with transferQueue := rest } := by
  obtain ⟨hfresh, -⟩ := h.transfer entry List.mem_cons_self
  have hperm : (s.pendingBootstrap.map Req.uid ++ (s.preallocQueue.map DecodeBookkeeping.uid ++
      (rest.map DecodeBookkeeping.uid ++ ((s.waitingQueue ++
        [DecodeServer.setDecodeBookkeeping entry.req kvIndices]).map Req.uid ++
          s.running.map Req.uid)))).Perm
      (DecodeServer.uids { s with transferQueue := entry :: rest }) := by
    unfold DecodeServer.uids
    dsimp only
    rw [List.map_append, List.map_singleton, List.append_assoc, List.map_cons, List.cons_append]
    apply (List.Perm.append_left _ (List.Perm.append_left _ _))
    rw [← List.append_assoc, ← List.append_assoc]
    exact List.perm_middle
  have hnew : entry.uid ∉ s.waitingQueue.map Req.uid := by
    intro hmem
    have hnodup := h.uids
    unfold DecodeServer.uids at hnodup
    dsimp only at hnodup
    have hinner := (List.nodup_append.mp (List.nodup_append.mp hnodup).2.1).2.1
    rw [List.map_cons, List.cons_append] at hinner
    apply (List.nodup_cons.mp hinner).1
    exact List.mem_append_right _ (List.mem_append_left _ hmem)
  have hnot : ¬ (DecodeServer.setDecodeBookkeeping entry.req kvIndices).uid ∈
      s.waitingQueue.map Req.uid := hnew
  unfold DecodeServer.enqueueForDecode
  rw [if_neg hnot]
  constructor
  · unfold DecodeServer.holdings
    dsimp only
    rw [List.map_append, List.map_singleton, List.append_assoc]
    apply hpages.perm
    rw [← List.append_assoc, ← List.append_assoc, List.singleton_append]
    exact List.perm_middle.symm
  · exact hperm.nodup_iff.mpr h.uids
  · exact fun uid huid => h.old uid (hperm.mem_iff.mp huid)
  · exact h.pending
  · exact h.prealloc
  · exact fun x hx => h.transfer x (List.mem_cons_of_mem _ hx)
  · intro x hx
    rcases List.mem_append.mp hx with hx | hx
    · exact h.waiting x hx
    · rw [List.mem_singleton.mp hx]
      exact hfresh.kvCommittedLen
  · exact h.running

end Owned

/-- The last token of a prompt starts no page of its own. -/
theorem pagesFor_pred {pageSize n : Nat} (hpage : 0 < pageSize)
    (h : n = 0 ∨ (n - 1) % pageSize ≠ 0) : pagesFor pageSize (n - 1) = pagesFor pageSize n := by
  rcases h with rfl | hrest
  · rfl
  · obtain ⟨m, rfl⟩ : ∃ m, n = m + 1 := by
      refine ⟨n - 1, ?_⟩
      have hpos : n ≠ 0 := by
        rintro rfl
        exact hrest (Nat.zero_mod _)
      omega
    rw [Nat.add_sub_cancel] at hrest ⊢
    have hlt := Nat.mod_lt m hpage
    have hold := pagesFor_add_mul hpage (m / pageSize) (m % pageSize)
    have hnew := pagesFor_add_mul hpage (m / pageSize) (m % pageSize + 1)
    have hsplit : m / pageSize * pageSize + m % pageSize = m := Nat.div_add_mod' m pageSize
    rw [hsplit, pagesFor_of_le (Nat.pos_of_ne_zero hrest) hlt.le] at hold
    rw [← Nat.add_assoc, hsplit, pagesFor_of_le (Nat.succ_pos _) hlt] at hnew
    rw [hold, hnew]

namespace Owned

variable {pool : PoolShape} {s s' : DecodeServer} {entry : DecodeBookkeeping}
  {rest queue : List DecodeBookkeeping}

theorem install (h : Owned pool { s with transferQueue := entry :: rest }) :
    Owned pool { s.install entry with transferQueue := rest } := by
  obtain ⟨-, kvIndices, hkv, hlen⟩ := h.transfer entry List.mem_cons_self
  have hpage := h.pages.page_pos
  have hle := le_pagesFor_mul hpage entry.req.originLen
  have hpages := h.pages
  unfold DecodeServer.holdings at hpages
  dsimp only at hpages
  rw [List.map_cons, List.cons_append] at hpages
  unfold DecodeBookkeeping.holding at hpages
  rw [hkv, Option.getD_some] at hpages
  have hsize : s.allocator.pageSize = pool.pageSize := h.pages.pageSize
  have hroom : entry.req.originLen - 1 ≤ kvIndices.length := by omega
  unfold DecodeServer.install
  rw [hkv]
  dsimp only
  rw [hsize]
  split
  · rename_i htail
    have hsplit := hpages.split hroom htail.2
    apply h.enqueue
    rw [List.take_take, Nat.min_self]
    exact (hsplit.perm (List.Perm.swap _ _ _)).free
  · rename_i htail
    apply h.enqueue
    apply hpages.shorten hroom
    dsimp only
    rw [hlen, pagesFor_pred hpage (by omega)]

end Owned

theorem finalize_cases (receivers : DecodeServer.Receivers) (s : DecodeServer)
    (entry : DecodeBookkeeping) :
    DecodeServer.finalize receivers s entry = s.releaseEntry entry ∨
      DecodeServer.finalize receivers s entry = s.install entry := by
  unfold DecodeServer.finalize
  split
  · exact Or.inl rfl
  split
  · split
    · exact Or.inl rfl
    · exact Or.inr rfl
  · exact Or.inl rfl

theorem Owned.finalize {pool : PoolShape} {s : DecodeServer} {entry : DecodeBookkeeping}
    {rest : List DecodeBookkeeping} (h : Owned pool { s with transferQueue := entry :: rest })
    (receivers : DecodeServer.Receivers) :
    Owned pool { DecodeServer.finalize receivers s entry with transferQueue := rest } := by
  rcases finalize_cases receivers s entry with heq | heq
  · rw [heq]
    exact h.releaseEntry
  · rw [heq]
    exact h.install

theorem finalize_transferQueue (receivers : DecodeServer.Receivers) (s : DecodeServer)
    (entry : DecodeBookkeeping) :
    (DecodeServer.finalize receivers s entry).transferQueue = s.transferQueue := by
  have henqueue : ∀ (t : DecodeServer) (req : Req),
      (t.enqueueForDecode req).transferQueue = t.transferQueue := by
    intro t req
    unfold DecodeServer.enqueueForDecode
    split <;> rfl
  rcases finalize_cases receivers s entry with heq | heq
  · rw [heq]
    rfl
  · rw [heq]
    unfold DecodeServer.install
    split
    · rfl
    · dsimp only
      split <;> rw [henqueue]

theorem drainLoop_perm {α : Type} {poll : α → PollResult} {canRelease : α → Bool}
    {entries out left : List α} (h : drainLoop poll canRelease entries = (.ok out, left)) :
    entries.Perm (out ++ left) := by
  induction entries generalizing out left with
  | nil =>
    cases h
    exact .refl _
  | cons entry rest ih =>
    unfold drainLoop at h
    split at h
    · cases h
    · rename_i state hstate
      dsimp only at h
      cases hrest : drainLoop poll canRelease rest with
      | mk result after =>
        rw [hrest] at h
        cases result with
        | error e => split at h <;> cases h
        | ok out' =>
          split at h
          · cases h
            exact (ih hrest).cons entry
          · cases h
            exact ((ih hrest).cons entry).trans List.perm_middle.symm

theorem Owned.drain {pool : PoolShape} {s s' : DecodeServer} (h : Owned pool s)
    {receivers : DecodeServer.Receivers}
    (heq : s.drainDecodeTransferTerminals receivers = some s') : Owned pool s' := by
  have hall : ∀ (out : List DecodeBookkeeping) (t : DecodeServer),
      Owned pool { t with transferQueue := out ++ t.transferQueue } →
      Owned pool (out.foldl (DecodeServer.finalize receivers) t) := by
    intro out
    induction out with
    | nil => exact fun t ht => ht
    | cons entry rest ih =>
      intro t ht
      rw [List.foldl_cons]
      apply ih
      rw [finalize_transferQueue]
      exact ht.finalize receivers
  unfold DecodeServer.drainDecodeTransferTerminals at heq
  split at heq
  · cases heq
  · rename_i out left hloop
    cases heq
    apply hall
    exact h.permTransfer (drainLoop_perm hloop)

end SglJax.Disaggregation.DecodePages
