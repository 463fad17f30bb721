import SglJax.Disaggregation.DecodePagesSafety

/-! The pages over whole runs of the decode server. -/
namespace SglJax.Disaggregation.DecodePages

open MemCache

/-- The holdings with those of the waiting requests first. -/
theorem holdings_waiting (s : DecodeServer) :
    s.holdings.Perm (s.waitingQueue.map Req.holding ++
      (s.transferQueue.map DecodeBookkeeping.holding ++ s.running.map Req.holding)) := by
  unfold DecodeServer.holdings
  rw [← List.append_assoc, ← List.append_assoc]
  exact List.perm_append_comm.append_right _

theorem holdings_running (s : DecodeServer) :
    s.holdings.Perm (s.running.map Req.holding ++
      (s.transferQueue.map DecodeBookkeeping.holding ++ s.waitingQueue.map Req.holding)) := by
  unfold DecodeServer.holdings
  rw [← List.append_assoc]
  exact List.perm_append_comm

namespace Owned

variable {pool : PoolShape} {settings : AdmitSettings} {s s' : DecodeServer} {req : Req}
  {todo others : List Req}

/-! ### Intake -/

theorem receive (h : Owned pool s) (huid : req.uid = s.received) (hindices : req.indices = [])
    (hcommitted : req.kvCommittedLen = 0) :
    Owned pool
      { s with waitingQueue := s.waitingQueue ++ [req], received := s.received + 1 } := by
  have hperm : (DecodeServer.uids
      { s with waitingQueue := s.waitingQueue ++ [req], received := s.received + 1 }).Perm
      (req.uid :: s.uids) := by
    unfold DecodeServer.uids
    dsimp only
    rw [List.map_append, List.map_singleton]
    simp only [List.append_assoc, List.singleton_append]
    simp only [← List.append_assoc]
    exact List.perm_middle
  constructor
  · have hmore := h.pages.nothing req.dpRank
    unfold DecodeServer.holdings at hmore ⊢
    dsimp only
    rw [List.map_append, List.map_singleton, List.append_assoc, List.singleton_append]
    unfold Req.holding
    rw [hindices]
    apply hmore.perm
    rw [← List.append_assoc, ← List.append_assoc]
    exact List.perm_middle.symm
  · rw [hperm.nodup_iff, List.nodup_cons]
    refine ⟨?_, h.uids⟩
    intro hmem
    have hlt := h.old _ hmem
    omega
  · intro uid hmem
    rw [hperm.mem_iff, List.mem_cons] at hmem
    dsimp only
    rcases hmem with rfl | hmem
    · omega
    · have hlt := h.old uid hmem
      omega
  · exact h.pending
  · exact h.prealloc
  · exact h.transfer
  · intro x hx
    rcases List.mem_append.mp hx with hx | hx
    · exact h.waiting x hx
    · rw [List.mem_singleton.mp hx]
      exact hcommitted
  · exact h.running

/-- The new requests leave the waiting queue, with nothing in their hands. -/
theorem extract (h : Owned pool s) {rids : List String}
    (hok : KeepsPrefixes s (.route rids)) :
    Owned pool
      { s with
        waitingQueue := s.waitingQueue.filter fun req => !DecodeServer.isExtracted rids req
        pendingBootstrap :=
          s.pendingBootstrap ++ s.waitingQueue.filter (DecodeServer.isExtracted rids) } := by
  have hwaiting := List.filter_append_perm (DecodeServer.isExtracted rids) s.waitingQueue
  have hperm : (DecodeServer.uids
      { s with
        waitingQueue := s.waitingQueue.filter fun req => !DecodeServer.isExtracted rids req
        pendingBootstrap :=
          s.pendingBootstrap ++ s.waitingQueue.filter (DecodeServer.isExtracted rids) }).Perm
      s.uids := by
    have hmap := hwaiting.map Req.uid
    rw [List.map_append] at hmap
    unfold DecodeServer.uids
    dsimp only
    rw [List.map_append, List.append_assoc]
    apply List.Perm.append_left
    rw [← List.append_assoc, ← List.append_assoc, ← List.append_assoc, ← List.append_assoc,
      ← List.append_assoc]
    apply List.Perm.append_right
    refine List.Perm.trans ?_ (hmap.append_left _)
    rw [← List.append_assoc]
    apply List.Perm.append_right
    rw [List.append_assoc]
    exact List.perm_append_comm
  constructor
  · have hpages := h.pages.perm (holdings_waiting s)
    have hkept := filter_holdings (fun req => !DecodeServer.isExtracted rids req) hpages (by
      intro x hx hdropped
      apply hok x hx
      simpa using hdropped)
    exact hkept.perm (holdings_waiting { s with
      waitingQueue := s.waitingQueue.filter fun req => !DecodeServer.isExtracted rids req }).symm
  · exact hperm.nodup_iff.mpr h.uids
  · exact fun uid huid => h.old uid (hperm.mem_iff.mp huid)
  · intro x hx
    rcases List.mem_append.mp hx with hx | hx
    · exact h.pending x hx
    · obtain ⟨hmem, hextracted⟩ := List.mem_filter.mp hx
      exact ⟨hok x hmem hextracted, h.waiting x hmem⟩
  · exact h.prealloc
  · exact h.transfer
  · exact fun x hx => h.waiting x (List.mem_of_mem_filter hx)
  · exact h.running

theorem routeOne (peer : Nat → Peer)
    (h : Owned pool { s with pendingBootstrap := req :: todo ++ s.pendingBootstrap })
    (heq : DecodeServer.routeOne peer s req = some s') :
    Owned pool { s' with pendingBootstrap := todo ++ s'.pendingBootstrap } := by
  have hfresh : req.Fresh := h.pending req List.mem_cons_self
  unfold DecodeServer.routeOne at heq
  split at heq
  · cases heq
    have huids : (DecodeServer.uids { s with pendingBootstrap := todo ++ s.pendingBootstrap }).Sublist
        (DecodeServer.uids { s with pendingBootstrap := req :: todo ++ s.pendingBootstrap }) :=
      List.sublist_cons_self _ _
    exact
      { pages := h.pages
        uids := huids.nodup h.uids
        old := fun uid huid => h.old uid (huids.subset huid)
        pending := fun x hx => h.pending x (List.mem_cons_of_mem _ hx)
        prealloc := h.prealloc
        transfer := h.transfer
        waiting := h.waiting
        running := h.running }
  · cases heq
    have hmoved : (todo ++ (s.pendingBootstrap ++ [req])).Perm
        (req :: todo ++ s.pendingBootstrap) := by
      rw [← List.append_assoc]
      exact List.perm_append_singleton req _
    have huids : (DecodeServer.uids
        { s with pendingBootstrap := todo ++ (s.pendingBootstrap ++ [req]) }).Perm
        (DecodeServer.uids { s with pendingBootstrap := req :: todo ++ s.pendingBootstrap }) :=
      (hmoved.map Req.uid).append_right _
    exact
      { pages := h.pages
        uids := huids.nodup_iff.mpr h.uids
        old := fun uid huid => h.old uid (huids.mem_iff.mp huid)
        pending := fun x hx => h.pending x (hmoved.mem_iff.mp hx)
        prealloc := h.prealloc
        transfer := h.transfer
        waiting := h.waiting
        running := h.running }
  · obtain ⟨entries, hadd, hout⟩ := Option.map_eq_some_iff.mp heq
    cases hout
    have hentries := addEntry_eq hadd
    subst hentries
    have huids : (DecodeServer.uids
        { s with
          pendingBootstrap := todo ++ s.pendingBootstrap
          preallocQueue := s.preallocQueue ++ [⟨req, none, false⟩] }).Perm
        (DecodeServer.uids { s with pendingBootstrap := req :: todo ++ s.pendingBootstrap }) := by
      have hentries : ((s.preallocQueue ++ [(⟨req, none, false⟩ : DecodeBookkeeping)]).map
          DecodeBookkeeping.uid).Perm (req.uid :: s.preallocQueue.map DecodeBookkeeping.uid) := by
        rw [List.map_append]
        exact List.perm_append_singleton _ _
      unfold DecodeServer.uids
      dsimp only
      exact ((hentries.append_right _).append_left _).trans List.perm_middle
    exact
      { pages := h.pages
        uids := huids.nodup_iff.mpr h.uids
        old := fun uid huid => h.old uid (huids.mem_iff.mp huid)
        pending := fun x hx => h.pending x (List.mem_cons_of_mem _ hx)
        prealloc := by
          intro x hx
          rcases List.mem_append.mp hx with hx | hx
          · exact h.prealloc x hx
          · rw [List.mem_singleton.mp hx]
            exact ⟨hfresh, rfl⟩
        transfer := h.transfer
        waiting := h.waiting
        running := h.running }

theorem route (h : Owned pool s) {rids : List String} {peer : Nat → Peer}
    (hok : KeepsPrefixes s (.route rids)) (heq : s.route rids peer = some s') :
    Owned pool s' := by
  have hall : ∀ (todo : List Req) (t : DecodeServer),
      Owned pool { t with pendingBootstrap := todo ++ t.pendingBootstrap } →
      todo.foldlM (DecodeServer.routeOne peer) t = some s' → Owned pool s' := by
    intro todo
    induction todo with
    | nil =>
      intro t ht hfold
      cases hfold
      exact ht
    | cons req rest ih =>
      intro t ht hfold
      rw [List.foldlM_cons] at hfold
      obtain ⟨next, hnext, hrest⟩ := Option.bind_eq_some_iff.mp hfold
      exact ih next (ht.routeOne peer hnext) hrest
  apply hall _ _ _ heq
  rw [List.append_nil]
  exact h.extract hok

/-! ### Aborts -/

theorem abort (h : Owned pool s) {recvReq : AbortReq} (hok : KeepsPrefixes s (.abort recvReq)) :
    Owned pool (s.abortRequest recvReq) := by
  -- an entry that was not admitted has no pages to give back
  have hallocator : ∀ (out : List DecodeBookkeeping) (a : PoolAllocator),
      (∀ entry ∈ out, entry.Unstarted) →
      out.foldl (fun a entry => releaseDecodeKvIndices a entry.kvIndices entry.req.dpRank) a = a := by
    intro out
    induction out with
    | nil => exact fun a _ => rfl
    | cons entry rest ih =>
      intro a hout
      rw [List.foldl_cons, (hout entry List.mem_cons_self).kvIndices]
      exact ih a fun x hx => hout x (List.mem_cons_of_mem _ hx)
  have hsame : ∀ (entry : DecodeBookkeeping),
      (if recvReq.hits entry.req then { entry with cancelled := true } else entry).holding =
        entry.holding ∧
      (if recvReq.hits entry.req then { entry with cancelled := true } else entry).uid =
        entry.uid := by
    intro entry
    split <;> exact ⟨rfl, rfl⟩
  have huids : (s.abortRequest recvReq).uids.Sublist s.uids := by
    unfold DecodeServer.uids DecodeServer.abortRequest
    dsimp only
    rw [List.map_map]
    have htransfer : s.transferQueue.map (DecodeBookkeeping.uid ∘ fun entry =>
        if recvReq.hits entry.req then { entry with cancelled := true } else entry) =
        s.transferQueue.map DecodeBookkeeping.uid :=
      List.map_congr_left fun entry _ => (hsame entry).2
    rw [htransfer]
    exact (List.filter_sublist.map _).append ((List.filter_sublist.map _).append
      ((List.Sublist.refl _).append ((List.filter_sublist.map _).append (List.Sublist.refl _))))
  constructor
  · unfold DecodeServer.holdings DecodeServer.abortRequest
    dsimp only
    rw [hallocator _ _ fun x hx => h.prealloc x (List.mem_of_mem_filter hx), List.map_map]
    have htransfer : s.transferQueue.map (DecodeBookkeeping.holding ∘ fun entry =>
        if recvReq.hits entry.req then { entry with cancelled := true } else entry) =
        s.transferQueue.map DecodeBookkeeping.holding :=
      List.map_congr_left fun entry _ => (hsame entry).1
    rw [htransfer]
    have hpages := h.pages.perm (holdings_waiting s)
    have hkept := filter_holdings (fun req => !recvReq.hits req) hpages (by
      intro x hx hdropped
      apply hok x hx
      simpa using hdropped)
    apply hkept.perm
    rw [← List.append_assoc, ← List.append_assoc]
    exact List.perm_append_comm.append_right _
  · exact huids.nodup h.uids
  · exact fun uid huid => h.old uid (huids.subset huid)
  · exact fun x hx => h.pending x (List.mem_of_mem_filter hx)
  · exact fun x hx => h.prealloc x (List.mem_of_mem_filter hx)
  · intro x hx
    obtain ⟨entry, hentry, rfl⟩ := List.mem_map.mp hx
    obtain ⟨hfresh, kvIndices, hkv, hlen⟩ := h.transfer entry hentry
    split
    · exact ⟨hfresh, kvIndices, hkv, hlen⟩
    · exact ⟨hfresh, kvIndices, hkv, hlen⟩
  · exact fun x hx => h.waiting x (List.mem_of_mem_filter hx)
  · exact h.running

/-! ### Batches -/

/-- A change of the waiting and the running requests and of the allocator. -/
theorem setReqs (h : Owned pool s) {allocator : PoolAllocator} {waiting running : List Req}
    (hpages : PagesHeld pool allocator (s.transferQueue.map DecodeBookkeeping.holding ++
      (waiting.map Req.holding ++ running.map Req.holding)))
    (huids : (waiting.map Req.uid ++ running.map Req.uid).Subperm
      (s.waitingQueue.map Req.uid ++ s.running.map Req.uid))
    (hwaiting : ∀ req ∈ waiting, req.kvCommittedLen = 0)
    (hrunning : ∀ req ∈ running, req.kvCommittedLen ≤ req.indices.length) :
    Owned pool
      { s with allocator := allocator, waitingQueue := waiting, running := running } := by
  have hall : (DecodeServer.uids
      { s with allocator := allocator, waitingQueue := waiting, running := running }).Subperm
      s.uids := by
    unfold DecodeServer.uids
    exact (List.subperm_append_left _).mpr ((List.subperm_append_left _).mpr
      ((List.subperm_append_left _).mpr huids))
  constructor
  · exact hpages
  · obtain ⟨uids, hperm, hsublist⟩ := hall
    exact hperm.nodup_iff.mp (hsublist.nodup h.uids)
  · exact fun uid huid => h.old uid (hall.subset huid)
  · exact h.pending
  · exact h.prealloc
  · exact h.transfer
  · exact hwaiting
  · exact hrunning

/-- What a look leaves as it is. -/
theorem initNextRoundInput_same (req : Req) (hok : req.pdSkipPrefixMatch = true ∨ req.indices = []) :
    req.initNextRoundInput.holding = req.holding ∧ req.initNextRoundInput.uid = req.uid ∧
      req.initNextRoundInput.kvCommittedLen = req.kvCommittedLen := by
  have hdrop : ∀ skip, req.pdSkipPrefixMatch = skip → skip = false →
      { req with indices := [] }.holding = req.holding := by
    intro skip hskip hfalse
    have hnone : req.indices = [] := by
      rcases hok with hset | hnone
      · rw [hskip, hfalse] at hset
        cases hset
      · exact hnone
    unfold Req.holding
    rw [hnone]
  unfold Req.initNextRoundInput
  split
  · exact ⟨rfl, rfl, rfl⟩
  · rename_i hskip
    have hnone := hdrop _ rfl (by simpa using hskip)
    split
    · split
      · exact ⟨hnone, rfl, rfl⟩
      · exact ⟨rfl, rfl, rfl⟩
    · exact ⟨hnone, rfl, rfl⟩

theorem pass (h : Owned pool s) (hperm : s.waitingQueue.Perm (req :: others))
    (hok : KeepsPrefixes s (.look req)) :
    Owned pool { s with waitingQueue := req.initNextRoundInput :: others } := by
  obtain ⟨hholding, huid, hcommitted⟩ := initNextRoundInput_same req hok
  apply h.setReqs
  · apply h.pages.perm
    unfold DecodeServer.holdings
    rw [List.map_cons, hholding, ← List.map_cons]
    exact ((hperm.map _).append_right _).append_left _
  · rw [List.map_cons, huid, ← List.map_cons]
    exact ((hperm.symm.map _).append_right _).subperm
  · intro x hx
    rcases List.mem_cons.mp hx with rfl | hx
    · rw [hcommitted]
      exact h.waiting req (hperm.mem_iff.mpr List.mem_cons_self)
    · exact h.waiting x (hperm.mem_iff.mpr (List.mem_cons_of_mem _ hx))
  · exact h.running

theorem admitted (h : Owned pool s) (hperm : s.waitingQueue.Perm (req :: others))
    (hok : KeepsPrefixes s (.look req)) :
    Owned pool
      { s with waitingQueue := others, running := req.initNextRoundInput :: s.running } := by
  obtain ⟨hholding, huid, hcommitted⟩ := initNextRoundInput_same req hok
  apply h.setReqs
  · apply h.pages.perm
    unfold DecodeServer.holdings
    rw [List.map_cons, hholding]
    exact (((hperm.map _).append_right _).trans List.perm_middle.symm).append_left _
  · rw [List.map_cons, huid]
    exact (List.perm_middle.trans ((hperm.symm.map _).append_right _)).subperm
  · exact fun x hx => h.waiting x (hperm.mem_iff.mpr (List.mem_cons_of_mem _ hx))
  · intro x hx
    rcases List.mem_cons.mp hx with rfl | hx
    · rw [hcommitted, h.waiting req (hperm.mem_iff.mpr List.mem_cons_self)]
      exact Nat.zero_le _
    · exact h.running x hx

theorem extend (h : Owned pool s) {batch : List Extend}
    (hperm : s.running.Perm (batch.map Extend.req ++ others)) {dpRank : Nat}
    (hrank : ∀ e ∈ batch, e.req.dpRank = dpRank) {allocator : PoolAllocator} {out : List Nat}
    (heq : s.allocator.allocExtend (batch.map Extend.toExtend)
      (batch.map Extend.extendLen).sum dpRank = .ok (allocator, some out)) :
    Owned pool
      { s with allocator := allocator, running := Extend.writeAll batch out ++ others } := by
  let extension : Extend → Holding.Extension := fun e => ⟨e.req.holding, e.seqLen, e.le⟩
  have hheld : (batch.map extension).map Holding.Extension.held =
      (batch.map Extend.req).map Req.holding := by
    rw [List.map_map, List.map_map]
    rfl
  have hseqs : (batch.map extension).map Holding.Extension.toExtend =
      batch.map Extend.toExtend := by
    rw [List.map_map]
    rfl
  have hlens : ((batch.map Extend.toExtend).map ExtendSeq.extendLen).sum =
      (batch.map Extend.extendLen).sum := by
    rw [List.map_map]
    rfl
  have hpages := h.pages.perm (((holdings_running s).trans ((hperm.map _).append_right _)))
  rw [List.map_append, List.append_assoc] at hpages
  have hgrown := hpages.allocExtend hheld
    (by
      intro x hx
      obtain ⟨e, he, rfl⟩ := List.mem_map.mp hx
      exact hrank e he)
    (by
      rw [hseqs, hlens]
      exact heq)
  rw [← writeAll_holdings] at hgrown
  apply h.setReqs
  · apply hgrown.perm
    rw [← List.append_assoc, ← List.map_append]
    exact (holdings_running
      { s with allocator := allocator, running := Extend.writeAll batch out ++ others }).symm
  · rw [List.map_append, writeAll_uids, ← List.map_append]
    exact ((hperm.symm.map _).append_left _).subperm
  · exact h.waiting
  · have hold : ∀ x ∈ batch.map Extend.req ++ others, x.kvCommittedLen ≤ x.indices.length :=
      fun x hx => h.running x (hperm.mem_iff.mpr hx)
    intro x hx
    rcases List.mem_append.mp hx with hx | hx
    · apply writeAll_committed _ x hx
      intro e he
      exact hold e.req (List.mem_append_left _ (List.mem_map_of_mem he))
    · exact hold x (List.mem_append_right _ hx)

theorem decode (h : Owned pool s) {batch : List Decode}
    (hperm : s.running.Perm (batch.map Decode.req ++ others)) {dpRank : Nat}
    (hrank : ∀ d ∈ batch, d.req.dpRank = dpRank) {allocator : PoolAllocator} {out : List Nat}
    (heq : s.allocator.allocDecode (batch.map Decode.toDecode) dpRank =
      .ok (allocator, some out)) :
    Owned pool
      { s with
        allocator := allocator
        running := Extend.writeAll (batch.map Decode.toExtend) out ++ others } := by
  have hpos : 0 < s.allocator.pageSize := by
    rw [h.pages.pageSize]
    exact h.pages.page_pos
  have hreqs : batch.map Decode.req = (batch.map Decode.toExtend).map Extend.req := by
    rw [List.map_map]
    rfl
  have hseqs : (batch.map Decode.toDecode).map DecodeSeq.toExtend =
      (batch.map Decode.toExtend).map Extend.toExtend := by
    rw [List.map_map, List.map_map]
    rfl
  have hlens : ((batch.map Decode.toExtend).map Extend.toExtend).map ExtendSeq.extendLen =
      (batch.map Decode.toExtend).map Extend.extendLen := by
    rw [List.map_map]
    rfl
  rw [PoolAllocator.allocDecode_eq hpos, hseqs, hlens] at heq
  rw [hreqs] at hperm
  apply h.extend hperm _ heq
  intro e he
  obtain ⟨d, hd, rfl⟩ := List.mem_map.mp he
  exact hrank d hd

theorem commit (h : Owned pool s) (hperm : s.running.Perm (req :: others))
    {kvCommittedLen : Nat} (outputLen : Nat) (hle : kvCommittedLen ≤ req.indices.length) :
    Owned pool
      { s with running :=
        { req with kvCommittedLen := kvCommittedLen, outputLen := outputLen } :: others } := by
  apply h.setReqs
  · apply h.pages.perm
    exact ((hperm.map _).append_left _).append_left _
  · have huids : (s.waitingQueue.map Req.uid ++ (req :: others).map Req.uid).Subperm
        (s.waitingQueue.map Req.uid ++ s.running.map Req.uid) :=
      ((hperm.symm.map _).append_left _).subperm
    exact huids
  · exact h.waiting
  · intro x hx
    rcases List.mem_cons.mp hx with rfl | hx
    · exact hle
    · exact h.running x (hperm.mem_iff.mpr (List.mem_cons_of_mem _ hx))

/-- The pages of a running request are given back. -/
theorem releasePages (h : Owned pool s) (hperm : s.running.Perm (req :: others))
    {allocator : PoolAllocator} {allowOverallocated : Bool}
    (heq : ChunkCache.releaseKvCache s.allocator req.indices req.kvCommittedLen req.dpRank
      allowOverallocated = .ok allocator) :
    PagesHeld pool allocator (others.map Req.holding ++
      (s.transferQueue.map DecodeBookkeeping.holding ++ s.waitingQueue.map Req.holding)) := by
  have hle := h.running req (hperm.mem_iff.mpr List.mem_cons_self)
  have hpages := h.pages.perm ((holdings_running s).trans ((hperm.map _).append_right _))
  exact hpages.releaseKvCache hle heq

theorem release (h : Owned pool s) (hperm : s.running.Perm (req :: others))
    {allocator : PoolAllocator} {allowOverallocated : Bool}
    (heq : ChunkCache.releaseKvCache s.allocator req.indices req.kvCommittedLen req.dpRank
      allowOverallocated = .ok allocator) :
    Owned pool { s with allocator := allocator, running := others } := by
  apply h.setReqs
  · exact (h.releasePages hperm heq).perm
      (holdings_running { s with allocator := allocator, running := others }).symm
  · rw [(hperm.map Req.uid).append_left _ |>.subperm_left]
    exact ((List.sublist_cons_self _ _).append_left _).subperm
  · exact h.waiting
  · exact fun x hx => h.running x (hperm.mem_iff.mpr (List.mem_cons_of_mem _ hx))

theorem retract (h : Owned pool s) (hperm : s.running.Perm (req :: others))
    {allocator : PoolAllocator} {allowOverallocated : Bool}
    (heq : ChunkCache.releaseKvCache s.allocator req.indices req.kvCommittedLen req.dpRank
      allowOverallocated = .ok allocator) :
    Owned pool
      { s with
        allocator := allocator
        running := others
        waitingQueue := s.waitingQueue ++ [req.resetForRetract] } := by
  apply h.setReqs
  · have hmore := (h.releasePages hperm heq).nothing req.dpRank
    have hmoved : PagesHeld pool allocator (others.map Req.holding ++
        (s.transferQueue.map DecodeBookkeeping.holding ++
          (s.waitingQueue ++ [req.resetForRetract]).map Req.holding)) := by
      rw [List.map_append, List.map_singleton, ← List.append_assoc (List.map _ s.transferQueue),
        ← List.append_assoc]
      exact hmore.perm (List.perm_append_singleton _ _).symm
    exact hmoved.perm (holdings_running
      { s with
        allocator := allocator
        running := others
        waitingQueue := s.waitingQueue ++ [req.resetForRetract] }).symm
  · rw [(hperm.map Req.uid).append_left _ |>.subperm_left, List.map_append, List.map_singleton,
      List.append_assoc]
    exact List.Subperm.refl _
  · intro x hx
    rcases List.mem_append.mp hx with hx | hx
    · exact h.waiting x hx
    · rw [List.mem_singleton.mp hx]
      rfl
  · exact fun x hx => h.running x (hperm.mem_iff.mpr (List.mem_cons_of_mem _ hx))

theorem step {act : Act} (h : Owned pool s) (hok : KeepsPrefixes s act)
    (hstep : Step settings act s s') : Owned pool s' := by
  cases hstep with
  | receive req huid hindices hcommitted => exact h.receive huid hindices hcommitted
  | route rids peer heq => exact h.route hok heq
  | sweep sweep heq => exact h.sweep heq
  | drain receivers heq => exact h.drain heq
  | abort recvReq => exact h.abort hok
  | pass hperm => exact h.pass hperm hok
  | admitted hperm => exact h.admitted hperm hok
  | extend hperm hrank heq => exact h.extend hperm hrank heq
  | decode hperm hrank heq => exact h.decode hperm hrank heq
  | commit hperm hle => exact h.commit hperm _ hle
  | release allowOverallocated hperm heq => exact h.release hperm heq
  | retract allowOverallocated hperm heq => exact h.retract hperm heq

theorem run {s₀ : DecodeServer} (h : Owned pool s₀)
    (hrun : Reaches settings KeepsPrefixes s₀ s) : Owned pool s := by
  induction hrun with
  | start => exact h
  | step _ hok hstep ih => exact ih.step hok hstep

theorem pagesOwned (h : Owned pool s) : PagesOwned pool.pagesPerRank s where
  owned := by
    rw [h.pages.pageSize]
    exact h.pages.oneHolder
  idle := by
    intro htransfer hwaiting hrunning rank
    have hnone : s.holdings = [] := by
      unfold DecodeServer.holdings
      rw [htransfer, hwaiting, hrunning]
      rfl
    have hcount := h.pages.ledger.count rank
    rw [hnone] at hcount
    exact List.perm_iff_count.mpr hcount

end Owned

/-! ### The result -/

/-- As long as every waiting request keeps the pages it received, no page is lost and
none has two holders. -/
theorem reaches_pagesOwned {size pageSize dpSize : Nat} {settings : AdmitSettings}
    {s : DecodeServer} (hpage : 1 < pageSize) (hdp : 0 < dpSize)
    (hsize : size % (pageSize * dpSize) = 0)
    (hrun : Reaches settings KeepsPrefixes (.init size pageSize dpSize) s) :
    PagesOwned (size / pageSize / dpSize) s := by
  have hinit : Owned ⟨pageSize, size / pageSize / dpSize⟩ (.init size pageSize dpSize) :=
    .init hpage hdp hsize
  exact (hinit.run hrun).pagesOwned

/-! A prompt of 129 tokens on a server with two pages of 128. -/

def defaultSettings : AdmitSettings := ⟨512, 8, 1⟩

def oneRequest : Req where
  uid := 0
  rid := "r"
  dpRank := 0
  originLen := 129
  outputLen := 0
  bootstrapRoom := some 7
  pdSkipPrefixMatch := false
  indices := []
  kvCommittedLen := 0

def allReady : AdmitSweep :=
  ⟨fun _ => 0, fun _ => true, fun _ => false, fun _ => .admitted⟩

def allSucceed : DecodeServer.Receivers :=
  ⟨fun _ => .ok .success, fun _ => .ok .success, fun _ => false⟩

def oneReceived : DecodeServer :=
  { DecodeServer.init 256 128 1 with waitingQueue := [oneRequest], received := 1 }

/-- Its pages are transferred, and it is back in the waiting queue. -/
def oneTransferred : Option DecodeServer := do
  let s ← oneReceived.route ["r"] fun _ => .found
  let s ← s.admitDecodePrealloc defaultSettings allReady
  s.drainDecodeTransferTerminals allSucceed

theorem reaches_oneTransferred {ok : DecodeServer → Act → Prop} {s : DecodeServer}
    (hok : ∀ s act, KeepsPrefixes s act → ok s act) (heq : oneTransferred = some s) :
    Reaches defaultSettings ok (.init 256 128 1) s := by
  unfold oneTransferred at heq
  obtain ⟨routed, hroute, heq⟩ := Option.bind_eq_some_iff.mp heq
  obtain ⟨swept, hsweep, hdrain⟩ := Option.bind_eq_some_iff.mp heq
  have hreceived : Reaches defaultSettings ok (.init 256 128 1) oneReceived :=
    .step .start (hok _ .receive trivial) (.receive oneRequest rfl rfl rfl)
  have hkeeps : KeepsPrefixes oneReceived (.route ["r"]) := by
    intro req hmem _
    rw [List.mem_singleton.mp hmem]
    rfl
  have hrouted := hreceived.step (hok _ _ hkeeps) (.route ["r"] _ hroute)
  have hswept := hrouted.step (hok _ .sweep trivial) (.sweep _ hsweep)
  exact hswept.step (hok _ .drain trivial) (.drain _ hdrain)

theorem transferred_pagesOwned : ∃ s : DecodeServer,
    s.waitingQueue.map (·.indices) = [List.range' 128 128] ∧ s.allocator.freeList 0 = [2] ∧
      PagesOwned 2 s := by
  have hsome : (oneTransferred.map fun s =>
      (s.waitingQueue.map (·.indices), s.allocator.freeList 0)) =
      some ([List.range' 128 128], [2]) := by
    decide +kernel
  obtain ⟨s, hs, hfields⟩ := Option.map_eq_some_iff.mp hsome
  obtain ⟨hwaiting, hfree⟩ := Prod.mk.inj hfields
  exact ⟨s, hwaiting, hfree, reaches_pagesOwned (by decide) (by decide) (by decide)
    (reaches_oneTransferred (fun _ _ h => h) hs)⟩

/-- The abort of the request takes it out of the waiting queue. All is empty, and the
page of its prompt never comes back. -/
theorem aborted_page_lost : ∃ s : DecodeServer,
    Reaches defaultSettings (fun _ _ => True) (.init 256 128 1) s ∧ s.transferQueue = [] ∧
      s.waitingQueue = [] ∧ s.running = [] ∧ 1 ∉ s.allocator.freeList 0 ∧
      ¬PagesOwned 2 s := by
  let recvReq : AbortReq := ⟨"r", false⟩
  have hsome : (oneTransferred.map fun s =>
      let s := s.abortRequest recvReq
      (s.transferQueue, s.waitingQueue, s.running, s.allocator.freeList 0)) =
      some ([], [], [], [2]) := by
    decide +kernel
  obtain ⟨s, hs, hfields⟩ := Option.map_eq_some_iff.mp hsome
  obtain ⟨htransfer, hwaiting, hrunning, hfree⟩ :
      (s.abortRequest recvReq).transferQueue = [] ∧ (s.abortRequest recvReq).waitingQueue = [] ∧
        (s.abortRequest recvReq).running = [] ∧
          (s.abortRequest recvReq).allocator.freeList 0 = [2] := by
    simpa using hfields
  refine ⟨s.abortRequest recvReq, ?_, htransfer, hwaiting, hrunning, ?_, ?_⟩
  · have hrun := reaches_oneTransferred (fun _ _ _ => trivial) hs
    exact hrun.step trivial (.abort recvReq)
  · rw [hfree]
    decide
  · intro howned
    have hlen := (howned.idle htransfer hwaiting hrunning 0).length_eq
    rw [hfree] at hlen
    cases hlen

end SglJax.Disaggregation.DecodePages
