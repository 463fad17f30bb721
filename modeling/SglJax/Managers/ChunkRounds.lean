import SglJax.Managers.ChunkCounter

/-! The chunk counter over whole runs of the event loop. A round first finds and
dispatches a batch, then waits for the result that is due; `Tracked` holds
before and after both halves. -/
namespace SglJax.Managers

/-- A batch as it is seen from the next round, where it is `last_batch`. -/
structure Upcoming (c : Ranks) (s : Scheduler) (b : Batch) : Prop where
  placed : Placed c b.reqs
  owner : b.isExtend = true → ∀ r rid, b.chunkedReq r = some rid → s.chunkedReqs r = some rid
  waiting : ∀ rid ∈ s.waitingQueue, rid ∉ b.reqs (c.dpRank rid)
  running : b.isExtend = true → ∀ r, ∀ rid ∈ b.reqs r, rid ∉ s.running r
  known : ∀ rid ∈ b.reqs (c.dpRank rid), rid ∈ s.received

/-- Between two rounds: with overlap, the last batch is still in flight. -/
structure AtInput (c : Ranks) (overlap : Bool) (s : Scheduler) : Prop where
  tracked : Tracked c s s.resultQueue
  queue : s.resultQueue = if overlap then s.lastBatch.toList else []
  last : ∀ b, s.lastBatch = some b → Upcoming c s b

/-- After the batch of the round has been dispatched. -/
structure AtResult (c : Ranks) (overlap : Bool) (s : Scheduler) : Prop where
  tracked : Tracked c s s.resultQueue
  queue : s.resultQueue = (if overlap then s.lastBatch.toList else []) ++ s.curBatch.toList
  cur : ∀ b, s.curBatch = some b → Upcoming c s b
  /-- A pending abort is left over only if no prefill batch was dispatched. -/
  quiet : ∀ b, s.curBatch = some b → b.isExtend = true → ∀ r, s.pendingChunkedAbortReqs r = none
  /-- It waits for a chunk of the last batch. -/
  due : ∀ r rid, s.pendingChunkedAbortReqs r = some rid →
    overlap = true ∧ ∃ b, s.lastBatch = some b ∧ b.NonFinal c rid

section

variable {c : Ranks} {overlap : Bool} {s s' : Scheduler} {queue : List Batch} {b : Batch}
  {inp : RoundInput}

theorem Tracked.setBatches (h : Tracked c s queue) (last cur : Option Batch) (q : List Batch) :
    Tracked c { s with lastBatch := last, curBatch := cur, resultQueue := q } queue :=
  ⟨h.counted, h.placed, h.live, h.order, h.ownerRank, h.ownerLive, h.ownerChunks, h.ownerAway,
    h.pendingOwner, h.runningPlaced, h.runningAway, h.waitingNodup, h.waitingLive, h.known⟩

/-! ### The second half of a round -/

theorem Upcoming.frame {touched : String → Prop} (h : Upcoming c s b)
    (hframe : Frame touched s s')
    (hquiet : b.isExtend = true → ∀ r, s.pendingChunkedAbortReqs r = none) :
    Upcoming c s' b := by
  constructor
  case placed => exact h.placed
  case owner =>
    intro hext r rid howner
    have hnone : ∀ rid, touched rid → s.pendingChunkedAbortReqs r ≠ some rid := by
      intro rid _
      rw [hquiet hext r]
      exact nofun
    rw [(hframe.owners r hnone).1]
    exact h.owner hext r rid howner
  case waiting =>
    rw [hframe.waitingQueue]
    exact h.waiting
  case running =>
    rw [hframe.running]
    exact h.running
  case known =>
    rw [hframe.received]
    exact h.known

/-- What the result that a round waits for does to the requests. -/
structure Returned (c : Ranks) (overlap : Bool) (out : BatchOutput) (s s' : Scheduler) : Prop where
  settled : ∀ b, (if overlap then s.lastBatch else s.curBatch) = some b →
    ∀ rid ∈ b.reqs (c.dpRank rid), Settled c b out s s' rid
  aborts : ∀ r rid, s.pendingChunkedAbortReqs r = some rid →
    (s'.progress rid).finished = true ∧ s'.pendingChunkedAbortReqs r = none

theorem AtResult.finishRound (h : AtResult c overlap s) (out : BatchOutput) :
    ∃ s', s.finishRound c overlap out = some s' ∧ AtInput c overlap s' ∧
      Returned c overlap out s s' := by
  cases hawaited : (if overlap then s.lastBatch else s.curBatch) with
  | none =>
    have hlast : (if overlap then s.lastBatch.toList else []) = [] := by
      cases overlap with
      | true =>
        rw [if_pos rfl] at hawaited ⊢
        rw [hawaited]
        rfl
      | false => rfl
    have hqueue := h.queue
    rw [hlast, List.nil_append] at hqueue
    refine ⟨{ s with lastBatch := s.curBatch }, ?_, ?_, ?_⟩
    · unfold Scheduler.finishRound
      rw [hawaited]
      rfl
    · refine ⟨h.tracked.setBatches s.curBatch s.curBatch s.resultQueue, ?_, ?_⟩
      · cases overlap with
        | true => exact hqueue
        | false =>
          rw [if_neg (by decide)] at hawaited
          rw [hawaited] at hqueue
          exact hqueue
      · intro b hb
        have hcur := h.cur b hb
        exact ⟨hcur.placed, hcur.owner, hcur.waiting, hcur.running, hcur.known⟩
    · constructor
      · intro b hb
        rw [hawaited] at hb
        cases hb
      · intro r rid hpending
        obtain ⟨hoverlap, b, hb, -⟩ := h.due r rid hpending
        rw [if_pos hoverlap, hb] at hawaited
        cases hawaited
  | some b =>
    -- The batches that stay in flight.
    have hrest : ∃ rest, s.resultQueue = b :: rest ∧
        rest = (if overlap then s.curBatch.toList else []) := by
      cases overlap with
      | true =>
        rw [if_pos rfl] at hawaited
        refine ⟨s.curBatch.toList, ?_, rfl⟩
        rw [h.queue, if_pos rfl, hawaited]
        rfl
      | false =>
        rw [if_neg (by decide)] at hawaited
        refine ⟨[], ?_, rfl⟩
        rw [h.queue, hawaited]
        rfl
    obtain ⟨rest, hqueue, hrest⟩ := hrest
    have hdue : AbortsDue c s rest := by
      intro r rid hpending b' hb' hnf
      have hcur : s.curBatch = some b' := by
        rw [hrest] at hb'
        split at hb'
        · simpa using hb'
        · cases hb'
      rw [h.quiet b' hcur hnf.1 r] at hpending
      cases hpending
    have htracked := h.tracked
    rw [hqueue] at htracked
    obtain ⟨s₁, heq, htracked₁, hframe, hsettled⟩ := htracked.processBatchResult hqueue hdue out
    have hcurBatch : s₁.curBatch = s.curBatch := hframe.curBatch
    refine ⟨{ s₁ with lastBatch := s₁.curBatch }, ?_, ?_, ?_⟩
    · unfold Scheduler.finishRound
      rw [hawaited]
      change (s.processBatchResult c out).bind _ = _
      rw [heq]
      rfl
    · have hqueue₁ : s₁.resultQueue = rest := hframe.resultQueue
      refine ⟨?_, ?_, ?_⟩
      · have := htracked₁.setBatches s₁.curBatch s₁.curBatch s₁.resultQueue
        rw [← hqueue₁] at this
        exact this
      · change s₁.resultQueue = if overlap then s₁.curBatch.toList else []
        rw [hqueue₁, hrest, hcurBatch]
      · intro b' hb'
        have hb' : s.curBatch = some b' := hcurBatch ▸ hb'
        have hcur := h.cur b' hb'
        have hpopped : Upcoming c { s with resultQueue := rest } b' :=
          ⟨hcur.placed, hcur.owner, hcur.waiting, hcur.running, hcur.known⟩
        have hlater := hpopped.frame hframe (h.quiet b' hb')
        exact ⟨hlater.placed, hlater.owner, hlater.waiting, hlater.running, hlater.known⟩
    · constructor
      · intro b' hb'
        rw [hawaited] at hb'
        cases hb'
        intro rid hmem
        exact ⟨(hsettled rid hmem).token, (hsettled rid hmem).abort⟩
      · intro r rid hpending
        obtain ⟨hoverlap, b', hb', hnf⟩ := h.due r rid hpending
        rw [if_pos hoverlap, hb'] at hawaited
        cases hawaited
        have hrank := h.tracked.ownerRank r rid (h.tracked.pendingOwner r rid hpending)
        rw [← hrank] at hpending ⊢
        exact (hsettled rid hnf.2.1).abort hnf.1 hnf.2.2 hpending

/-! ### The first half of a round -/

theorem AtInput.syncChunkedReqOwners (h : AtInput c overlap s) :
    s.syncChunkedReqOwners c = some s := by
  unfold Scheduler.syncChunkedReqOwners
  cases hlast : s.lastBatch with
  | none => rfl
  | some b =>
    dsimp only
    by_cases hext : b.isExtend = true
    · have howner := (h.last b hlast).owner hext
      rw [if_pos hext, if_pos]
      · congr 1
        have hsame : (fun r => (s.chunkedReqs r).or (b.chunkedReq r)) = s.chunkedReqs := by
          funext r
          cases hr : b.chunkedReq r with
          | none => exact Option.or_none
          | some rid => rw [howner r rid hr]; rfl
        rw [hsame, ← hlast]
      · rw [List.all_eq_true]
        intro r _
        cases hr : b.chunkedReq r with
        | none => rfl
        | some rid => simp [howner r rid hr]
    · rw [if_neg hext]

theorem Tracked.isChunked_eq (h : Tracked c s queue) (h' : Tracked c s' queue) (rid : String) :
    (s'.progress rid).isChunked = (s.progress rid).isChunked := by
  rw [h.counted, h'.counted]

/-- Pending aborts without a chunk in flight are finalized. -/
theorem Tracked.processPending (rs : List Nat) : ∀ {s : Scheduler}, Tracked c s queue →
    ∃ s', rs.foldlM Scheduler.processPendingAt s = some s' ∧ Tracked c s' queue ∧
      Frame (fun _ => True) s s' ∧
      (∀ rid, (s.progress rid).finished = true → (s'.progress rid).finished = true) ∧
      (∀ r ∈ rs, ∀ rid, s'.pendingChunkedAbortReqs r = some rid →
        0 < (s.progress rid).isChunked) ∧
      ∀ r ∈ rs, ∀ rid, s.pendingChunkedAbortReqs r = some rid → (s.progress rid).isChunked = 0 →
        (s'.progress rid).finished = true ∧ s'.pendingChunkedAbortReqs r = none := by
  induction rs with
  | nil =>
    intro s h
    exact ⟨s, rfl, h, Frame.refl s, fun _ => id, by simp, by simp⟩
  | cons r rs ih =>
    intro s h
    have hstep : ∃ s₁, s.processPendingAt r = some s₁ ∧ Tracked c s₁ queue ∧
        Frame (fun _ => True) s s₁ ∧
        (∀ rid, (s.progress rid).finished = true → (s₁.progress rid).finished = true) ∧
        (∀ r' ≠ r, s₁.pendingChunkedAbortReqs r' = s.pendingChunkedAbortReqs r') ∧
        (∀ rid, s₁.pendingChunkedAbortReqs r = some rid → 0 < (s.progress rid).isChunked) ∧
        ∀ rid, s.pendingChunkedAbortReqs r = some rid → (s.progress rid).isChunked = 0 →
          (s₁.progress rid).finished = true ∧ s₁.pendingChunkedAbortReqs r = none := by
      unfold Scheduler.processPendingAt
      cases hpending : s.pendingChunkedAbortReqs r with
      | none =>
        refine ⟨s, rfl, h, Frame.refl s, fun _ => id, fun _ _ => rfl, ?_, ?_⟩
        · intro rid hrid
          rw [hpending] at hrid
          cases hrid
        · intro rid hrid
          cases hrid
      | some rid =>
        dsimp only
        rw [if_pos (h.pendingOwner r rid hpending)]
        by_cases hpos : (s.progress rid).isChunked > 0
        · refine ⟨s, if_pos hpos, h, Frame.refl s, fun _ => id, fun _ _ => rfl, ?_, ?_⟩
          · intro rid' hrid'
            rw [hpending] at hrid'
            cases hrid'
            exact hpos
          · intro rid' hrid' hzero
            cases hrid'
            omega
        · have hzero : (s.progress rid).isChunked = 0 := by
            have := h.counted rid
            omega
          obtain ⟨hfinalize, htracked⟩ := h.finalize hpending hzero
          have hframe := (Frame.aborted s rid hpending).trans (Frame.refl _)
            (fun _ _ => trivial) (fun (_ : String) => id)
          refine ⟨_, by rw [if_neg hpos]; exact hfinalize, htracked, hframe, ?_,
            fun r' hne => Function.update_of_ne hne .., ?_, ?_⟩
          · intro rid' hfin
            by_cases hne : rid' = rid
            · rw [hne, Scheduler.aborted_self]
            · rw [(Frame.aborted s rid hpending).progress rid' hne]
              exact hfin
          · intro rid' hrid'
            have : (s.aborted rid r).pendingChunkedAbortReqs r = none := Function.update_self ..
            rw [this] at hrid'
            cases hrid'
          · intro rid' hrid' _
            cases hrid'
            exact ⟨by rw [Scheduler.aborted_self], Function.update_self ..⟩
    obtain ⟨s₁, heq, htracked, hframe, hmono, hother, hleft, hdone⟩ := hstep
    obtain ⟨s', heq', htracked', hframe', hmono', hleft', hdone'⟩ := ih htracked
    have hchunked := h.isChunked_eq htracked
    refine ⟨s', ?_, htracked', hframe.trans hframe' (fun _ => id) (fun _ => id),
      fun rid hfin => hmono' rid (hmono rid hfin), ?_, ?_⟩
    · rw [List.foldlM_cons, heq]
      exact heq'
    · intro r' hr' rid hpending
      rcases List.mem_cons.mp hr' with rfl | hr'
      · rcases hframe'.cleared r' with ⟨-, hsame⟩ | ⟨-, hnone⟩
        · exact hleft rid (hsame.symm.trans hpending)
        · rw [hnone] at hpending
          cases hpending
      · rw [← hchunked rid]
        exact hleft' r' hr' rid hpending
    · intro r' hr' rid hpending hzero
      by_cases hr : r' = r
      · subst hr
        obtain ⟨hfin, hnone⟩ := hdone rid hpending hzero
        refine ⟨hmono' rid hfin, ?_⟩
        rcases hframe'.cleared r' with ⟨-, hsame⟩ | ⟨-, hnone'⟩
        · rw [hsame, hnone]
        · exact hnone'
      · exact hdone' r' ((List.mem_cons.mp hr').resolve_left hr) rid ((hother r' hr).trans hpending)
          (by rw [hchunked rid, hzero])

/-- The running batch may be exchanged for one that holds no owner, no waiting
request and no chunk in flight. -/
theorem Tracked.setRunning (h : Tracked c s queue) {running : Nat → List String}
    (hplaced : Placed c running)
    (howner : ∀ r rid, s.chunkedReqs r = some rid → rid ∉ running r)
    (haway : ∀ r, ∀ rid ∈ running r, rid ∈ s.received ∧ rid ∉ s.waitingQueue ∧
      ∀ b ∈ queue, ¬ b.NonFinal c rid) :
    Tracked c { s with running } queue :=
  ⟨h.counted, h.placed, h.live, h.order, h.ownerRank, h.ownerLive, h.ownerChunks,
    fun r rid hr => ⟨(h.ownerAway r rid hr).1, (h.ownerAway r rid hr).2.1, howner r rid hr⟩,
    h.pendingOwner, hplaced, haway, h.waitingNodup, h.waitingLive, h.known⟩

theorem Tracked.mergeLastBatch (h : Tracked c s queue) {exclude : Nat → Option String}
    (hexclude : ∀ r rid, s.chunkedReqs r = some rid → exclude r = some rid)
    (hlast : ∀ b, s.lastBatch = some b → b.isExtend = true →
      Placed c b.reqs ∧ (∀ rid ∈ s.waitingQueue, rid ∉ b.reqs (c.dpRank rid)) ∧
      (∀ r, ∀ rid ∈ b.reqs r, rid ∉ s.running r) ∧
      (∀ rid ∈ b.reqs (c.dpRank rid), rid ∈ s.received) ∧
      ∀ r, ∀ rid ∈ b.reqs r, exclude r ≠ some rid → ∀ b' ∈ queue, ¬ b'.NonFinal c rid) :
    Tracked c (s.mergeLastBatch exclude) queue := by
  unfold Scheduler.mergeLastBatch
  cases hb : s.lastBatch with
  | none => exact h
  | some b =>
    dsimp only
    by_cases hext : b.isExtend = true
    swap
    · rwa [if_neg hext]
    obtain ⟨hplaced, hwaiting, hrunning, hknown, hdone⟩ := hlast b hb hext
    rw [if_pos hext, ← hb]
    apply h.setRunning
    · constructor
      · intro r rid hmem
        rcases List.mem_append.mp hmem with hmem | hmem
        · exact h.runningPlaced.rank r rid hmem
        · exact hplaced.rank r rid (List.mem_filter.mp hmem).1
      · intro r
        apply List.Nodup.append (h.runningPlaced.nodup r) ((hplaced.nodup r).filter _)
        intro rid hmem hmem'
        exact hrunning r rid (List.mem_filter.mp hmem').1 hmem
    · intro r rid howner hmem
      rcases List.mem_append.mp hmem with hmem | hmem
      · exact (h.ownerAway r rid howner).2.2 hmem
      · have := (List.mem_filter.mp hmem).2
        rw [hexclude r rid howner] at this
        simp at this
    · intro r rid hmem
      rcases List.mem_append.mp hmem with hmem | hmem
      · exact h.runningAway r rid hmem
      · obtain ⟨hin, hkeep⟩ := List.mem_filter.mp hmem
        have hrank := hplaced.rank r rid hin
        refine ⟨hknown rid (by rwa [hrank]), ?_, hdone r rid hin ?_⟩
        · intro hwait
          exact hwaiting rid hwait (by rwa [hrank])
        · intro heq
          rw [heq] at hkeep
          simp at hkeep

/-! ### The prefill adder -/

/-- The adder has put every request into its own rank's list, once. -/
structure AdderFits (c : Ranks) (left : Nat → Option String) (a : Adder) : Prop where
  placed : Placed c a.canRunList
  chunked : ∀ r rid, a.newChunkedReqs r = some rid → rid ∈ a.canRunList r ∧ left r = none

/-- What the loop over the waiting queue adds. -/
structure Admits (todo : List String) (a a' : Adder) : Prop where
  kept : ∀ r, ∀ rid ∈ a.canRunList r, rid ∈ a'.canRunList r
  added : ∀ r, ∀ rid ∈ a'.canRunList r, rid ∈ a.canRunList r ∨ rid ∈ todo
  chunked : ∀ r rid, a'.newChunkedReqs r = some rid → a.newChunkedReqs r = some rid ∨ rid ∈ todo

theorem Admits.refl (todo : List String) (a : Adder) : Admits todo a a :=
  ⟨fun _ _ => id, fun _ _ => .inl, fun _ _ => .inl⟩

theorem Admits.tail {rid : String} {todo : List String} {a a' : Adder} (h : Admits todo a a') :
    Admits (rid :: todo) a a' :=
  ⟨h.kept, fun r rid' hmem => (h.added r rid' hmem).imp_right (List.mem_cons_of_mem _),
    fun r rid' hr => (h.chunked r rid' hr).imp_right (List.mem_cons_of_mem _)⟩

theorem admitAll_spec {left : Nat → Option String} (verdict : String → Verdict)
    (todo : List String) : ∀ {a : Adder}, AdderFits c left a → todo.Nodup →
    (∀ rid ∈ todo, rid ∉ a.canRunList (c.dpRank rid)) →
    AdderFits c left (admitAll c left verdict todo a) ∧
      Admits todo a (admitAll c left verdict todo a) := by
  induction todo with
  | nil =>
    intro a ha _ _
    exact ⟨ha, Admits.refl [] a⟩
  | cons rid todo ih =>
    intro a ha hnodup hfree
    obtain ⟨hrid, hnodup⟩ := List.nodup_cons.mp hnodup
    have hfree' : ∀ rid' ∈ todo, rid' ∉ a.canRunList (c.dpRank rid') := fun rid' hmem =>
      hfree rid' (List.mem_cons_of_mem _ hmem)
    have hskip := ih ha hnodup hfree'
    unfold admitAll
    dsimp only
    split
    · exact ⟨hskip.1, hskip.2.tail⟩
    · exact ⟨ha, Admits.refl _ a⟩
    rename_i chunked stop _
    split
    · exact ⟨hskip.1, hskip.2.tail⟩
    rename_i hopen
    simp only [Bool.or_eq_true, not_or, Bool.not_eq_true, Option.isSome_eq_false_iff,
      Option.isNone_iff_eq_none] at hopen
    set r := c.dpRank rid with hr
    set a₁ : Adder :=
      { canRunList := Function.update a.canRunList r (a.canRunList r ++ [rid])
        newChunkedReqs := if chunked then Function.update a.newChunkedReqs r (some rid)
          else a.newChunkedReqs } with ha₁
    have hlist : ∀ r' rid', rid' ∈ a₁.canRunList r' ↔
        rid' ∈ a.canRunList r' ∨ r' = r ∧ rid' = rid := by
      intro r' rid'
      change rid' ∈ Function.update a.canRunList r (a.canRunList r ++ [rid]) r' ↔ _
      by_cases hr' : r' = r
      · subst hr'
        rw [Function.update_self, List.mem_append, List.mem_singleton]
        simp
      · rw [Function.update_of_ne hr']
        simp [hr']
    have hnew : ∀ r' rid', a₁.newChunkedReqs r' = some rid' →
        a.newChunkedReqs r' = some rid' ∨ r' = r ∧ rid' = rid := by
      intro r' rid' heq
      rw [ha₁] at heq
      dsimp only at heq
      split at heq
      · by_cases hr' : r' = r
        · subst hr'
          rw [Function.update_self] at heq
          cases heq
          exact .inr ⟨rfl, rfl⟩
        · rw [Function.update_of_ne hr'] at heq
          exact .inl heq
      · exact .inl heq
    have hfits : AdderFits c left a₁ := by
      refine ⟨⟨?_, ?_⟩, ?_⟩
      · intro r' rid' hmem
        rcases (hlist r' rid').mp hmem with hmem | ⟨rfl, rfl⟩
        · exact ha.placed.rank r' rid' hmem
        · exact hr.symm
      · intro r'
        change (Function.update a.canRunList r (a.canRunList r ++ [rid]) r').Nodup
        by_cases hr' : r' = r
        · subst hr'
          rw [Function.update_self]
          apply List.Nodup.append (ha.placed.nodup r) (List.nodup_singleton rid)
          intro rid' hmem hmem'
          rw [List.mem_singleton.mp hmem'] at hmem
          exact hfree rid (List.mem_cons_self ..) hmem
        · rw [Function.update_of_ne hr']
          exact ha.placed.nodup r'
      · intro r' rid' heq
        rcases hnew r' rid' heq with hold | ⟨rfl, rfl⟩
        · obtain ⟨hmem, hleft⟩ := ha.chunked r' rid' hold
          exact ⟨(hlist r' rid').mpr (.inl hmem), hleft⟩
        · exact ⟨(hlist r rid').mpr (.inr ⟨rfl, rfl⟩), hopen.1⟩
    have hadmits : ∀ {a' : Adder}, Admits todo a₁ a' → Admits (rid :: todo) a a' := by
      intro a' h
      refine ⟨?_, ?_, ?_⟩
      · intro r' rid' hmem
        exact h.kept r' rid' ((hlist r' rid').mpr (.inl hmem))
      · intro r' rid' hmem
        rcases h.added r' rid' hmem with hmem | hmem
        · rcases (hlist r' rid').mp hmem with hmem | ⟨-, rfl⟩
          · exact .inl hmem
          · exact .inr (List.mem_cons_self ..)
        · exact .inr (List.mem_cons_of_mem _ hmem)
      · intro r' rid' heq
        rcases h.chunked r' rid' heq with heq | hmem
        · rcases hnew r' rid' heq with heq | ⟨-, rfl⟩
          · exact .inl heq
          · exact .inr (List.mem_cons_self ..)
        · exact .inr (List.mem_cons_of_mem _ hmem)
    split
    · exact ⟨hfits, hadmits (Admits.refl todo a₁)⟩
    · have hrest := ih hfits hnodup (by
        intro rid' hmem hin
        rcases (hlist _ rid').mp hin with hin | ⟨-, rfl⟩
        · exact hfree' rid' hmem hin
        · exact hrid hmem)
      exact ⟨hrest.1, hadmits hrest.2⟩

/-! ### A prefill batch -/

theorem chunksIn_snoc (rid : String) : chunksIn c (queue ++ [b]) rid =
    chunksIn c queue rid + if b.NonFinal c rid then 1 else 0 := by
  unfold chunksIn
  rw [List.countP_append, List.countP_singleton]
  simp

theorem foldl_countChunk (rs : List Nat) : ∀ {s : Scheduler}, rs.Nodup →
    (∀ r rid, s.chunkedReqs r = some rid → c.dpRank rid = r) →
    rs.foldl Scheduler.countChunk s = { s with
      progress := fun rid =>
        if c.dpRank rid ∈ rs ∧ s.chunkedReqs (c.dpRank rid) = some rid then
          { s.progress rid with isChunked := (s.progress rid).isChunked + 1 }
        else s.progress rid } := by
  induction rs with
  | nil =>
    intro s _ _
    simp
  | cons r rs ih =>
    intro s hnodup hrank
    obtain ⟨hr, hnodup⟩ := List.nodup_cons.mp hnodup
    rw [List.foldl_cons]
    cases howner : s.chunkedReqs r with
    | none =>
      have hstep : s.countChunk r = s := by
        unfold Scheduler.countChunk
        rw [howner]
      rw [hstep, ih hnodup hrank]
      congr 1
      funext rid
      congr 1
      rw [List.mem_cons]
      apply propext
      constructor
      · exact fun h => ⟨.inr h.1, h.2⟩
      · rintro ⟨heq | hmem, hrid⟩
        · rw [heq, howner] at hrid
          cases hrid
        · exact ⟨hmem, hrid⟩
    | some rid₀ =>
      set p : Progress :=
        { s.progress rid₀ with isChunked := (s.progress rid₀).isChunked + 1 } with hp
      have hstep : s.countChunk r = s.setProgress rid₀ p := by
        unfold Scheduler.countChunk
        rw [howner]
      have hrank' : ∀ r rid, (s.setProgress rid₀ p).chunkedReqs r = some rid → c.dpRank rid = r :=
        hrank
      rw [hstep, ih hnodup hrank']
      unfold Scheduler.setProgress
      dsimp only
      congr 1
      funext rid
      by_cases hne : rid = rid₀
      · subst hne
        have hrid := hrank r rid howner
        rw [Function.update_self, if_neg (by rw [hrid]; exact fun h => hr h.1),
          if_pos (by rw [hrid]; exact ⟨List.mem_cons_self .., howner⟩)]
      · rw [Function.update_of_ne hne]
        congr 1
        rw [List.mem_cons]
        apply propext
        constructor
        · exact fun h => ⟨.inr h.1, h.2⟩
        · rintro ⟨heq | hmem, hrid⟩
          · rw [heq, howner] at hrid
            cases hrid
            exact absurd rfl hne
          · exact ⟨hmem, hrid⟩

/-- The requests after a batch with the lists `canRun` and the chunk owners
`owners` has been prepared. -/
def Scheduler.prepared (c : Ranks) (s : Scheduler) (canRun : Nat → List String)
    (owners : Nat → Option String) (rid : String) : Progress where
  isChunked := (s.progress rid).isChunked + if owners (c.dpRank rid) = some rid then 1 else 0
  finished := (s.progress rid).finished
  isRetracted := if rid ∈ canRun (c.dpRank rid) then false else (s.progress rid).isRetracted
  outputIds := (s.progress rid).outputIds

theorem Tracked.dispatch (h : Tracked c s queue) {canRun : Nat → List String}
    (extra running : Nat → List String) {owners : Nat → Option String}
    (hidle : ∀ rid ∈ s.waitingQueue, ∀ b ∈ queue, rid ∉ b.reqs (c.dpRank rid))
    (hpending : ∀ r, s.pendingChunkedAbortReqs r = none)
    (hplaced : Placed c canRun)
    (horigin : ∀ r, ∀ rid ∈ canRun r, s.chunkedReqs r = some rid ∨ rid ∈ s.waitingQueue)
    (howners : ∀ r rid, owners r = some rid → rid ∈ canRun r)
    (hextra : Placed c extra) (hextraRunning : ∀ r, ∀ rid ∈ extra r, rid ∈ s.running r)
    (hrunning : Placed c running)
    (hrunningLeft : ∀ r, ∀ rid ∈ running r, rid ∈ s.running r ∧ rid ∉ extra r) :
    let s' : Scheduler := { s with
      progress := s.prepared c canRun owners
      waitingQueue := s.waitingQueue.filter fun rid => rid ∉ canRun (c.dpRank rid)
      running
      chunkedReqs := owners }
    let b : Batch := { isExtend := true, reqs := fun r => canRun r ++ extra r, chunkedReq := owners }
    Tracked c s' (queue ++ [b]) ∧ Upcoming c s' b := by
  intro s' b
  have hnonFinal : ∀ rid, b.NonFinal c rid ↔ owners (c.dpRank rid) = some rid := by
    intro rid
    exact ⟨fun hnf => hnf.2.2, fun ho => ⟨rfl, List.mem_append_left _ (howners _ _ ho), ho⟩⟩
  have hwaiting : ∀ {rid}, rid ∈ s'.waitingQueue →
      rid ∈ s.waitingQueue ∧ rid ∉ canRun (c.dpRank rid) := by
    intro rid hmem
    obtain ⟨hmem, hnot⟩ := List.mem_filter.mp hmem
    exact ⟨hmem, by simpa using hnot⟩
  have hcanRunAway : ∀ r, ∀ rid ∈ canRun r, rid ∉ s.running r := by
    intro r rid hmem hrun
    rcases horigin r rid hmem with ho | hw
    · exact (h.ownerAway r rid ho).2.2 hrun
    · exact (h.runningAway r rid hrun).2.1 hw
  have hcanRunKnown : ∀ r, ∀ rid ∈ canRun r, rid ∈ s.received := by
    intro r rid hmem
    rcases horigin r rid hmem with ho | hw
    · exact (h.ownerAway r rid ho).1
    · exact (h.waitingLive rid hw).1
  have hretracted : ∀ {rid}, (s.progress rid).isRetracted = false →
      (s'.progress rid).isRetracted = false := by
    intro rid hret
    change (if rid ∈ canRun (c.dpRank rid) then false else (s.progress rid).isRetracted) = false
    rw [hret, ite_self]
  -- An owner of the new batch is as good as new.
  have hownerLive : ∀ r rid, owners r = some rid →
      (s'.progress rid).finished = false ∧ (s'.progress rid).isRetracted = false := by
    intro r rid ho
    have hmem := howners r rid ho
    rcases horigin r rid hmem with ho' | hw
    · exact ⟨(h.ownerLive r rid ho').1, hretracted (h.ownerLive r rid ho').2⟩
    · refine ⟨(h.waitingLive rid hw).2.1, if_pos ?_⟩
      rwa [hplaced.rank r rid hmem]
  have hownerQueue : ∀ r rid, owners r = some rid → ∀ b' ∈ queue, rid ∈ b'.reqs (c.dpRank rid) →
      b'.NonFinal c rid := by
    intro r rid ho b' hb' hin
    rcases horigin r rid (howners r rid ho) with ho' | hw
    · exact h.ownerChunks r rid ho' b' hb' hin
    · exact absurd hin (hidle rid hw b' hb')
  have hbPlaced : Placed c b.reqs := by
    constructor
    · intro r rid hmem
      rcases List.mem_append.mp hmem with hmem | hmem
      · exact hplaced.rank r rid hmem
      · exact hextra.rank r rid hmem
    · intro r
      apply List.Nodup.append (hplaced.nodup r) (hextra.nodup r)
      intro rid hmem hmem'
      exact hcanRunAway r rid hmem (hextraRunning r rid hmem')
  have hbKnown : ∀ rid ∈ b.reqs (c.dpRank rid), rid ∈ s.received := by
    intro rid hmem
    rcases List.mem_append.mp hmem with hmem | hmem
    · exact hcanRunKnown _ rid hmem
    · exact (h.runningAway _ rid (hextraRunning _ rid hmem)).1
  have hbWaiting : ∀ rid ∈ s'.waitingQueue, rid ∉ b.reqs (c.dpRank rid) := by
    intro rid hw hmem
    obtain ⟨hw, hnot⟩ := hwaiting hw
    rcases List.mem_append.mp hmem with hmem | hmem
    · exact hnot hmem
    · exact (h.runningAway _ rid (hextraRunning _ rid hmem)).2.1 hw
  refine ⟨?_, hbPlaced, fun _ _ _ ho => ho, hbWaiting, ?_, hbKnown⟩
  swap
  · intro _ r rid hmem hrun
    obtain ⟨hrun, hnot⟩ := hrunningLeft r rid hrun
    rcases List.mem_append.mp hmem with hmem | hmem
    · exact hcanRunAway r rid hmem hrun
    · exact hnot hmem
  have hsnoc : ∀ {b'}, b' ∈ queue ++ [b] → b' ∈ queue ∨ b' = b := fun hb' =>
    (List.mem_append.mp hb').imp_right List.mem_singleton.mp
  constructor
  case counted =>
    intro rid
    rw [chunksIn_snoc]
    simp only [hnonFinal]
    change (s.progress rid).isChunked + (if owners (c.dpRank rid) = some rid then 1 else 0) = _
    rw [h.counted rid]
    split <;> simp
  case placed =>
    intro b' hb'
    rcases hsnoc hb' with hb' | rfl
    · exact h.placed b' hb'
    · exact hbPlaced
  case live =>
    intro b' hb' rid hnf
    rcases hsnoc hb' with hb' | rfl
    · exact ⟨(h.live b' hb' rid hnf).1, hretracted (h.live b' hb' rid hnf).2⟩
    · exact hownerLive _ rid ((hnonFinal rid).mp hnf)
  case order =>
    rw [List.pairwise_append]
    refine ⟨h.order, List.pairwise_singleton .., ?_⟩
    intro b₀ hb₀ b' hb' rid hin hnf
    rw [List.mem_singleton.mp hb'] at hnf
    exact hownerQueue _ rid ((hnonFinal rid).mp hnf) b₀ hb₀ hin
  case ownerRank => exact fun r rid ho => hplaced.rank r rid (howners r rid ho)
  case ownerLive => exact hownerLive
  case ownerChunks =>
    intro r rid ho b' hb' hin
    rcases hsnoc hb' with hb' | rfl
    · exact hownerQueue r rid ho b' hb' hin
    · apply (hnonFinal rid).mpr
      rwa [hplaced.rank r rid (howners r rid ho)]
  case ownerAway =>
    intro r rid ho
    have hmem := howners r rid ho
    refine ⟨hcanRunKnown r rid hmem, ?_, ?_⟩
    · intro hw
      apply (hwaiting hw).2
      rwa [hplaced.rank r rid hmem]
    · intro hrun
      exact hcanRunAway r rid hmem (hrunningLeft r rid hrun).1
  case pendingOwner =>
    intro r rid hr
    change s.pendingChunkedAbortReqs r = some rid at hr
    rw [hpending r] at hr
    cases hr
  case runningPlaced => exact hrunning
  case runningAway =>
    intro r rid hrun
    have hrun' := (hrunningLeft r rid hrun).1
    obtain ⟨hrec, hw, haway⟩ := h.runningAway r rid hrun'
    refine ⟨hrec, fun hmem => hw (hwaiting hmem).1, ?_⟩
    intro b' hb' hnf
    rcases hsnoc hb' with hb' | rfl
    · exact haway b' hb' hnf
    · have hmem := howners _ rid ((hnonFinal rid).mp hnf)
      rw [h.runningPlaced.rank r rid hrun'] at hmem
      exact hcanRunAway r rid hmem hrun'
  case waitingNodup => exact h.waitingNodup.filter _
  case waitingLive =>
    intro rid hw
    have hw' := (hwaiting hw).1
    refine ⟨(h.waitingLive rid hw').1, (h.waitingLive rid hw').2.1, ?_⟩
    intro b' hb' hin
    rcases hsnoc hb' with hb' | rfl
    · exact absurd hin (hidle rid hw' b' hb')
    · exact absurd hin (hbWaiting rid hw)
  case known =>
    intro b' hb' rid hin
    rcases hsnoc hb' with hb' | rfl
    · exact h.known b' hb' rid hin
    · exact hbKnown rid hin

/-- The owner of the rank gets no chunk in this round: it is about to be aborted,
or the budgets of a hybrid model are exhausted. -/
def Scheduler.LeftOut (s : Scheduler) (budget : Nat → ChunkBudget) (r : Nat) : Prop :=
  ∃ rid, s.chunkedReqs r = some rid ∧
    (s.pendingChunkedAbortReqs r ≠ none ∨ (budget r).addChunkedReq = .parked)

theorem Tracked.ownersAdded (h : Tracked c s queue) (budget : Nat → ChunkBudget) :
    AdderFits c (s.ownersLeft budget) (s.ownersAdded budget) ∧
      ∀ r, ∀ rid ∈ (s.ownersAdded budget).canRunList r, s.chunkedReqs r = some rid := by
  have howned : ∀ r, ∀ rid ∈ (s.ownersAdded budget).canRunList r, s.chunkedReqs r = some rid := by
    intro r rid hmem
    unfold Scheduler.ownersAdded Scheduler.chunkOutcome at hmem
    dsimp only at hmem
    split at hmem
    · rename_i rid' truncated heq
      split at heq
      · rename_i howner _
        rw [List.mem_singleton.mp hmem, ← (Prod.mk.inj (Option.some.inj heq)).1, howner]
      · cases heq
    · cases hmem
  refine ⟨⟨⟨fun r rid hmem => h.ownerRank r rid (howned r rid hmem), ?_⟩, nofun⟩, howned⟩
  intro r
  unfold Scheduler.ownersAdded
  dsimp only
  split
  · exact List.nodup_singleton _
  · exact List.nodup_nil

theorem ownersLeft_mem {budget : Nat → ChunkBudget} {r : Nat} {rid : String}
    (hleft : s.ownersLeft budget r = some rid) (hattended : ¬ s.LeftOut budget r) :
    s.chunkedReqs r = some rid ∧ rid ∈ (s.ownersAdded budget).canRunList r := by
  have howner : s.chunkedReqs r = some rid := by
    unfold Scheduler.ownersLeft at hleft
    split at hleft
    · cases hleft
    · exact hleft
  have hpending : s.pendingChunkedAbortReqs r = none := by
    by_contra hne
    exact hattended ⟨rid, howner, .inl hne⟩
  refine ⟨howner, ?_⟩
  cases hout : (budget r).addChunkedReq with
  | parked => exact absurd ⟨rid, howner, .inr hout⟩ hattended
  | added truncated => simp [Scheduler.ownersAdded, Scheduler.chunkOutcome, howner, hpending, hout]

/-- What a round does when it finds a prefill batch. -/
structure Dispatched (c : Ranks) (s s' : Scheduler) (queue : List Batch) (b : Batch) : Prop where
  isExtend : b.isExtend = true
  tracked : Tracked c s' (queue ++ [b])
  upcoming : Upcoming c s' b
  quiet : ∀ r, s'.pendingChunkedAbortReqs r = none
  lastBatch : s'.lastBatch = s.lastBatch
  resultQueue : s'.resultQueue = s.resultQueue
  finished : ∀ rid, (s'.progress rid).finished = (s.progress rid).finished

theorem Tracked.getNewBatchPrefill (h : Tracked c s queue)
    (hidle : ∀ rid ∈ s.waitingQueue, ∀ b ∈ queue, rid ∉ b.reqs (c.dpRank rid))
    (hattended : (∃ r, s.LeftOut inp.budget r) → ∀ r < c.dpSize, (s.adder c inp).canRunList r = []) :
    s.getNewBatchPrefill c inp = some (s, none) ∨
      ∃ s' b, s.getNewBatchPrefill c inp = some (s', some b) ∧ Dispatched c s s' queue b := by
  obtain ⟨hbase, hbaseOwned⟩ := h.ownersAdded inp.budget
  obtain ⟨hfits, hadmits⟩ := admitAll_spec inp.verdict s.waitingQueue hbase
    h.waitingNodup (by
      intro rid hw hmem
      exact (h.ownerAway _ rid (hbaseOwned _ rid hmem)).2.1 hw)
  change AdderFits c _ (s.adder c inp) at hfits
  change Admits _ _ (s.adder c inp) at hadmits
  unfold Scheduler.getNewBatchPrefill
  dsimp only
  by_cases hempty : ∀ r < c.dpSize, (s.adder c inp).canRunList r = []
  · left
    rw [if_pos (by rw [List.all_eq_true]; intro r hr; rw [hempty r (List.mem_range.mp hr)]; rfl)]
    have hsame : s.ownersLeft inp.budget = s.chunkedReqs := by
      funext r
      unfold Scheduler.ownersLeft
      split
      · rename_i rid heq
        have hmem : rid ∈ (s.ownersAdded inp.budget).canRunList r := by
          unfold Scheduler.ownersAdded
          dsimp only
          rw [heq]
          exact List.mem_singleton_self rid
        have hlt := c.dpRank_lt rid
        rw [h.ownerRank r rid (hbaseOwned r rid hmem)] at hlt
        have := hadmits.kept r rid hmem
        rw [hempty r hlt] at this
        cases this
      · rfl
    rw [hsame]
  right
  have hnone : ∀ r, ¬ s.LeftOut inp.budget r := fun r hr => hempty (hattended ⟨r, hr⟩)
  have hpending : ∀ r, s.pendingChunkedAbortReqs r = none := by
    intro r
    by_contra hne
    obtain ⟨rid, hrid⟩ := Option.ne_none_iff_exists'.mp hne
    exact hnone r ⟨rid, h.pendingOwner r rid hrid, .inl hne⟩
  have horigin : ∀ r, ∀ rid ∈ (s.adder c inp).canRunList r,
      s.chunkedReqs r = some rid ∨ rid ∈ s.waitingQueue := fun r rid hmem =>
    (hadmits.added r rid hmem).imp_left (hbaseOwned r rid)
  have howners : ∀ r rid, ((s.adder c inp).newChunkedReqs r).or (s.ownersLeft inp.budget r) =
      some rid → rid ∈ (s.adder c inp).canRunList r := by
    intro r rid ho
    rcases Option.or_eq_some_iff.mp ho with hnew | ⟨-, hleft⟩
    · exact (hfits.chunked r rid hnew).1
    · exact hadmits.kept r rid (ownersLeft_mem hleft (hnone r)).2
  rw [if_neg (by
    rw [List.all_eq_true]
    intro hall
    apply hempty
    intro r hr
    exact List.isEmpty_iff.mp (hall r (List.mem_range.mpr hr)))]
  rw [if_neg (by
    rw [List.any_eq_true]
    rintro ⟨r, -, hr⟩
    rw [Bool.and_eq_true] at hr
    obtain ⟨rid, hnew⟩ := Option.isSome_iff_exists.mp hr.1
    rw [(hfits.chunked r rid hnew).2] at hr
    exact absurd hr.2 (by decide))]
  rw [foldl_countChunk (c := c) _ List.nodup_range (by
    intro r rid ho
    exact hfits.placed.rank r rid (howners r rid ho))]
  dsimp only
  have hprogress : (fun rid =>
      if rid ∈ (s.adder c inp).canRunList (c.dpRank rid) then
        { (if c.dpRank rid ∈ List.range c.dpSize ∧ ((s.adder c inp).newChunkedReqs
              (c.dpRank rid)).or (s.ownersLeft inp.budget (c.dpRank rid)) = some rid then
            { s.progress rid with isChunked := (s.progress rid).isChunked + 1 }
          else s.progress rid : Progress) with isRetracted := false }
      else if c.dpRank rid ∈ List.range c.dpSize ∧ ((s.adder c inp).newChunkedReqs
            (c.dpRank rid)).or (s.ownersLeft inp.budget (c.dpRank rid)) = some rid then
          { s.progress rid with isChunked := (s.progress rid).isChunked + 1 }
        else s.progress rid) =
      s.prepared c (s.adder c inp).canRunList
        (fun r => ((s.adder c inp).newChunkedReqs r).or (s.ownersLeft inp.budget r)) := by
    funext rid
    have hin : c.dpRank rid ∈ List.range c.dpSize := List.mem_range.mpr (c.dpRank_lt rid)
    unfold Scheduler.prepared
    simp only [hin, true_and]
    split <;> split <;> simp
  rw [hprogress]
  cases inp.mixed with
  | true =>
    have hrunning : Placed c fun r => s.unfinished (s.running r) :=
      ⟨fun r rid hmem => h.runningPlaced.rank r rid (List.mem_filter.mp hmem).1,
        fun r => (h.runningPlaced.nodup r).filter _⟩
    obtain ⟨htracked, hupcoming⟩ := h.dispatch _ (fun _ => []) hidle hpending hfits.placed horigin
      howners hrunning (fun r rid hmem => (List.mem_filter.mp hmem).1)
      ⟨nofun, fun _ => List.nodup_nil⟩ nofun
    exact ⟨_, _, rfl, rfl, htracked, hupcoming, hpending, rfl, rfl, fun _ => rfl⟩
  | false =>
    obtain ⟨htracked, hupcoming⟩ := h.dispatch (fun _ => []) s.running hidle hpending hfits.placed
      horigin howners ⟨nofun, fun _ => List.nodup_nil⟩ nofun h.runningPlaced
      (fun r rid hmem => ⟨hmem, nofun⟩)
    simp only [List.append_nil] at htracked hupcoming
    exact ⟨_, _, rfl, rfl, htracked, hupcoming, hpending, rfl, rfl, fun _ => rfl⟩

/-! ### A decode batch -/

/-- The requests that `update_running_batch` retracts. -/
def Scheduler.retractedReqs (c : Ranks) (inp : RoundInput) (s : Scheduler) : List String :=
  (List.range c.dpSize).flatMap fun r => (s.unfinished (s.running r)).filter inp.retracted

/-- The scheduler after the retraction. -/
def Scheduler.retract (c : Ranks) (inp : RoundInput) (s : Scheduler) : Scheduler :=
  { s with
    running := fun r => (s.unfinished (s.running r)).filter fun rid => !inp.retracted rid
    waitingQueue := s.waitingQueue ++ s.retractedReqs c inp
    progress := fun rid =>
      if rid ∈ s.retractedReqs c inp then
        { s.progress rid with isRetracted := true, isChunked := 0 }
      else s.progress rid }

theorem mem_retractedReqs {rid : String} (h : rid ∈ s.retractedReqs c inp) :
    ∃ r, rid ∈ s.running r ∧ (s.progress rid).finished = false ∧ inp.retracted rid = true := by
  obtain ⟨r, -, hmem⟩ := List.mem_flatMap.mp h
  obtain ⟨hmem, hret⟩ := List.mem_filter.mp hmem
  obtain ⟨hrun, hfin⟩ := List.mem_filter.mp hmem
  exact ⟨r, hrun, by simpa using hfin, hret⟩

theorem Tracked.retract (h : Tracked c s queue) : Tracked c (s.retract c inp) queue := by
  have hsame : ∀ rid, (∀ r, rid ∉ s.running r) →
      (s.retract c inp).progress rid = s.progress rid := by
    intro rid hnot
    apply if_neg
    intro hmem
    obtain ⟨r, hrun, -⟩ := mem_retractedReqs hmem
    exact hnot r hrun
  have hkept : ∀ {r rid}, rid ∈ (s.retract c inp).running r →
      rid ∈ s.running r ∧ inp.retracted rid = false := by
    intro r rid hmem
    obtain ⟨hmem, hret⟩ := List.mem_filter.mp hmem
    exact ⟨(List.mem_filter.mp hmem).1, by simpa using hret⟩
  have hownerAway : ∀ r rid, s.chunkedReqs r = some rid → ∀ r', rid ∉ s.running r' := by
    intro r rid ho r' hrun
    have hr' := h.runningPlaced.rank r' rid hrun
    rw [h.ownerRank r rid ho] at hr'
    subst hr'
    exact (h.ownerAway r rid ho).2.2 hrun
  constructor
  case counted =>
    intro rid
    by_cases hmem : rid ∈ s.retractedReqs c inp
    · obtain ⟨r, hrun, -⟩ := mem_retractedReqs hmem
      have hprogress : (s.retract c inp).progress rid =
        { s.progress rid with isRetracted := true, isChunked := 0 } := if_pos hmem
      rw [hprogress, chunksIn_eq_zero.mpr (h.runningAway r rid hrun).2.2]
      rfl
    · rw [show (s.retract c inp).progress rid = s.progress rid from if_neg hmem]
      exact h.counted rid
  case placed => exact h.placed
  case live =>
    intro b hb rid hnf
    rw [hsame rid fun r hrun => (h.runningAway r rid hrun).2.2 b hb hnf]
    exact h.live b hb rid hnf
  case order => exact h.order
  case ownerRank => exact h.ownerRank
  case ownerLive =>
    intro r rid ho
    rw [hsame rid (hownerAway r rid ho)]
    exact h.ownerLive r rid ho
  case ownerChunks => exact h.ownerChunks
  case ownerAway =>
    intro r rid ho
    obtain ⟨hrec, hw, hrun⟩ := h.ownerAway r rid ho
    refine ⟨hrec, ?_, fun hmem => hrun (hkept hmem).1⟩
    intro hmem
    rcases List.mem_append.mp hmem with hmem | hmem
    · exact hw hmem
    · obtain ⟨r', hrun', -⟩ := mem_retractedReqs hmem
      exact hownerAway r rid ho r' hrun'
  case pendingOwner => exact h.pendingOwner
  case runningPlaced =>
    exact ⟨fun r rid hmem => h.runningPlaced.rank r rid (hkept hmem).1,
      fun r => ((h.runningPlaced.nodup r).filter _).filter _⟩
  case runningAway =>
    intro r rid hmem
    obtain ⟨hrun, hret⟩ := hkept hmem
    obtain ⟨hrec, hw, haway⟩ := h.runningAway r rid hrun
    refine ⟨hrec, ?_, haway⟩
    intro hmem'
    rcases List.mem_append.mp hmem' with hmem' | hmem'
    · exact hw hmem'
    · obtain ⟨-, -, -, hret'⟩ := mem_retractedReqs hmem'
      rw [hret] at hret'
      cases hret'
  case waitingNodup =>
    apply List.Nodup.append h.waitingNodup
    · apply List.nodup_flatMap.mpr
      refine ⟨fun r _ => ((h.runningPlaced.nodup r).filter _).filter _, ?_⟩
      apply List.nodup_range.imp
      intro r r' hne rid hmem hmem'
      have hrun := (List.mem_filter.mp (List.mem_filter.mp hmem).1).1
      have hrun' := (List.mem_filter.mp (List.mem_filter.mp hmem').1).1
      exact hne ((h.runningPlaced.rank r rid hrun).symm.trans (h.runningPlaced.rank r' rid hrun'))
    · intro rid hw hmem
      obtain ⟨r, hrun, -⟩ := mem_retractedReqs hmem
      exact (h.runningAway r rid hrun).2.1 hw
  case waitingLive =>
    intro rid hmem
    by_cases hret : rid ∈ s.retractedReqs c inp
    · obtain ⟨r, hrun, hfin, -⟩ := mem_retractedReqs hret
      have hprogress : (s.retract c inp).progress rid =
        { s.progress rid with isRetracted := true, isChunked := 0 } := if_pos hret
      rw [hprogress]
      exact ⟨(h.runningAway r rid hrun).1, hfin, fun _ _ _ => rfl⟩
    · rw [show (s.retract c inp).progress rid = s.progress rid from if_neg hret]
      exact h.waitingLive rid ((List.mem_append.mp hmem).resolve_right hret)
  case known => exact h.known

/-- The running batch is dispatched for its next token. -/
theorem Tracked.dispatchRunning (h : Tracked c s queue) :
    let b : Batch := { isExtend := false, reqs := s.running, chunkedReq := fun _ => none }
    Tracked c s (queue ++ [b]) ∧ Upcoming c s b := by
  intro b
  have hnonFinal : ∀ rid, ¬ b.NonFinal c rid := fun rid hnf => Bool.false_ne_true hnf.1
  have hsnoc : ∀ {b'}, b' ∈ queue ++ [b] → b' ∈ queue ∨ b' = b := fun hb' =>
    (List.mem_append.mp hb').imp_right List.mem_singleton.mp
  refine ⟨?_, h.runningPlaced, nofun, ?_, nofun, fun rid hmem => (h.runningAway _ rid hmem).1⟩
  swap
  · intro rid hw hmem
    exact (h.runningAway _ rid hmem).2.1 hw
  constructor
  case counted =>
    intro rid
    rw [chunksIn_snoc, if_neg (hnonFinal rid), Nat.add_zero]
    exact h.counted rid
  case placed =>
    intro b' hb'
    rcases hsnoc hb' with hb' | rfl
    · exact h.placed b' hb'
    · exact h.runningPlaced
  case live =>
    intro b' hb' rid hnf
    rcases hsnoc hb' with hb' | rfl
    · exact h.live b' hb' rid hnf
    · exact absurd hnf (hnonFinal rid)
  case order =>
    rw [List.pairwise_append]
    refine ⟨h.order, List.pairwise_singleton .., ?_⟩
    intro b₀ _ b' hb' rid _ hnf
    rw [List.mem_singleton.mp hb'] at hnf
    exact absurd hnf (hnonFinal rid)
  case ownerRank => exact h.ownerRank
  case ownerLive => exact h.ownerLive
  case ownerChunks =>
    intro r rid ho b' hb' hin
    rcases hsnoc hb' with hb' | rfl
    · exact h.ownerChunks r rid ho b' hb' hin
    · rw [h.ownerRank r rid ho] at hin
      exact absurd hin (h.ownerAway r rid ho).2.2
  case ownerAway => exact h.ownerAway
  case pendingOwner => exact h.pendingOwner
  case runningPlaced => exact h.runningPlaced
  case runningAway =>
    intro r rid hrun
    obtain ⟨hrec, hw, haway⟩ := h.runningAway r rid hrun
    refine ⟨hrec, hw, ?_⟩
    intro b' hb'
    rcases hsnoc hb' with hb' | rfl
    · exact haway b' hb'
    · exact hnonFinal rid
  case waitingNodup => exact h.waitingNodup
  case waitingLive =>
    intro rid hw
    obtain ⟨hrec, hfin, hret⟩ := h.waitingLive rid hw
    refine ⟨hrec, hfin, ?_⟩
    intro b' hb' hin
    rcases hsnoc hb' with hb' | rfl
    · exact hret b' hb' hin
    · exact absurd hw (h.runningAway _ rid hin).2.1
  case known =>
    intro b' hb' rid hin
    rcases hsnoc hb' with hb' | rfl
    · exact h.known b' hb' rid hin
    · exact (h.runningAway _ rid hin).1

theorem Tracked.updateRunningBatch (h : Tracked c s queue) (inp : RoundInput) :
    let result := s.updateRunningBatch c inp
    Tracked c result.1 (queue ++ result.2.toList) ∧
      (∀ b, result.2 = some b → b.isExtend = false ∧ Upcoming c result.1 b) ∧
      result.1 = s.retract c inp := by
  intro result
  have hretract : Tracked c (s.retract c inp) queue := h.retract
  have hresult : result =
      if (List.range c.dpSize).all fun r => ((s.retract c inp).running r).isEmpty then
        (s.retract c inp, none)
      else (s.retract c inp, some
        { isExtend := false, reqs := (s.retract c inp).running, chunkedReq := fun _ => none }) := rfl
  rw [hresult]
  split
  · exact ⟨by simpa using hretract, nofun, rfl⟩
  · obtain ⟨htracked, hupcoming⟩ := hretract.dispatchRunning
    refine ⟨htracked, ?_, rfl⟩
    intro b hb
    cases hb
    exact ⟨rfl, hupcoming⟩

/-! ### Rounds -/

/-- The inputs of the round: whenever the adder finds something to run, no rank's
owner is left out. The adder works on the scheduler after the last batch has
been merged. -/
def Scheduler.OwnersAttended (c : Ranks) (s : Scheduler) (inp : RoundInput) : Prop :=
  ∀ s₁, s.prepareRound c = some s₁ → inp.prefillAllowed = true →
    (∃ r, s₁.LeftOut inp.budget r) → ∀ r < c.dpSize, (s₁.adder c inp).canRunList r = []

theorem mergeLastBatch_eq (exclude : Nat → Option String) (s : Scheduler) :
    ∃ running, s.mergeLastBatch exclude = { s with running } := by
  unfold Scheduler.mergeLastBatch
  split
  · exact ⟨s.running, rfl⟩
  · split
    · exact ⟨_, rfl⟩
    · exact ⟨s.running, rfl⟩

/-- The first half of a round up to the prefill batch. -/
theorem AtInput.prepareRound (h : AtInput c overlap s) :
    ∃ s₁, s.prepareRound c = some s₁ ∧ Tracked c s₁ s.resultQueue ∧
      s₁.waitingQueue = s.waitingQueue ∧ s₁.lastBatch = s.lastBatch ∧
      s₁.resultQueue = s.resultQueue ∧
      (∀ r rid, s₁.pendingChunkedAbortReqs r = some rid → 0 < s.inFlight c rid) ∧
      ∀ r rid, s.pendingChunkedAbortReqs r = some rid → s.inFlight c rid = 0 →
        (s₁.progress rid).finished = true ∧ s₁.pendingChunkedAbortReqs r = none := by
  obtain ⟨s₀, heq, htracked, hframe, -, hleft, hdone⟩ :=
    h.tracked.processPending (List.range c.dpSize)
  have hcounted : ∀ rid, (s.progress rid).isChunked = s.inFlight c rid := h.tracked.counted
  have hinRange : ∀ r rid, s.chunkedReqs r = some rid → r ∈ List.range c.dpSize := by
    intro r rid howner
    rw [← h.tracked.ownerRank r rid howner]
    exact List.mem_range.mpr (c.dpRank_lt rid)
  have hmerged : Tracked c (s₀.mergeLastBatch s.chunkedReqs) s.resultQueue := by
    apply htracked.mergeLastBatch
    · intro r rid howner
      rcases hframe.cleared r with ⟨hsame, -⟩ | ⟨hnone, -⟩
      · rw [← hsame, howner]
      · rw [hnone] at howner
        cases howner
    · intro b hb hext
      have hlast : Upcoming c s b := h.last b (hframe.lastBatch.symm.trans hb)
      refine ⟨hlast.placed, ?_, ?_, ?_, ?_⟩
      · rw [hframe.waitingQueue]
        exact hlast.waiting
      · rw [hframe.running]
        exact hlast.running hext
      · rw [hframe.received]
        exact hlast.known
      · -- A chunk in flight is one of the last batch, whose owners stay apart.
        intro r rid hmem hexclude b' hb' hnf
        rw [h.queue] at hb'
        split at hb'
        · rw [← hframe.lastBatch, hb] at hb'
          rw [List.mem_singleton.mp hb'] at hnf
          have howner := hlast.owner hext _ rid hnf.2.2
          rw [hlast.placed.rank r rid hmem] at howner
          exact hexclude howner
        · cases hb'
  obtain ⟨running, hmerge⟩ := mergeLastBatch_eq s.chunkedReqs s₀
  refine ⟨s₀.mergeLastBatch s.chunkedReqs, ?_, hmerged, ?_, ?_, ?_, ?_, ?_⟩
  · unfold Scheduler.prepareRound Scheduler.processPendingChunkedAborts
    rw [h.syncChunkedReqOwners]
    change (List.foldlM Scheduler.processPendingAt s (List.range c.dpSize)).bind _ = _
    rw [heq]
    rfl
  · rw [hmerge]
    exact hframe.waitingQueue
  · rw [hmerge]
    exact hframe.lastBatch
  · rw [hmerge]
    exact hframe.resultQueue
  · intro r rid hpending
    rw [hmerge] at hpending
    have howner : s.chunkedReqs r = some rid := by
      have howner := htracked.pendingOwner r rid hpending
      rcases hframe.cleared r with ⟨hsame, -⟩ | ⟨hnone, -⟩
      · rw [← hsame, howner]
      · rw [hnone] at howner
        cases howner
    have hpos := hleft r (hinRange r rid howner) rid hpending
    rw [hcounted] at hpos
    omega
  · intro r rid hpending hzero
    rw [hmerge]
    have howner := h.tracked.pendingOwner r rid hpending
    exact hdone r (hinRange r rid howner) rid hpending (by rw [hcounted, hzero]; rfl)

theorem AtInput.schedule (h : AtInput c overlap s) (hattended : s.OwnersAttended c inp) :
    ∃ s', s.schedule c inp = some s' ∧ AtResult c overlap s' ∧
      ∀ r rid, s.pendingChunkedAbortReqs r = some rid → s.inFlight c rid = 0 →
        (s'.progress rid).finished = true ∧ s'.pendingChunkedAbortReqs r = none := by
  obtain ⟨s₁, hprepare, htracked, hwaiting, hlast, hqueue, hleft, hdone⟩ := h.prepareRound
  have hidle : ∀ rid ∈ s₁.waitingQueue, ∀ b ∈ s.resultQueue, rid ∉ b.reqs (c.dpRank rid) := by
    intro rid hw b hb
    rw [hwaiting] at hw
    rw [h.queue] at hb
    split at hb
    · exact (h.last b (by simpa using hb)).waiting rid hw
    · cases hb
  -- With a pending abort left, its chunk is in the last batch.
  have hdue : ∀ r rid, s₁.pendingChunkedAbortReqs r = some rid →
      overlap = true ∧ ∃ b, s.lastBatch = some b ∧ b.NonFinal c rid := by
    intro r rid hpending
    have hpos := hleft r rid hpending
    obtain ⟨b, hb, hnf⟩ := List.countP_pos_iff.mp hpos
    rw [h.queue] at hb
    split at hb
    · rename_i hoverlap
      exact ⟨hoverlap, b, by simpa using hb, by simpa using hnf⟩
    · cases hb
  -- Without a prefill batch, the running batch is decoded.
  have hdecode : ∀ {s₂ : Scheduler} {batch : Option Batch},
      s₁.updateRunningBatch c inp = (s₂, batch) →
      AtResult c overlap { s₂ with curBatch := batch, resultQueue := s₂.resultQueue ++ batch.toList } ∧
      ∀ r rid, s.pendingChunkedAbortReqs r = some rid → s.inFlight c rid = 0 →
        (s₂.progress rid).finished = true ∧ s₂.pendingChunkedAbortReqs r = none := by
    intro s₂ batch heq
    obtain ⟨htracked₂, hcur, hretract⟩ := htracked.updateRunningBatch inp
    rw [heq] at htracked₂ hcur hretract
    dsimp only at htracked₂ hcur hretract
    have hqueue₂ : s₂.resultQueue = s.resultQueue := by
      rw [hretract]
      exact hqueue
    have hlast₂ : s₂.lastBatch = s.lastBatch := by
      rw [hretract]
      exact hlast
    have hpending₂ : s₂.pendingChunkedAbortReqs = s₁.pendingChunkedAbortReqs := by
      rw [hretract]
      rfl
    refine ⟨⟨?_, ?_, ?_, ?_, ?_⟩, ?_⟩
    · rw [hqueue₂]
      exact htracked₂.setBatches s₂.lastBatch batch _
    · change s₂.resultQueue ++ batch.toList = _
      rw [hqueue₂, h.queue, ← hlast₂]
    · intro b hb
      have hup := (hcur b hb).2
      exact ⟨hup.placed, hup.owner, hup.waiting, hup.running, hup.known⟩
    · intro b hb hext
      rw [(hcur b hb).1] at hext
      cases hext
    · intro r rid hpending
      obtain ⟨hoverlap, b, hb, hnf⟩ := hdue r rid (by rw [← hpending₂]; exact hpending)
      exact ⟨hoverlap, b, hlast₂.trans hb, hnf⟩
    · intro r rid hpending hzero
      obtain ⟨hfin, hnone⟩ := hdone r rid hpending hzero
      refine ⟨?_, by rw [hpending₂]; exact hnone⟩
      rw [hretract]
      unfold Scheduler.retract
      dsimp only
      split <;> exact hfin
  have hnext : ∀ {s₂ : Scheduler} {batch : Option Batch},
      s.getNextBatchToRun c inp = some (s₂, batch) → s.schedule c inp =
        some { s₂ with curBatch := batch, resultQueue := s₂.resultQueue ++ batch.toList } := by
    intro s₂ batch heq
    unfold Scheduler.schedule
    rw [heq]
    rfl
  have hround : ∀ {s₂ : Scheduler} {batch : Option Batch},
      (if inp.prefillAllowed then s₁.getNewBatchPrefill c inp else some (s₁, none)) =
        some (s₂, batch) →
      s.getNextBatchToRun c inp =
        some (batch.elim (s₂.updateRunningBatch c inp) fun b => (s₂, some b)) := by
    intro s₂ batch heq
    unfold Scheduler.getNextBatchToRun
    rw [hprepare]
    cases hallowed : inp.prefillAllowed with
    | true =>
      rw [hallowed, if_pos rfl] at heq
      change (s₁.getNewBatchPrefill c inp).bind _ = _
      rw [heq]
      cases batch <;> rfl
    | false =>
      rw [hallowed] at heq
      cases heq
      rfl
  by_cases hallowed : inp.prefillAllowed = true
  · rw [if_pos hallowed] at hround
    rcases htracked.getNewBatchPrefill hidle (hattended s₁ hprepare hallowed) with
      hnone | ⟨s₂, b, hsome, hdispatched⟩
    · obtain ⟨hresult, hfinal⟩ := hdecode rfl
      exact ⟨_, hnext (hround hnone), hresult, hfinal⟩
    · refine ⟨_, hnext (hround hsome), ⟨?_, ?_, ?_, ?_, ?_⟩, ?_⟩
      · have := hdispatched.tracked.setBatches s₂.lastBatch (some b) (s₂.resultQueue ++ [b])
        rw [← hqueue, ← hdispatched.resultQueue] at this
        exact this
      · change s₂.resultQueue ++ [b] = _
        rw [hdispatched.resultQueue, hqueue, h.queue, ← hlast, ← hdispatched.lastBatch]
        rfl
      · intro b' hb'
        cases hb'
        have hup := hdispatched.upcoming
        exact ⟨hup.placed, hup.owner, hup.waiting, hup.running, hup.known⟩
      · exact fun _ _ _ => hdispatched.quiet
      · intro r rid hpending
        change s₂.pendingChunkedAbortReqs r = some rid at hpending
        rw [hdispatched.quiet r] at hpending
        cases hpending
      · intro r rid hpending hzero
        exact ⟨(hdispatched.finished rid).trans (hdone r rid hpending hzero).1,
          hdispatched.quiet r⟩
  · rw [if_neg hallowed] at hround
    obtain ⟨hresult, hfinal⟩ := hdecode rfl
    exact ⟨_, hnext (hround rfl), hresult, hfinal⟩

/-! ### Runs -/

/-- A round is in its first half until a batch has been dispatched. -/
inductive Phase where
  | input
  | result
deriving DecidableEq, Repr

/-- The states of the event loop in which every round's inputs meet `ok`. Requests
and aborts are received before the batch of a round is built. -/
inductive Reaches (c : Ranks) (overlap : Bool) (ok : Scheduler → RoundInput → Prop) :
    Phase → Scheduler → Prop where
  | start : Reaches c overlap ok .input .init
  | receive {s : Scheduler} (rid : String) (h : Reaches c overlap ok .input s) :
      Reaches c overlap ok .input (s.receive rid)
  | abort {s s' : Scheduler} (matching : String → Bool) (h : Reaches c overlap ok .input s)
      (habort : s.abortRequest c matching = some s') : Reaches c overlap ok .input s'
  | schedule {s s' : Scheduler} (inp : RoundInput) (h : Reaches c overlap ok .input s)
      (hok : ok s inp) (hschedule : s.schedule c inp = some s') : Reaches c overlap ok .result s'
  | finish {s s' : Scheduler} (out : BatchOutput) (h : Reaches c overlap ok .result s)
      (hfinish : s.finishRound c overlap out = some s') : Reaches c overlap ok .input s'

theorem AtInput.init : AtInput c overlap .init := by
  refine ⟨⟨fun _ => rfl, nofun, nofun, List.Pairwise.nil, nofun, nofun, nofun, nofun, nofun,
    ⟨nofun, fun _ => List.nodup_nil⟩, nofun, List.nodup_nil, nofun, nofun⟩, ?_, nofun⟩
  cases overlap <;> rfl

theorem AtInput.receive (h : AtInput c overlap s) (rid : String) :
    AtInput c overlap (s.receive rid) := by
  unfold Scheduler.receive
  split
  · exact h
  rename_i hnew
  have htracked := h.tracked
  have hwaiting : ∀ {rid'}, rid' ∈ s.waitingQueue ++ [rid] → rid' ∈ s.waitingQueue ∨ rid' = rid :=
    fun hmem => (List.mem_append.mp hmem).imp_right List.mem_singleton.mp
  have hknown : ∀ {rid'}, rid' ∈ s.received → rid' ∈ rid :: s.received := List.mem_cons_of_mem _
  have hne : ∀ {rid'}, rid' ∈ s.received → rid' ∉ s.waitingQueue → rid' ∉ s.waitingQueue ++ [rid] := by
    intro rid' hrec hw hmem
    rcases hwaiting hmem with hmem | rfl
    · exact hw hmem
    · exact hnew hrec
  have hold : ∀ {rid'}, rid' ∈ s.received →
      (s.setProgress rid Progress.fresh).progress rid' = s.progress rid' := by
    intro rid' hrec
    apply Function.update_of_ne
    rintro rfl
    exact hnew hrec
  refine ⟨⟨?_, htracked.placed, ?_, htracked.order, htracked.ownerRank, ?_, htracked.ownerChunks, ?_,
    htracked.pendingOwner, htracked.runningPlaced, ?_, ?_, ?_, ?_⟩, h.queue, ?_⟩
  · intro rid'
    change ((s.setProgress rid Progress.fresh).progress rid').isChunked = _
    by_cases heq : rid' = rid
    · subst heq
      have hnone : ∀ b ∈ s.resultQueue, ¬ b.NonFinal c rid' := fun b hb hnf =>
        hnew (htracked.known b hb rid' hnf.2.1)
      rw [Scheduler.setProgress_self]
      exact (congrArg Int.ofNat (chunksIn_eq_zero.mpr hnone)).symm
    · rw [show (s.setProgress rid Progress.fresh).progress rid' = s.progress rid' from
        Function.update_of_ne heq ..]
      exact htracked.counted rid'
  · intro b hb rid' hnf
    change ((s.setProgress rid Progress.fresh).progress rid').finished = false ∧
      ((s.setProgress rid Progress.fresh).progress rid').isRetracted = false
    rw [hold (htracked.known b hb rid' hnf.2.1)]
    exact htracked.live b hb rid' hnf
  · intro r rid' ho
    change ((s.setProgress rid Progress.fresh).progress rid').finished = false ∧
      ((s.setProgress rid Progress.fresh).progress rid').isRetracted = false
    rw [hold (htracked.ownerAway r rid' ho).1]
    exact htracked.ownerLive r rid' ho
  · intro r rid' ho
    obtain ⟨hrec, hw, hrun⟩ := htracked.ownerAway r rid' ho
    exact ⟨hknown hrec, hne hrec hw, hrun⟩
  · intro r rid' hrun
    obtain ⟨hrec, hw, haway⟩ := htracked.runningAway r rid' hrun
    exact ⟨hknown hrec, hne hrec hw, haway⟩
  · apply List.Nodup.append htracked.waitingNodup (List.nodup_singleton rid)
    intro rid' hw hmem
    rw [List.mem_singleton.mp hmem] at hw
    exact hnew (htracked.waitingLive rid hw).1
  · intro rid' hmem
    change rid' ∈ rid :: s.received ∧
      ((s.setProgress rid Progress.fresh).progress rid').finished = false ∧
      ∀ b ∈ s.resultQueue, rid' ∈ b.reqs (c.dpRank rid') →
        ((s.setProgress rid Progress.fresh).progress rid').isRetracted = true
    rcases hwaiting hmem with hw | rfl
    · obtain ⟨hrec, hlive⟩ := htracked.waitingLive rid' hw
      rw [hold hrec]
      exact ⟨hknown hrec, hlive⟩
    · rw [Scheduler.setProgress_self]
      exact ⟨List.mem_cons_self .., rfl,
        fun b hb hin => absurd (htracked.known b hb rid' hin) hnew⟩
  · exact fun b hb rid' hin => hknown (htracked.known b hb rid' hin)
  · intro b hb
    have hlast := h.last b hb
    refine ⟨hlast.placed, hlast.owner, ?_, hlast.running, fun rid' hin => hknown (hlast.known rid' hin)⟩
    intro rid' hmem hin
    rcases hwaiting hmem with hw | rfl
    · exact hlast.waiting rid' hw hin
    · exact hnew (hlast.known rid' hin)

theorem AtInput.abortRequest (h : AtInput c overlap s) (matching : String → Bool) :
    ∃ s', s.abortRequest c matching = some s' ∧ AtInput c overlap s' := by
  have htracked := h.tracked
  set s₁ : Scheduler := { s with
    pendingChunkedAbortReqs := fun r =>
      if (s.chunkedReqs r).any matching then s.chunkedReqs r else s.pendingChunkedAbortReqs r
    waitingQueue := s.waitingQueue.filter fun rid => !matching rid } with hs₁
  have hmark : s.abortRequest c matching = some s₁ := by
    unfold Scheduler.abortRequest Scheduler.markPendingChunkedAborts
    rw [h.syncChunkedReqOwners]
    dsimp only [bind, Option.bind]
    rw [if_pos]
    · rfl
    · rw [List.all_eq_true]
      intro r _
      cases hpending : s.pendingChunkedAbortReqs r with
      | none => simp
      | some rid => simp [htracked.pendingOwner r rid hpending]
  have hsub : ∀ {rid}, rid ∈ s₁.waitingQueue → rid ∈ s.waitingQueue := fun hmem =>
    (List.mem_filter.mp hmem).1
  refine ⟨s₁, hmark, ⟨htracked.counted, htracked.placed, htracked.live, htracked.order,
    htracked.ownerRank, htracked.ownerLive, htracked.ownerChunks, ?_, ?_, htracked.runningPlaced, ?_,
    htracked.waitingNodup.filter _, fun rid hw => htracked.waitingLive rid (hsub hw),
    htracked.known⟩, h.queue, ?_⟩
  · intro r rid ho
    obtain ⟨hrec, hw, hrun⟩ := htracked.ownerAway r rid ho
    exact ⟨hrec, fun hmem => hw (hsub hmem), hrun⟩
  · intro r rid hpending
    rw [hs₁] at hpending
    dsimp only at hpending
    split at hpending
    · exact hpending
    · exact htracked.pendingOwner r rid hpending
  · intro r rid hrun
    obtain ⟨hrec, hw, haway⟩ := htracked.runningAway r rid hrun
    exact ⟨hrec, fun hmem => hw (hsub hmem), haway⟩
  · intro b hb
    have hlast := h.last b hb
    exact ⟨hlast.placed, hlast.owner, fun rid hw => hlast.waiting rid (hsub hw), hlast.running,
      hlast.known⟩

/-- What holds in each half of a round. -/
def InPhase (c : Ranks) (overlap : Bool) : Phase → Scheduler → Prop
  | .input => AtInput c overlap
  | .result => AtResult c overlap

theorem Reaches.inPhase {phase : Phase}
    (h : Reaches c overlap (Scheduler.OwnersAttended c) phase s) : InPhase c overlap phase s := by
  induction h with
  | start => exact AtInput.init
  | receive rid _ ih => exact AtInput.receive ih rid
  | abort matching _ habort ih =>
    obtain ⟨s', heq, hs'⟩ := AtInput.abortRequest ih matching
    rw [habort] at heq
    cases heq
    exact hs'
  | schedule inp _ hok hschedule ih =>
    obtain ⟨s', heq, hs', -⟩ := AtInput.schedule ih hok
    rw [hschedule] at heq
    cases heq
    exact hs'
  | finish out _ hfinish ih =>
    obtain ⟨s', heq, hs', -⟩ := AtResult.finishRound ih out
    rw [hfinish] at heq
    cases heq
    exact hs'

/-- As long as no round dispatches a batch that leaves an owner out, the counter
is exact. Then no assertion of the loop fails, the token of a last chunk is
appended to its request, and a pending abort is finalized as soon as no chunk of
the request is in flight. -/
theorem counter_exact_of_attended {phase : Phase}
    (h : Reaches c overlap (Scheduler.OwnersAttended c) phase s) :
    s.CounterExact c ∧
    (phase = .input → ∀ inp, s.OwnersAttended c inp → ∃ s', s.schedule c inp = some s' ∧
      ∀ r rid, s.pendingChunkedAbortReqs r = some rid → s.inFlight c rid = 0 →
        (s'.progress rid).finished = true ∧ s'.pendingChunkedAbortReqs r = none) ∧
    (phase = .result → ∀ out, ∃ s', s.finishRound c overlap out = some s' ∧
      (∀ b, (if overlap then s.lastBatch else s.curBatch) = some b →
        ∀ rid ∈ b.reqs (c.dpRank rid), ¬ b.NonFinal c rid → (s.progress rid).finished = false →
          (s.progress rid).isRetracted = false →
          (s'.progress rid).outputIds = (s.progress rid).outputIds ++ [out.nextTokenId rid]) ∧
      ∀ r rid, s.pendingChunkedAbortReqs r = some rid →
        (s'.progress rid).finished = true ∧ s'.pendingChunkedAbortReqs r = none) := by
  have hphase := h.inPhase
  refine ⟨?_, ?_, ?_⟩
  · cases phase with
    | input => exact hphase.tracked.counted
    | result => exact hphase.tracked.counted
  · rintro rfl inp hattended
    obtain ⟨s', heq, -, haborts⟩ := AtInput.schedule hphase hattended
    exact ⟨s', heq, haborts⟩
  · rintro rfl out
    obtain ⟨s', heq, -, hreturned⟩ := AtResult.finishRound hphase out
    refine ⟨s', heq, ?_, hreturned.aborts⟩
    intro b hb rid hmem hfinal hfin hret
    exact (hreturned.settled b hb rid hmem).token hfin hret fun hext howner =>
      hfinal ⟨hext, hmem, howner⟩

end

/-! ### Two ranks -/

/-- Rank 0 serves one request with a long prompt. -/
def twoRanks : Ranks where
  dpSize := 2
  dpRank rid := if rid = "long" then 0 else 1
  dpRank_lt rid := by split <;> decide

/-- Chunks of 4 tokens for a hybrid model whose window pool has room for
`remSwaTokens`. The long prompt is cut when it is admitted. -/
def hybridRound (remSwaTokens : Int) : RoundInput where
  prefillAllowed := true
  budget := fun _ =>
    { extendInputLen := 4, remChunkTokens := 4, remTotalTokens := 64,
      remSwaTokens := some remSwaTokens, pageSize := 1, boundaryCap := none }
  verdict rid := .add (rid = "long") false
  mixed := false
  retracted := fun _ => false

def anyOutput : BatchOutput := ⟨fun _ => 7, fun _ => false⟩

/-- The first chunk of the long prompt is counted. -/
theorem firstChunk_counted : ∃ s, (Scheduler.init.receive "long").schedule twoRanks (hybridRound 9) =
    some s ∧ s.CounterExact twoRanks ∧ (s.progress "long").isChunked = 1 := by
  have hattended : (Scheduler.init.receive "long").OwnersAttended twoRanks (hybridRound 9) := by
    rintro s₁ heq - ⟨r, rid, howner, -⟩
    cases heq
    cases howner
  have hstart : Reaches twoRanks false (Scheduler.OwnersAttended twoRanks) .input
    (Scheduler.init.receive "long") := .receive "long" .start
  obtain ⟨s, heq, -⟩ := (counter_exact_of_attended hstart).2.1 rfl _ hattended
  have hone : (((Scheduler.init.receive "long").schedule twoRanks (hybridRound 9)).map fun s =>
      (s.progress "long").isChunked) = some 1 := by decide
  rw [heq] at hone
  exact ⟨s, heq, (counter_exact_of_attended (.schedule _ hstart hattended heq)).1,
    Option.some.inj hone⟩

/-- A round for the long prompt, then one in which its rank has no room in the
window pool while the other rank admits a request. -/
def parkedRun : Option Scheduler := do
  let s ← (Scheduler.init.receive "long").schedule twoRanks (hybridRound 9)
  let s ← s.finishRound twoRanks false anyOutput
  let s ← (s.receive "short").schedule twoRanks (hybridRound 1)
  s.finishRound twoRanks false anyOutput

/-- The parked prompt has no chunk in flight and is counted all the same. -/
theorem parked_owner_miscounted : ∃ s, Reaches twoRanks false (fun _ _ => True) .input s ∧
    ¬ s.CounterExact twoRanks := by
  have hcount : (parkedRun.map fun s =>
      ((s.progress "long").isChunked, s.inFlight twoRanks "long")) = some (1, 0) := by decide
  obtain ⟨s, hrun, hvalues⟩ := Option.map_eq_some_iff.mp hcount
  unfold parkedRun at hrun
  obtain ⟨s₁, h₁, hrun⟩ := Option.bind_eq_some_iff.mp hrun
  obtain ⟨s₂, h₂, hrun⟩ := Option.bind_eq_some_iff.mp hrun
  obtain ⟨s₃, h₃, hrun⟩ := Option.bind_eq_some_iff.mp hrun
  refine ⟨s, ?_, ?_⟩
  · have hfirst : Reaches twoRanks false (fun _ _ => True) .result s₁ :=
      .schedule (hybridRound 9) (.receive "long" .start) trivial h₁
    have hsecond : Reaches twoRanks false (fun _ _ => True) .result s₃ :=
      .schedule (hybridRound 1) (.receive "short" (.finish anyOutput hfirst h₂)) trivial h₃
    exact .finish anyOutput hsecond hrun
  · intro hexact
    have := hexact "long"
    rw [(Prod.mk.inj hvalues).1, (Prod.mk.inj hvalues).2] at this
    exact absurd this (by decide)

end SglJax.Managers
