import SglJax.Managers.ChunkedPrefill

/-! `is_chunked` counts the chunks of a request that are in flight, as long as a
batch is only dispatched together with a chunk of every rank's owner. -/
namespace SglJax.Managers

/-- The batch carries a chunk of the request that is not its last. -/
def Batch.NonFinal (c : Ranks) (b : Batch) (rid : String) : Prop :=
  b.isExtend = true ∧ rid ∈ b.reqs (c.dpRank rid) ∧ b.chunkedReq (c.dpRank rid) = some rid

instance (c : Ranks) (b : Batch) (rid : String) : Decidable (b.NonFinal c rid) :=
  inferInstanceAs (Decidable (_ ∧ _ ∧ _))

/-- Non-final chunks of the request in the given batches. -/
def chunksIn (c : Ranks) (queue : List Batch) (rid : String) : Nat :=
  queue.countP fun b => b.NonFinal c rid

namespace Scheduler

/-- Non-final chunks of the request that were dispatched and whose results have
not been processed. -/
def inFlight (c : Ranks) (s : Scheduler) (rid : String) : Nat := chunksIn c s.resultQueue rid

def CounterExact (c : Ranks) (s : Scheduler) : Prop :=
  ∀ rid, (s.progress rid).isChunked = s.inFlight c rid

end Scheduler

/-! ### What is kept -/

/-- Every request stands in the list of its own rank, once. -/
structure Placed (c : Ranks) (reqs : Nat → List String) : Prop where
  rank : ∀ r, ∀ rid ∈ reqs r, c.dpRank rid = r
  nodup : ∀ r, (reqs r).Nodup

/-- The requests know where they are: `queue` are the batches in flight. -/
structure Tracked (c : Ranks) (s : Scheduler) (queue : List Batch) : Prop where
  counted : ∀ rid, (s.progress rid).isChunked = chunksIn c queue rid
  placed : ∀ b ∈ queue, Placed c b.reqs
  live : ∀ b ∈ queue, ∀ rid, b.NonFinal c rid →
    (s.progress rid).finished = false ∧ (s.progress rid).isRetracted = false
  /-- The last chunk of a request is dispatched after all others. -/
  order : queue.Pairwise fun b b' => ∀ rid, rid ∈ b.reqs (c.dpRank rid) →
    b'.NonFinal c rid → b.NonFinal c rid
  ownerRank : ∀ r rid, s.chunkedReqs r = some rid → c.dpRank rid = r
  ownerLive : ∀ r rid, s.chunkedReqs r = some rid →
    (s.progress rid).finished = false ∧ (s.progress rid).isRetracted = false
  ownerChunks : ∀ r rid, s.chunkedReqs r = some rid → ∀ b ∈ queue,
    rid ∈ b.reqs (c.dpRank rid) → b.NonFinal c rid
  ownerAway : ∀ r rid, s.chunkedReqs r = some rid →
    rid ∈ s.received ∧ rid ∉ s.waitingQueue ∧ rid ∉ s.running r
  pendingOwner : ∀ r rid, s.pendingChunkedAbortReqs r = some rid → s.chunkedReqs r = some rid
  runningPlaced : Placed c s.running
  runningAway : ∀ r, ∀ rid ∈ s.running r, rid ∈ s.received ∧ rid ∉ s.waitingQueue ∧
    ∀ b ∈ queue, ¬ b.NonFinal c rid
  waitingNodup : s.waitingQueue.Nodup
  waitingLive : ∀ rid ∈ s.waitingQueue, rid ∈ s.received ∧ (s.progress rid).finished = false ∧
    ∀ b ∈ queue, rid ∈ b.reqs (c.dpRank rid) → (s.progress rid).isRetracted = true
  known : ∀ b ∈ queue, ∀ rid ∈ b.reqs (c.dpRank rid), rid ∈ s.received

section

variable {c : Ranks} {s s' : Scheduler} {queue rest : List Batch} {b : Batch} {rid : String}
  {r : Nat}

theorem chunksIn_eq_zero : chunksIn c queue rid = 0 ↔ ∀ b ∈ queue, ¬ b.NonFinal c rid := by
  unfold chunksIn
  rw [List.countP_eq_zero]
  simp

theorem chunksIn_cons : chunksIn c (b :: rest) rid =
    chunksIn c rest rid + if b.NonFinal c rid then 1 else 0 := by
  unfold chunksIn
  rw [List.countP_cons]
  simp

/-! ### A result, request by request -/

/-- The batch less one request of rank `r`. -/
def Batch.without (b : Batch) (r : Nat) (tail : List String) : Batch :=
  { b with reqs := Function.update b.reqs r tail }

section Shrink

variable {tail : List String}

theorem Batch.mem_without (hreqs : b.reqs r = rid :: tail) {r' : Nat} {rid' : String}
    (h : rid' ∈ (b.without r tail).reqs r') : rid' ∈ b.reqs r' := by
  unfold Batch.without at h
  dsimp only at h
  by_cases hr : r' = r
  · subst hr
    rw [Function.update_self] at h
    rw [hreqs]
    exact List.mem_cons_of_mem _ h
  · rwa [Function.update_of_ne hr] at h

theorem Batch.without_nonFinal (hreqs : b.reqs r = rid :: tail) {rid' : String}
    (h : (b.without r tail).NonFinal c rid') : b.NonFinal c rid' :=
  ⟨h.1, Batch.mem_without hreqs h.2.1, h.2.2⟩

theorem Batch.without_nonFinal_iff (hreqs : b.reqs r = rid :: tail) {rid' : String}
    (hne : rid' ≠ rid) : (b.without r tail).NonFinal c rid' ↔ b.NonFinal c rid' := by
  constructor
  · exact Batch.without_nonFinal hreqs
  · rintro ⟨hext, hmem, howner⟩
    refine ⟨hext, ?_, howner⟩
    unfold Batch.without
    dsimp only
    by_cases hr : c.dpRank rid' = r
    · rw [hr, Function.update_self]
      rw [hr, hreqs] at hmem
      exact (List.mem_cons.mp hmem).resolve_left hne
    · rwa [Function.update_of_ne hr]

theorem Placed.without (h : Placed c b.reqs) (hreqs : b.reqs r = rid :: tail) :
    Placed c (b.without r tail).reqs := by
  constructor
  · intro r' rid' hmem
    exact h.rank r' rid' (Batch.mem_without hreqs hmem)
  · intro r'
    unfold Batch.without
    dsimp only
    by_cases hr : r' = r
    · subst hr
      rw [Function.update_self]
      have := h.nodup r'
      rw [hreqs, List.nodup_cons] at this
      exact this.2
    · rw [Function.update_of_ne hr]
      exact h.nodup r'

theorem Placed.not_mem_without (h : Placed c b.reqs) (hreqs : b.reqs r = rid :: tail) :
    rid ∉ (b.without r tail).reqs (c.dpRank rid) := by
  have hrank : c.dpRank rid = r := h.rank r rid (by rw [hreqs]; exact List.mem_cons_self ..)
  have hnodup := h.nodup r
  rw [hreqs, List.nodup_cons] at hnodup
  unfold Batch.without
  dsimp only
  rw [hrank, Function.update_self]
  exact hnodup.1

end Shrink

theorem chunksIn_without {tail : List String} (hreqs : b.reqs r = rid :: tail) {rid' : String}
    (hne : rid' ≠ rid) :
    chunksIn c (b.without r tail :: rest) rid' = chunksIn c (b :: rest) rid' := by
  rw [chunksIn_cons, chunksIn_cons]
  simp only [Batch.without_nonFinal_iff hreqs hne]

theorem Scheduler.setProgress_self (s : Scheduler) (rid : String) (p : Progress) :
    (s.setProgress rid p).progress rid = p :=
  Function.update_self ..

/-- One request of the oldest batch is settled; `p` is what becomes of it. -/
theorem Tracked.settle (h : Tracked c s (b :: rest)) {tail : List String}
    (hreqs : b.reqs r = rid :: tail) {p : Progress} (hcount : p.isChunked = chunksIn c rest rid)
    (hlive : p.finished = false ∧ p.isRetracted = false ∨
      (∀ b' ∈ rest, ¬ b'.NonFinal c rid) ∧ (∀ r', s.chunkedReqs r' ≠ some rid))
    (hwaiting : rid ∈ s.waitingQueue → p = s.progress rid) :
    Tracked c (s.setProgress rid p) (b.without r tail :: rest) := by
  have hplaced := h.placed b (List.mem_cons_self ..)
  have hgone : ¬ (b.without r tail).NonFinal c rid := fun hnf =>
    hplaced.not_mem_without hreqs hnf.2.1
  have hother : ∀ rid' ≠ rid, (s.setProgress rid p).progress rid' = s.progress rid' :=
    fun rid' hne => Function.update_of_ne hne ..
  have hself := s.setProgress_self rid p
  -- A batch of the new queue holds no more than one of the old queue.
  have hsub : ∀ b' ∈ b.without r tail :: rest, ∃ b₀ ∈ b :: rest,
      (∀ r' rid', rid' ∈ b'.reqs r' → rid' ∈ b₀.reqs r') ∧
      ∀ rid', rid' ∈ b'.reqs (c.dpRank rid') → (b₀.NonFinal c rid' ↔ b'.NonFinal c rid') := by
    intro b' hmem
    rcases List.mem_cons.mp hmem with rfl | hmem
    · refine ⟨b, List.mem_cons_self .., fun r' rid' => Batch.mem_without hreqs, ?_⟩
      intro rid' hin
      exact ⟨fun hnf => ⟨hnf.1, hin, hnf.2.2⟩, Batch.without_nonFinal hreqs⟩
    · exact ⟨b', List.mem_cons_of_mem _ hmem, fun _ _ hin => hin, fun _ _ => Iff.rfl⟩
  have hnonFinal : ∀ b' ∈ b.without r tail :: rest, ∀ rid', b'.NonFinal c rid' →
      ∃ b₀ ∈ b :: rest, b₀.NonFinal c rid' := by
    intro b' hmem rid' hnf
    obtain ⟨b₀, hb₀, -, hiff⟩ := hsub b' hmem
    exact ⟨b₀, hb₀, (hiff rid' hnf.2.1).mpr hnf⟩
  constructor
  case counted =>
    intro rid'
    by_cases hne : rid' = rid
    · subst hne
      rw [hself, hcount, chunksIn_cons, if_neg hgone, Nat.add_zero]
    · rw [hother rid' hne, chunksIn_without hreqs hne]
      exact h.counted rid'
  case placed =>
    intro b' hmem
    rcases List.mem_cons.mp hmem with rfl | hmem
    · exact hplaced.without hreqs
    · exact h.placed b' (List.mem_cons_of_mem _ hmem)
  case live =>
    intro b' hmem rid' hnf
    by_cases hne : rid' = rid
    · subst hne
      rw [hself]
      rcases hlive with hlive | ⟨hrest, -⟩
      · exact hlive
      · rcases List.mem_cons.mp hmem with rfl | hmem
        · exact absurd hnf hgone
        · exact absurd hnf (hrest b' hmem)
    · rw [hother rid' hne]
      obtain ⟨b₀, hb₀, hnf₀⟩ := hnonFinal b' hmem rid' hnf
      exact h.live b₀ hb₀ rid' hnf₀
  case order =>
    have horder := h.order
    rw [List.pairwise_cons] at horder ⊢
    refine ⟨?_, horder.2⟩
    intro b' hb' rid' hin hnf
    have hnf₀ := horder.1 b' hb' rid' (Batch.mem_without hreqs hin) hnf
    exact ⟨hnf₀.1, hin, hnf₀.2.2⟩
  case ownerRank => exact h.ownerRank
  case ownerLive =>
    intro r' rid' howner
    by_cases hne : rid' = rid
    · subst hne
      rw [hself]
      rcases hlive with hlive | ⟨-, hnot⟩
      · exact hlive
      · exact absurd howner (hnot r')
    · rw [hother rid' hne]
      exact h.ownerLive r' rid' howner
  case ownerChunks =>
    intro r' rid' howner b' hmem hin
    obtain ⟨b₀, hb₀, hreqs₀, hiff⟩ := hsub b' hmem
    exact (hiff rid' hin).mp (h.ownerChunks r' rid' howner b₀ hb₀ (hreqs₀ _ _ hin))
  case ownerAway => exact h.ownerAway
  case pendingOwner => exact h.pendingOwner
  case runningPlaced => exact h.runningPlaced
  case runningAway =>
    intro r' rid' hrun
    obtain ⟨hrec, hwait, haway⟩ := h.runningAway r' rid' hrun
    refine ⟨hrec, hwait, ?_⟩
    intro b' hmem hnf
    obtain ⟨b₀, hb₀, hnf₀⟩ := hnonFinal b' hmem rid' hnf
    exact haway b₀ hb₀ hnf₀
  case waitingNodup => exact h.waitingNodup
  case waitingLive =>
    intro rid' hwait
    obtain ⟨hrec, hfin, hret⟩ := h.waitingLive rid' hwait
    have hsame : (s.setProgress rid p).progress rid' = s.progress rid' := by
      by_cases hne : rid' = rid
      · subst hne
        rw [hself, hwaiting hwait]
      · exact hother rid' hne
    rw [hsame]
    refine ⟨hrec, hfin, ?_⟩
    intro b' hmem hin
    obtain ⟨b₀, hb₀, hreqs₀, -⟩ := hsub b' hmem
    exact hret b₀ hb₀ (hreqs₀ _ _ hin)
  case known =>
    intro b' hmem rid' hin
    obtain ⟨b₀, hb₀, hreqs₀, -⟩ := hsub b' hmem
    exact h.known b₀ hb₀ rid' (hreqs₀ _ _ hin)

/-- `_finalize_chunked_abort` when its assertions hold. -/
def Scheduler.aborted (s : Scheduler) (rid : String) (r : Nat) : Scheduler :=
  { s.setProgress rid { s.progress rid with finished := true } with
    chunkedReqs := Function.update s.chunkedReqs r none
    pendingChunkedAbortReqs := Function.update s.pendingChunkedAbortReqs r none }

theorem Scheduler.aborted_self (s : Scheduler) (rid : String) (r : Nat) :
    (s.aborted rid r).progress rid = { s.progress rid with finished := true } :=
  Function.update_self ..

theorem Tracked.finalize (h : Tracked c s queue) (hpending : s.pendingChunkedAbortReqs r = some rid)
    (hzero : (s.progress rid).isChunked = 0) :
    s.finalizeChunkedAbort rid r = some (s.aborted rid r) ∧ Tracked c (s.aborted rid r) queue := by
  have howner := h.pendingOwner r rid hpending
  have hnone : ∀ b ∈ queue, ¬ b.NonFinal c rid := by
    rw [← chunksIn_eq_zero]
    have := h.counted rid
    omega
  have hother : ∀ rid' ≠ rid, (s.aborted rid r).progress rid' = s.progress rid' :=
    fun rid' hne => Function.update_of_ne hne ..
  have hchunked : ∀ rid', ((s.aborted rid r).progress rid').isChunked =
      (s.progress rid').isChunked := by
    intro rid'
    by_cases hne : rid' = rid
    · subst hne
      rw [Scheduler.aborted_self]
    · rw [hother rid' hne]
  have howned : ∀ r' rid', (s.aborted rid r).chunkedReqs r' = some rid' →
      s.chunkedReqs r' = some rid' ∧ rid' ≠ rid := by
    intro r' rid' hr'
    change Function.update s.chunkedReqs r none r' = some rid' at hr'
    by_cases hr : r' = r
    · rw [hr, Function.update_self] at hr'
      cases hr'
    · rw [Function.update_of_ne hr] at hr'
      refine ⟨hr', ?_⟩
      rintro rfl
      exact hr ((h.ownerRank r' rid' hr').symm.trans (h.ownerRank r rid' howner))
  refine ⟨if_pos ⟨howner, hpending, hzero⟩, ?_⟩
  constructor
  case counted =>
    intro rid'
    rw [hchunked]
    exact h.counted rid'
  case placed => exact h.placed
  case live =>
    intro b hb rid' hnf
    have hne : rid' ≠ rid := by
      rintro rfl
      exact hnone b hb hnf
    rw [hother rid' hne]
    exact h.live b hb rid' hnf
  case order => exact h.order
  case ownerRank => exact fun r' rid' hr' => h.ownerRank r' rid' (howned r' rid' hr').1
  case ownerLive =>
    intro r' rid' hr'
    obtain ⟨hr', hne⟩ := howned r' rid' hr'
    rw [hother rid' hne]
    exact h.ownerLive r' rid' hr'
  case ownerChunks => exact fun r' rid' hr' => h.ownerChunks r' rid' (howned r' rid' hr').1
  case ownerAway => exact fun r' rid' hr' => h.ownerAway r' rid' (howned r' rid' hr').1
  case pendingOwner =>
    intro r' rid' hr'
    change Function.update s.pendingChunkedAbortReqs r none r' = some rid' at hr'
    change Function.update s.chunkedReqs r none r' = some rid'
    by_cases hr : r' = r
    · rw [hr, Function.update_self] at hr'
      cases hr'
    · rw [Function.update_of_ne hr] at hr' ⊢
      exact h.pendingOwner r' rid' hr'
  case runningPlaced => exact h.runningPlaced
  case runningAway => exact h.runningAway
  case waitingNodup => exact h.waitingNodup
  case waitingLive =>
    intro rid' hwait
    have hne : rid' ≠ rid := by
      rintro rfl
      exact (h.ownerAway r rid' howner).2.1 hwait
    rw [hother rid' hne]
    exact h.waitingLive rid' hwait
  case known => exact h.known

/-- All that changes between the two states is about the touched requests. -/
structure Frame (touched : String → Prop) (s s' : Scheduler) : Prop where
  progress : ∀ rid, ¬ touched rid → s'.progress rid = s.progress rid
  owners : ∀ r, (∀ rid, touched rid → s.pendingChunkedAbortReqs r ≠ some rid) →
    s'.chunkedReqs r = s.chunkedReqs r ∧
      s'.pendingChunkedAbortReqs r = s.pendingChunkedAbortReqs r
  cleared : ∀ r, s'.chunkedReqs r = s.chunkedReqs r ∧
      s'.pendingChunkedAbortReqs r = s.pendingChunkedAbortReqs r ∨
    s'.chunkedReqs r = none ∧ s'.pendingChunkedAbortReqs r = none
  received : s'.received = s.received
  waitingQueue : s'.waitingQueue = s.waitingQueue
  running : s'.running = s.running
  lastBatch : s'.lastBatch = s.lastBatch
  curBatch : s'.curBatch = s.curBatch
  resultQueue : s'.resultQueue = s.resultQueue

theorem Frame.refl {touched : String → Prop} (s : Scheduler) : Frame touched s s :=
  ⟨fun _ _ => rfl, fun _ _ => ⟨rfl, rfl⟩, fun _ => .inl ⟨rfl, rfl⟩, rfl, rfl, rfl, rfl, rfl, rfl⟩

theorem Frame.trans {touched touched' all : String → Prop} {s s₁ s' : Scheduler}
    (h : Frame touched s s₁) (h' : Frame touched' s₁ s') (hsub : ∀ rid, touched rid → all rid)
    (hsub' : ∀ rid, touched' rid → all rid) : Frame all s s' := by
  constructor
  case progress =>
    intro rid hnot
    rw [h'.progress rid (fun ht => hnot (hsub' rid ht)), h.progress rid (fun ht => hnot (hsub rid ht))]
  case owners =>
    intro r hnone
    obtain ⟨howner, hpending⟩ := h.owners r fun rid ht => hnone rid (hsub rid ht)
    obtain ⟨howner', hpending'⟩ := h'.owners r (by
      intro rid ht
      rw [hpending]
      exact hnone rid (hsub' rid ht))
    exact ⟨howner'.trans howner, hpending'.trans hpending⟩
  case cleared =>
    intro r
    rcases h'.cleared r with ⟨howner, hpending⟩ | hnone
    · rw [howner, hpending]
      exact h.cleared r
    · exact .inr hnone
  case received => exact h'.received.trans h.received
  case waitingQueue => exact h'.waitingQueue.trans h.waitingQueue
  case running => exact h'.running.trans h.running
  case lastBatch => exact h'.lastBatch.trans h.lastBatch
  case curBatch => exact h'.curBatch.trans h.curBatch
  case resultQueue => exact h'.resultQueue.trans h.resultQueue

/-- What the result of a batch does to one of its requests: the token of a last
chunk is appended, and a chunk that returns finalizes the request's abort. -/
structure Settled (c : Ranks) (b : Batch) (out : BatchOutput) (s s' : Scheduler) (rid : String) :
    Prop where
  token : (s.progress rid).finished = false → (s.progress rid).isRetracted = false →
    (b.isExtend = true → b.chunkedReq (c.dpRank rid) ≠ some rid) →
    (s'.progress rid).outputIds = (s.progress rid).outputIds ++ [out.nextTokenId rid]
  abort : b.isExtend = true → b.chunkedReq (c.dpRank rid) = some rid →
    s.pendingChunkedAbortReqs (c.dpRank rid) = some rid →
    (s'.progress rid).finished = true ∧ s'.pendingChunkedAbortReqs (c.dpRank rid) = none

/-- Later requests of the batch leave it at that. -/
theorem Settled.later {out : BatchOutput} {s₁ : Scheduler} {touched : String → Prop}
    (h : Settled c b out s s₁ rid) (hframe : Frame touched s₁ s') (hnot : ¬ touched rid) :
    Settled c b out s s' rid := by
  have hprogress := hframe.progress rid hnot
  constructor
  · intro hfin hret hfinal
    rw [hprogress]
    exact h.token hfin hret hfinal
  · intro hext howner hpending
    obtain ⟨hfin, hnone⟩ := h.abort hext howner hpending
    refine ⟨by rw [hprogress]; exact hfin, ?_⟩
    rcases hframe.cleared (c.dpRank rid) with ⟨-, heq⟩ | ⟨-, heq⟩
    · rw [heq, hnone]
    · exact heq

theorem Settled.earlier {out : BatchOutput} {s₁ : Scheduler} {touched : String → Prop}
    (h : Settled c b out s₁ s' rid) (hframe : Frame touched s s₁) (hnot : ¬ touched rid) :
    Settled c b out s s' rid := by
  have hprogress := hframe.progress rid hnot
  constructor
  · intro hfin hret hfinal
    rw [← hprogress]
    rw [← hprogress] at hfin hret
    exact h.token hfin hret hfinal
  · intro hext howner hpending
    apply h.abort hext howner
    rw [(hframe.owners _ _).2, hpending]
    intro rid' ht heq
    rw [hpending] at heq
    cases heq
    exact hnot ht

/-- The body of both loops over the requests of a rank. -/
def Scheduler.settleAt (b : Batch) (out : BatchOutput) (r : Nat) (s : Scheduler) (rid : String) :
    Option Scheduler :=
  if b.isExtend then s.visitAt out r rid else some (s.decodeAt out rid)

theorem Frame.setProgress (s : Scheduler) (rid : String) (p : Progress) :
    Frame (· = rid) s (s.setProgress rid p) :=
  ⟨fun _ hne => Function.update_of_ne hne .., fun _ _ => ⟨rfl, rfl⟩, fun _ => .inl ⟨rfl, rfl⟩,
    rfl, rfl, rfl, rfl, rfl, rfl⟩

theorem Frame.aborted (s : Scheduler) (rid : String) {r : Nat}
    (hpending : s.pendingChunkedAbortReqs r = some rid) :
    Frame (· = rid) s (s.aborted rid r) := by
  refine ⟨fun _ hne => Function.update_of_ne hne .., ?_, ?_, rfl, rfl, rfl, rfl, rfl, rfl⟩
  · intro r' hnone
    have hne : r' ≠ r := by
      rintro rfl
      exact hnone rid rfl hpending
    exact ⟨Function.update_of_ne hne .., Function.update_of_ne hne ..⟩
  · intro r'
    by_cases hr : r' = r
    · subst hr
      exact .inr ⟨Function.update_self .., Function.update_self ..⟩
    · exact .inl ⟨Function.update_of_ne hr .., Function.update_of_ne hr ..⟩

theorem Progress.visit_done {p : Progress} (h : p.finished = true ∨ p.isRetracted = true)
    (token : Nat) (pending finishes : Bool) : p.visit token pending finishes = (p, false) :=
  if_pos (by rwa [Bool.or_eq_true])

theorem Progress.visit_final {p : Progress} (hfin : p.finished = false)
    (hret : p.isRetracted = false) (hchunked : p.isChunked ≤ 0) (token : Nat)
    (pending finishes : Bool) : p.visit token pending finishes =
      ({ p with outputIds := p.outputIds ++ [token], finished := finishes }, false) := by
  unfold Progress.visit
  rw [if_neg (by simp [hfin, hret]), if_pos hchunked]

theorem Progress.visit_chunk {p : Progress} (hfin : p.finished = false)
    (hret : p.isRetracted = false) (hchunked : 0 < p.isChunked) (token : Nat)
    (pending finishes : Bool) : p.visit token pending finishes =
      ({ p with isChunked := p.isChunked - 1 }, pending) := by
  unfold Progress.visit
  rw [if_neg (by simp [hfin, hret]), if_neg (by omega)]

/-- A chunk that is not the last returns. -/
theorem Tracked.settleAt_chunk (h : Tracked c s (b :: rest)) {tail : List String}
    (hreqs : b.reqs r = rid :: tail) (hnf : b.NonFinal c rid)
    (hpend : s.pendingChunkedAbortReqs r = some rid → ∀ b' ∈ rest, ¬ b'.NonFinal c rid)
    (out : BatchOutput) :
    ∃ s', s.settleAt b out r rid = some s' ∧ Tracked c s' (b.without r tail :: rest) ∧
      Frame (· = rid) s s' ∧ Settled c b out s s' rid := by
  have hb : b ∈ b :: rest := List.mem_cons_self ..
  have hrank : c.dpRank rid = r :=
    (h.placed b hb).rank r rid (by rw [hreqs]; exact List.mem_cons_self ..)
  obtain ⟨hfin, hret⟩ := h.live b hb rid hnf
  have hcounted := h.counted rid
  rw [chunksIn_cons, if_pos hnf] at hcounted
  have hvisit := Progress.visit_chunk hfin hret (by omega) (out.nextTokenId rid)
    (s.pendingChunkedAbortReqs r == some rid) (out.finishes rid)
  set p : Progress := { s.progress rid with isChunked := (s.progress rid).isChunked - 1 } with hp
  have htracked := h.settle hreqs (p := p) (by rw [hp]; dsimp only; omega) (.inl ⟨hfin, hret⟩) (by
    intro hwait
    have := (h.waitingLive rid hwait).2.2 b hb hnf.2.1
    rw [hret] at this
    cases this)
  have hself := s.setProgress_self rid p
  unfold Scheduler.settleAt Scheduler.visitAt
  rw [if_pos hnf.1, hvisit]
  dsimp only
  by_cases hpending : s.pendingChunkedAbortReqs r = some rid
  · have hzero : ((s.setProgress rid p).progress rid).isChunked = 0 := by
      have := chunksIn_eq_zero.mpr (hpend hpending)
      rw [hself, hp]
      dsimp only
      omega
    obtain ⟨hfinalize, htracked⟩ := htracked.finalize hpending hzero
    refine ⟨_, by rw [if_pos (by simpa using hpending)]; exact hfinalize, htracked, ?_, ?_⟩
    · exact (Frame.setProgress s rid p).trans (Frame.aborted _ rid hpending) (fun _ => id)
        (fun _ => id)
    · constructor
      · intro _ _ hfinal
        exact absurd hnf.2.2 (hfinal hnf.1)
      · intro _ _ _
        refine ⟨?_, ?_⟩
        · rw [Scheduler.aborted_self]
        · rw [hrank]
          exact Function.update_self ..
  · refine ⟨_, by rw [if_neg (by simpa using hpending)], htracked, Frame.setProgress s rid p, ?_⟩
    constructor
    · intro _ _ hfinal
      exact absurd hnf.2.2 (hfinal hnf.1)
    · intro _ _ hpending'
      rw [hrank] at hpending'
      exact absurd hpending' hpending

/-- A last chunk or a decoded token returns, or the request is gone. -/
theorem Tracked.settleAt_final (h : Tracked c s (b :: rest)) {tail : List String}
    (hreqs : b.reqs r = rid :: tail) (hnf : ¬ b.NonFinal c rid) (out : BatchOutput) :
    ∃ s', s.settleAt b out r rid = some s' ∧ Tracked c s' (b.without r tail :: rest) ∧
      Frame (· = rid) s s' ∧ Settled c b out s s' rid := by
  have hb : b ∈ b :: rest := List.mem_cons_self ..
  have hmem : rid ∈ b.reqs r := by
    rw [hreqs]
    exact List.mem_cons_self ..
  have hrank : c.dpRank rid = r := (h.placed b hb).rank r rid hmem
  rw [← hrank] at hmem
  have hnotOwner : ∀ r', s.chunkedReqs r' ≠ some rid := fun r' howner =>
    hnf (h.ownerChunks r' rid howner b hb hmem)
  have hrest : ∀ b' ∈ rest, ¬ b'.NonFinal c rid := fun b' hb' hnf' =>
    hnf ((List.pairwise_cons.mp h.order).1 b' hb' rid hmem hnf')
  have hzero : (s.progress rid).isChunked = chunksIn c rest rid := by
    have := h.counted rid
    rwa [chunksIn_cons, if_neg hnf, Nat.add_zero] at this
  have hchunked : (s.progress rid).isChunked ≤ 0 := by
    rw [hzero, chunksIn_eq_zero.mpr hrest]
    exact Int.le_refl 0
  have habort : b.isExtend = true → b.chunkedReq (c.dpRank rid) ≠ some rid := fun hext howner =>
    hnf ⟨hext, hmem, howner⟩
  by_cases hdone : (s.progress rid).finished = true ∨ (s.progress rid).isRetracted = true
  · refine ⟨s.setProgress rid (s.progress rid), ?_, h.settle hreqs hzero (.inr ⟨hrest, hnotOwner⟩)
      (fun _ => rfl), Frame.setProgress .., ?_⟩
    · unfold Scheduler.settleAt Scheduler.visitAt Scheduler.decodeAt
      split
      · rw [Progress.visit_done hdone]
        rfl
      · rw [Progress.decode, if_pos (by rwa [Bool.or_eq_true])]
    · constructor
      · intro hfin hret _
        rw [hfin, hret] at hdone
        exact absurd hdone (by decide)
      · intro hext howner
        exact absurd howner (habort hext)
  · rw [not_or, Bool.not_eq_true, Bool.not_eq_true] at hdone
    refine ⟨s.setProgress rid { s.progress rid with
        outputIds := (s.progress rid).outputIds ++ [out.nextTokenId rid]
        finished := out.finishes rid }, ?_,
      h.settle hreqs hzero (.inr ⟨hrest, hnotOwner⟩) ?_, Frame.setProgress .., ?_⟩
    · unfold Scheduler.settleAt Scheduler.visitAt Scheduler.decodeAt
      split
      · rw [Progress.visit_final hdone.1 hdone.2 hchunked]
        rfl
      · rw [Progress.decode, if_neg (by simp [hdone.1, hdone.2])]
    · intro hwait
      have := (h.waitingLive rid hwait).2.2 b hb hmem
      rw [hdone.2] at this
      cases this
    · constructor
      · intro _ _ _
        rw [Scheduler.setProgress_self]
      · intro hext howner
        exact absurd howner (habort hext)

theorem Batch.without_without (b : Batch) (r : Nat) (l l' : List String) :
    (b.without r l).without r l' = b.without r l' := by
  unfold Batch.without
  rw [Function.update_idem]

theorem Batch.without_nil (hreqs : b.reqs r = []) : b.without r [] = b := by
  unfold Batch.without
  rw [← hreqs, Function.update_eq_self]

/-- A pending abort waits for one chunk only, the one of the oldest batch. -/
def AbortsDue (c : Ranks) (s : Scheduler) (rest : List Batch) : Prop :=
  ∀ r rid, s.pendingChunkedAbortReqs r = some rid → ∀ b ∈ rest, ¬ b.NonFinal c rid

theorem AbortsDue.mono {touched : String → Prop} (h : AbortsDue c s rest)
    (hframe : Frame touched s s') : AbortsDue c s' rest := by
  intro r rid hpending
  rcases hframe.cleared r with ⟨-, heq⟩ | ⟨-, heq⟩
  · exact h r rid (heq.symm.trans hpending)
  · rw [heq] at hpending
    cases hpending

/-- The requests of a rank, one after the other. -/
theorem Tracked.settleRank (out : BatchOutput) (l : List String) :
    ∀ {s : Scheduler} {b : Batch}, Tracked c s (b :: rest) → b.reqs r = l → AbortsDue c s rest →
    ∃ s', l.foldlM (Scheduler.settleAt b out r) s = some s' ∧
      Tracked c s' (b.without r [] :: rest) ∧ Frame (· ∈ l) s s' ∧
      ∀ rid ∈ l, Settled c b out s s' rid := by
  induction l with
  | nil =>
    intro s b h hreqs hdue
    exact ⟨s, rfl, by rwa [Batch.without_nil hreqs], Frame.refl s, by simp⟩
  | cons rid tail ih =>
    intro s b h hreqs hdue
    have hnodup : (rid :: tail).Nodup := by
      rw [← hreqs]
      exact (h.placed b (List.mem_cons_self ..)).nodup r
    have hstep : ∃ s₁, s.settleAt b out r rid = some s₁ ∧
        Tracked c s₁ (b.without r tail :: rest) ∧ Frame (· = rid) s s₁ ∧
        Settled c b out s s₁ rid := by
      by_cases hnf : b.NonFinal c rid
      · exact h.settleAt_chunk hreqs hnf (hdue r rid) out
      · exact h.settleAt_final hreqs hnf out
    obtain ⟨s₁, heq, htracked, hframe, hsettled⟩ := hstep
    obtain ⟨s', heq', htracked', hframe', hsettled'⟩ :=
      ih htracked (Function.update_self ..) (hdue.mono hframe)
    rw [Batch.without_without] at htracked'
    refine ⟨s', ?_, htracked', ?_, ?_⟩
    · rw [List.foldlM_cons, heq]
      exact heq'
    · apply hframe.trans hframe'
      · rintro rid' rfl
        exact List.mem_cons_self ..
      · exact fun rid' => List.mem_cons_of_mem _
    · intro rid' hmem
      rcases List.mem_cons.mp hmem with rfl | htail
      · exact hsettled.later hframe' (List.nodup_cons.mp hnodup).1
      · have hold : Settled c b out s₁ s' rid' := ⟨(hsettled' rid' htail).token,
          (hsettled' rid' htail).abort⟩
        apply hold.earlier hframe
        rintro rfl
        exact (List.nodup_cons.mp hnodup).1 htail

/-- The ranks of a batch, one after the other. -/
theorem Tracked.settleRanks (out : BatchOutput) (b₀ : Batch) (rs : List Nat) :
    ∀ {s : Scheduler} {b : Batch}, Tracked c s (b :: rest) → AbortsDue c s rest → rs.Nodup →
    b.isExtend = b₀.isExtend → b.chunkedReq = b₀.chunkedReq → (∀ r ∈ rs, b.reqs r = b₀.reqs r) →
    ∃ s' b', rs.foldlM (fun s r => (b₀.reqs r).foldlM (Scheduler.settleAt b₀ out r) s) s = some s' ∧
      Tracked c s' (b' :: rest) ∧ (∀ r, b'.reqs r = [] ∨ b'.reqs r = b.reqs r ∧ r ∉ rs) ∧
      Frame (fun rid => c.dpRank rid ∈ rs) s s' ∧
      ∀ rid, c.dpRank rid ∈ rs → rid ∈ b₀.reqs (c.dpRank rid) → Settled c b₀ out s s' rid := by
  induction rs with
  | nil =>
    intro s b h hdue _ _ _ _
    exact ⟨s, b, rfl, h, fun r => .inr ⟨rfl, by simp⟩, Frame.refl s, by simp⟩
  | cons r rs ih =>
    intro s b h hdue hnodup hext hchunked hreqs
    have hr : b.reqs r = b₀.reqs r := hreqs r (List.mem_cons_self ..)
    have hrank : ∀ rid ∈ b₀.reqs r, c.dpRank rid = r := by
      intro rid hmem
      rw [← hr] at hmem
      exact (h.placed b (List.mem_cons_self ..)).rank r rid hmem
    have hbody : Scheduler.settleAt b₀ out r = Scheduler.settleAt b out r := by
      unfold Scheduler.settleAt
      rw [hext]
    obtain ⟨s₁, heq, htracked, hframe, hsettled⟩ := h.settleRank out (b₀.reqs r) hr hdue
    obtain ⟨s', b', heq', htracked', hleft, hframe', hsettled'⟩ :=
      ih htracked (hdue.mono hframe) (List.nodup_cons.mp hnodup).2 hext hchunked (by
        intro r' hr'
        have hne : r' ≠ r := by
          rintro rfl
          exact (List.nodup_cons.mp hnodup).1 hr'
        have := hreqs r' (List.mem_cons_of_mem _ hr')
        exact (Function.update_of_ne hne ..).trans this)
    refine ⟨s', b', ?_, htracked', ?_, ?_, ?_⟩
    · rw [List.foldlM_cons, hbody, heq]
      exact heq'
    · intro r'
      rcases hleft r' with hnil | ⟨hsame, hnot⟩
      · exact .inl hnil
      · by_cases hne : r' = r
        · subst hne
          exact .inl (hsame.trans (Function.update_self ..))
        · refine .inr ⟨hsame.trans (Function.update_of_ne hne ..), ?_⟩
          rw [List.mem_cons, not_or]
          exact ⟨hne, hnot⟩
    · apply hframe.trans hframe'
      · intro rid hmem
        rw [hrank rid hmem]
        exact List.mem_cons_self ..
      · exact fun rid hmem => List.mem_cons_of_mem _ hmem
    · intro rid hin hmem
      by_cases hrid : c.dpRank rid = r
      · rw [hrid] at hmem
        have hold := hsettled rid hmem
        have hnew : Settled c b₀ out s s₁ rid :=
          ⟨by rw [← hext, ← hchunked]; exact hold.token,
            by rw [← hext, ← hchunked]; exact hold.abort⟩
        apply hnew.later hframe'
        rw [hrid]
        exact (List.nodup_cons.mp hnodup).1
      · apply (hsettled' rid ((List.mem_cons.mp hin).resolve_left hrid) hmem).earlier hframe
        intro hmem'
        exact hrid (hrank rid hmem')

theorem Tracked.tail (h : Tracked c s (b :: rest)) (hnone : ∀ rid, ¬ b.NonFinal c rid) :
    Tracked c s rest := by
  constructor
  case counted =>
    intro rid
    have := h.counted rid
    rwa [chunksIn_cons, if_neg (hnone rid), Nat.add_zero] at this
  case placed => exact fun b' hb' => h.placed b' (List.mem_cons_of_mem _ hb')
  case live => exact fun b' hb' => h.live b' (List.mem_cons_of_mem _ hb')
  case order => exact (List.pairwise_cons.mp h.order).2
  case ownerRank => exact h.ownerRank
  case ownerLive => exact h.ownerLive
  case ownerChunks =>
    exact fun r rid howner b' hb' => h.ownerChunks r rid howner b' (List.mem_cons_of_mem _ hb')
  case ownerAway => exact h.ownerAway
  case pendingOwner => exact h.pendingOwner
  case runningPlaced => exact h.runningPlaced
  case runningAway =>
    intro r rid hrun
    obtain ⟨hrec, hwait, haway⟩ := h.runningAway r rid hrun
    exact ⟨hrec, hwait, fun b' hb' => haway b' (List.mem_cons_of_mem _ hb')⟩
  case waitingNodup => exact h.waitingNodup
  case waitingLive =>
    intro rid hwait
    obtain ⟨hrec, hfin, hret⟩ := h.waitingLive rid hwait
    exact ⟨hrec, hfin, fun b' hb' => hret b' (List.mem_cons_of_mem _ hb')⟩
  case known => exact fun b' hb' => h.known b' (List.mem_cons_of_mem _ hb')

/-- The result of the oldest batch is processed. -/
theorem Tracked.processBatchResult (h : Tracked c s (b :: rest)) (hqueue : s.resultQueue = b :: rest)
    (hdue : AbortsDue c s rest) (out : BatchOutput) :
    ∃ s', s.processBatchResult c out = some s' ∧ Tracked c s' rest ∧
      Frame (fun _ => True) { s with resultQueue := rest } s' ∧
      ∀ rid ∈ b.reqs (c.dpRank rid), Settled c b out s s' rid := by
  have hpopped : Tracked c { s with resultQueue := rest } (b :: rest) :=
    ⟨h.counted, h.placed, h.live, h.order, h.ownerRank, h.ownerLive, h.ownerChunks, h.ownerAway,
      h.pendingOwner, h.runningPlaced, h.runningAway, h.waitingNodup, h.waitingLive, h.known⟩
  obtain ⟨s', b', heq, htracked, hleft, hframe, hsettled⟩ :=
    hpopped.settleRanks out b (List.range c.dpSize) hdue List.nodup_range rfl rfl fun _ _ => rfl
  have hin : ∀ rid, c.dpRank rid ∈ List.range c.dpSize := fun rid =>
    List.mem_range.mpr (c.dpRank_lt rid)
  refine ⟨s', ?_, htracked.tail ?_, hframe.trans (Frame.refl s') (fun _ _ => trivial)
    (fun _ => id), ?_⟩
  · unfold Scheduler.processBatchResult
    rw [hqueue]
    dsimp only
    rw [← heq]
    congr 1
    funext s r
    cases hext : b.isExtend with
    | true =>
      rw [if_pos rfl]
      congr 1
      funext s rid
      rw [Scheduler.settleAt, if_pos hext]
    | false =>
      rw [if_neg (by decide)]
      induction b.reqs r generalizing s with
      | nil => rfl
      | cons rid tail ih =>
        rw [List.foldl_cons, ih, List.foldlM_cons, Scheduler.settleAt, hext]
        rfl
  · rintro rid ⟨-, hmem, -⟩
    rcases hleft (c.dpRank rid) with hnil | ⟨-, hnot⟩
    · rw [hnil] at hmem
      cases hmem
    · exact hnot (hin rid)
  · intro rid hmem
    exact ⟨(hsettled rid (hin rid) hmem).token, (hsettled rid (hin rid) hmem).abort⟩

end
end SglJax.Managers
