import Mathlib.Data.List.TakeWhile
import Mathlib.Logic.Function.Basic
import Mathlib.Tactic.Common

/-! The grammar queue of the scheduler: requests wait there for the compile of
their grammar, polled in arrival order. Futures are completed by worker threads
and may be cancelled; both can happen between any two calls of the scheduler. -/
namespace SglJax.Managers

/-- The kind of a constraint and its text. -/
abbrev GrammarKey := String × String

/-- What a compile delivers; `invalid` is `INVALID_GRAMMAR_OBJ`. -/
inductive Compiled (γ : Type) where
  | grammar (g : γ)
  | invalid
deriving DecidableEq, Repr

/-- A `concurrent.futures.Future`; one that a worker has picked up can no longer
be cancelled. -/
inductive GrammarFuture (γ : Type) where
  | pending (running : Bool)
  | done (value : Compiled γ)
  | cancelled
deriving DecidableEq, Repr

def GrammarFuture.cancel {γ : Type} : GrammarFuture γ → GrammarFuture γ
  | .pending false => .cancelled
  | future => future

/-- What `Req.grammar` holds. -/
inductive GrammarSlot (γ : Type) where
  | absent
  | future (id : Nat)
  | compiled (value : Compiled γ)
deriving DecidableEq, Repr

structure FinishAbort where
  message : String
  statusCode : Nat
  errType : String
deriving DecidableEq, Repr

/-- The part of a request that the grammar queue reads and changes. -/
structure GrammarReq (γ : Type) where
  rid : String
  grammarKey : GrammarKey
  grammar : GrammarSlot γ
  grammarWaitCt : Nat
  originInputIds : List Nat
  radixInputIds : List Nat
  returnLogprob : Bool
  toFinish : Option FinishAbort
  finishedReason : Option FinishAbort
deriving DecidableEq, Repr

/-- What a call on the queue can raise: an attribute of the wrong object, or the
exception of a cancelled future. -/
inductive GrammarError where
  | attributeError
  | cancelledError
deriving DecidableEq, Repr

/-- The parts outside the queue: how many polls a request may wait
(`GRAMMAR_TIMEOUT / 0.03`), how a key prints, and `BaseGrammarObject.copy`. -/
structure GrammarSettings (γ : Type) where
  waitLimit : Nat
  keyRepr : GrammarKey → String
  copy : γ → γ

structure GrammarScheduler (γ : Type) where
  futures : Nat → GrammarFuture γ
  nextFuture : Nat
  grammarQueue : List (GrammarReq γ)
  /-- Everything `_extend_requests_to_queue` was given so far. -/
  delivered : List (GrammarReq γ)
  cache : GrammarKey → Option (Compiled γ)
  /-- The requests that entered the queue so far, by their `rid`. -/
  arrived : List String

namespace GrammarReq

variable {γ : Type}

def finished (req : GrammarReq γ) : Bool := req.finishedReason.isSome

def setFinishWithAbort (req : GrammarReq γ) (errorMsg : String) : GrammarReq γ :=
  { req with
    originInputIds := [0]
    radixInputIds := [0]
    grammar := .absent
    returnLogprob := false
    toFinish := some ⟨errorMsg, 400, "BadRequestError"⟩ }

end GrammarReq

section

variable {γ : Type} (S : GrammarSettings γ)

def invalidMessage (key : GrammarKey) : String :=
  "Invalid grammar request: key=" ++ S.keyRepr key

def timeoutMessage (key : GrammarKey) : String :=
  "Grammar preprocessing timed out for req.grammar_key=" ++ S.keyRepr key

/-- The copy of a result that goes to the cache. -/
def cachedGrammar : Compiled γ → Compiled γ
  | .grammar g => .grammar (S.copy g)
  | .invalid => .invalid

/-- The request once its result is there. -/
def takeResult (req : GrammarReq γ) (value : Compiled γ) : GrammarReq γ :=
  let req := { req with grammar := .compiled value }
  match value with
  | .grammar _ => req
  | .invalid => req.setFinishWithAbort (invalidMessage S req.grammarKey)

/-- How the polling loop ended. -/
inductive PollStop where
  | drained
  | waiting (timedOut : Bool)
  | raised (e : GrammarError)
deriving DecidableEq, Repr

/-- The queue and the cache after the loop, and how many requests are ready. -/
structure PollResult (γ : Type) where
  reqs : List (GrammarReq γ)
  numReady : Nat
  cache : GrammarKey → Option (Compiled γ)
  stop : PollStop

def PollResult.after (req : GrammarReq γ) (r : PollResult γ) : PollResult γ :=
  { r with
    reqs := req :: r.reqs
    numReady := r.numReady + 1 }

/-- The first loop of `move_ready_grammar_requests`. -/
def pollLoop (futures : Nat → GrammarFuture γ) :
    List (GrammarReq γ) → (GrammarKey → Option (Compiled γ)) → PollResult γ
  | [], cache => ⟨[], 0, cache, .drained⟩
  | req :: rest, cache =>
    if req.finished then (pollLoop futures rest cache).after req
    else
      match req.grammar with
      | .future id =>
        match futures id with
        | .done value =>
          let cache := Function.update cache req.grammarKey (some (cachedGrammar S value))
          (pollLoop futures rest cache).after (takeResult S req value)
        | .pending _ =>
          let req := { req with grammarWaitCt := req.grammarWaitCt + 1 }
          ⟨req :: rest, 0, cache, .waiting (req.grammarWaitCt > S.waitLimit)⟩
        | .cancelled => ⟨req :: rest, 0, cache, .raised .cancelledError⟩
      -- Neither `None` nor a compiled grammar has a `result`.
      | _ => ⟨req :: rest, 0, cache, .raised .attributeError⟩

/-- `req.grammar.cancel()` -/
def cancelGrammar (futures : Nat → GrammarFuture γ) (slot : GrammarSlot γ) :
    Except GrammarError (Nat → GrammarFuture γ) :=
  match slot with
  | .future id => .ok (Function.update futures id (futures id).cancel)
  | _ => .error .attributeError

namespace GrammarScheduler

/-- The loop over the timed-out requests, of which there is at most one. -/
def handleTimeout (s : GrammarScheduler γ) (numReady : Nat) :
    Except GrammarError Unit × GrammarScheduler γ :=
  match s.grammarQueue[numReady]? with
  | none => (.ok (), s)
  | some req =>
    match cancelGrammar s.futures req.grammar with
    | .error e => (.error e, s)
    | .ok futures =>
      (.ok (), { s with
        futures := futures
        grammarQueue := s.grammarQueue.set numReady
          (req.setFinishWithAbort (timeoutMessage S req.grammarKey))
        cache := Function.update s.cache req.grammarKey (some .invalid) })

/-- The slice handed to the waiting queue. -/
def moveReady (s : GrammarScheduler γ) (numReady : Nat) : GrammarScheduler γ :=
  { s with
    delivered := s.delivered ++ s.grammarQueue.take numReady
    grammarQueue := s.grammarQueue.drop numReady }

def moveReadyGrammarRequests (s : GrammarScheduler γ) :
    Except GrammarError Unit × GrammarScheduler γ :=
  if s.grammarQueue = [] then (.ok (), s)
  else
    let r := pollLoop S s.futures s.grammarQueue s.cache
    let s := { s with grammarQueue := r.reqs, cache := r.cache }
    match r.stop with
    | .raised e => (.error e, s)
    | .drained | .waiting false => (.ok (), s.moveReady r.numReady)
    | .waiting true =>
      match s.handleTimeout S r.numReady with
      | (.error e, s) => (.error e, s)
      | (.ok (), s) => (.ok (), s.moveReady (r.numReady + 1))

/-- The grammar queue part of `abort_request`. -/
def abortLoop (hit : String → Bool) : List (GrammarReq γ) → (Nat → GrammarFuture γ) →
    List (GrammarReq γ) × (Nat → GrammarFuture γ) × Except GrammarError Unit
  | [], futures => ([], futures, .ok ())
  | req :: rest, futures =>
    if hit req.rid then
      match req.grammar with
      | .absent =>
        let (rest, futures, r) := abortLoop hit rest futures
        (req.setFinishWithAbort "Aborted by AbortReq." :: rest, futures, r)
      | .future id =>
        let futures := Function.update futures id (futures id).cancel
        let (rest, futures, r) := abortLoop hit rest futures
        (req.setFinishWithAbort "Aborted by AbortReq." :: rest, futures, r)
      | .compiled _ => (req :: rest, futures, .error .attributeError)
    else
      let (rest, futures, r) := abortLoop hit rest futures
      (req :: rest, futures, r)

/-- `abort_request` for all requests, or for those whose `rid` starts with the
given one. -/
def abortRequest (s : GrammarScheduler γ) (abortAll : Bool) (rid : String) :
    Except GrammarError Unit × GrammarScheduler γ :=
  let (queue, futures, r) :=
    abortLoop (fun r => abortAll || rid.isPrefixOf r) s.grammarQueue s.futures
  (r, { s with grammarQueue := queue, futures := futures })

/-- The scheduler before the first request. -/
def init : GrammarScheduler γ where
  futures := fun _ => .pending false
  nextFuture := 0
  grammarQueue := []
  delivered := []
  cache := fun _ => none
  arrived := []

/-- The end of `handle_generate_request` on a cache miss: the request gets a
future of its own and joins the queue. -/
def enqueue (s : GrammarScheduler γ) (rid : String) (key : GrammarKey)
    (inputIds radixIds : List Nat) (returnLogprob : Bool) : GrammarScheduler γ :=
  { s with
    futures := Function.update s.futures s.nextFuture (.pending false)
    nextFuture := s.nextFuture + 1
    grammarQueue := s.grammarQueue ++
      [⟨rid, key, .future s.nextFuture, 0, inputIds, radixIds, returnLogprob, none, none⟩]
    arrived := s.arrived ++ [rid] }

/-- A worker picks up a compile, or delivers its result. -/
def work (s : GrammarScheduler γ) (id : Nat) (result : Option (Compiled γ)) :
    GrammarScheduler γ :=
  match s.futures id, result with
  | .pending _, none => { s with futures := Function.update s.futures id (.pending true) }
  | .pending _, some value => { s with futures := Function.update s.futures id (.done value) }
  | _, _ => s

end GrammarScheduler

end

/-! ### What one poll does -/

section Poll

variable {γ : Type} (S : GrammarSettings γ)

/-- The future of the request has delivered, or the request is finished. -/
def GrammarReq.isReady (futures : Nat → GrammarFuture γ) (req : GrammarReq γ) : Bool :=
  req.finished ||
    match req.grammar with
    | .future id =>
      match futures id with
      | .done _ => true
      | _ => false
    | _ => false

/-- The request still waits for its future. -/
def GrammarReq.waits (futures : Nat → GrammarFuture γ) (req : GrammarReq γ) : Prop :=
  ∃ id running, req.grammar = .future id ∧ futures id = .pending running

/-- The request as a poll hands it over. -/
def GrammarReq.settle (futures : Nat → GrammarFuture γ) (req : GrammarReq γ) : GrammarReq γ :=
  if req.finished then req
  else
    match req.grammar with
    | .future id =>
      match futures id with
      | .done value => takeResult S req value
      | _ => req
    | _ => req

variable {S} {futures : Nat → GrammarFuture γ}

theorem pollLoop_ready {req : GrammarReq γ} (h : req.isReady futures = true)
    (rest : List (GrammarReq γ)) (cache : GrammarKey → Option (Compiled γ)) :
    ∃ cache', pollLoop S futures (req :: rest) cache =
      (pollLoop S futures rest cache').after (req.settle S futures) := by
  unfold GrammarReq.isReady at h
  unfold GrammarReq.settle
  rw [pollLoop]
  by_cases hfin : req.finished = true
  · rw [if_pos hfin, if_pos hfin]
    exact ⟨cache, rfl⟩
  rw [if_neg hfin, if_neg hfin]
  cases hslot : req.grammar with
  | absent => simp [hfin, hslot] at h
  | compiled value => simp [hfin, hslot] at h
  | future id =>
    cases hfut : futures id with
    | pending running => simp [hfin, hslot, hfut] at h
    | cancelled => simp [hfin, hslot, hfut] at h
    | done value =>
      simp only [hfut]
      exact ⟨_, rfl⟩

theorem pollLoop_unready {req : GrammarReq γ} (h : req.isReady futures = false)
    (rest : List (GrammarReq γ)) (cache : GrammarKey → Option (Compiled γ)) :
    (req.waits futures ∧ pollLoop S futures (req :: rest) cache =
      ⟨{ req with grammarWaitCt := req.grammarWaitCt + 1 } :: rest, 0, cache,
        .waiting (decide (req.grammarWaitCt + 1 > S.waitLimit))⟩) ∨
    (¬ req.waits futures ∧ ∃ e, pollLoop S futures (req :: rest) cache =
      ⟨req :: rest, 0, cache, .raised e⟩) := by
  unfold GrammarReq.isReady at h
  rw [Bool.or_eq_false_iff] at h
  obtain ⟨hfin, hslotFut⟩ := h
  rw [pollLoop, if_neg (by simp [hfin])]
  cases hslot : req.grammar with
  | absent =>
    right
    exact ⟨by simp [GrammarReq.waits, hslot], _, rfl⟩
  | compiled value =>
    right
    exact ⟨by simp [GrammarReq.waits, hslot], _, rfl⟩
  | future id =>
    cases hfut : futures id with
    | pending running =>
      left
      refine ⟨⟨id, running, hslot, hfut⟩, ?_⟩
      simp only [hfut]
    | cancelled =>
      right
      simp only [hfut]
      exact ⟨by simp [GrammarReq.waits, hslot, hfut], _, rfl⟩
    | done value => simp [hslot, hfut] at hslotFut

/-- The loop goes over the ready requests at the head of the queue and stops at
the first other one. -/
theorem pollLoop_eq (queue : List (GrammarReq γ)) (cache : GrammarKey → Option (Compiled γ)) :
    ∃ cache', pollLoop S futures queue cache =
      { pollLoop S futures (queue.dropWhile (GrammarReq.isReady futures)) cache' with
        reqs := (queue.takeWhile (GrammarReq.isReady futures)).map (GrammarReq.settle S futures) ++
          (pollLoop S futures (queue.dropWhile (GrammarReq.isReady futures)) cache').reqs
        numReady := (queue.takeWhile (GrammarReq.isReady futures)).length } := by
  induction queue generalizing cache with
  | nil => exact ⟨cache, rfl⟩
  | cons req rest ih =>
    cases hready : req.isReady futures with
    | false =>
      refine ⟨cache, ?_⟩
      have hstuck : (pollLoop S futures (req :: rest) cache).numReady = 0 := by
        rcases pollLoop_unready hready rest cache with ⟨-, h⟩ | ⟨-, e, h⟩ <;> rw [h]
      rw [List.dropWhile_cons_of_neg (by simp [hready]),
        List.takeWhile_cons_of_neg (by simp [hready])]
      cases hr : pollLoop S futures (req :: rest) cache
      rw [hr] at hstuck
      simp [← hstuck]
    | true =>
      obtain ⟨mid, hmid⟩ := pollLoop_ready hready rest cache
      obtain ⟨cache', hrest⟩ := ih mid
      refine ⟨cache', ?_⟩
      rw [hmid, hrest, List.dropWhile_cons_of_pos hready, List.takeWhile_cons_of_pos hready]
      rfl

namespace GrammarScheduler

variable (s : GrammarScheduler γ)

/-- The ready requests at the head of the queue, and the others. -/
def readyReqs : List (GrammarReq γ) := s.grammarQueue.takeWhile (GrammarReq.isReady s.futures)

def otherReqs : List (GrammarReq γ) := s.grammarQueue.dropWhile (GrammarReq.isReady s.futures)

theorem readyReqs_append_otherReqs : s.readyReqs ++ s.otherReqs = s.grammarQueue :=
  List.takeWhile_append_dropWhile

/-- The first request that is not ready still waits for its future. -/
def PollClear : Prop := ∀ req, s.otherReqs.head? = some req → req.waits s.futures

/-- What a poll can come to. -/
inductive PollOutcome (S : GrammarSettings γ) (s : GrammarScheduler γ) :
    Except GrammarError Unit × GrammarScheduler γ → Prop where
  | drained (cache : GrammarKey → Option (Compiled γ)) (rest : s.otherReqs = []) :
      PollOutcome S s (.ok (), { s with
        delivered := s.delivered ++ s.readyReqs.map (GrammarReq.settle S s.futures)
        grammarQueue := []
        cache := cache })
  | waiting {req : GrammarReq γ} {tail : List (GrammarReq γ)}
      (cache : GrammarKey → Option (Compiled γ)) (rest : s.otherReqs = req :: tail)
      (waits : req.waits s.futures) :
      PollOutcome S s (.ok (), { s with
        delivered := s.delivered ++ s.readyReqs.map (GrammarReq.settle S s.futures)
        grammarQueue := { req with grammarWaitCt := req.grammarWaitCt + 1 } :: tail
        cache := cache })
  | timedOut {req : GrammarReq γ} {tail : List (GrammarReq γ)}
      (cache : GrammarKey → Option (Compiled γ)) (id : Nat) (rest : s.otherReqs = req :: tail)
      (waits : req.waits s.futures) (slot : req.grammar = .future id) :
      PollOutcome S s (.ok (), { s with
        futures := Function.update s.futures id (s.futures id).cancel
        delivered := s.delivered ++ (s.readyReqs.map (GrammarReq.settle S s.futures) ++
          [{ req with grammarWaitCt := req.grammarWaitCt + 1 }.setFinishWithAbort
            (timeoutMessage S req.grammarKey)])
        grammarQueue := tail
        cache := cache })
  | raised {req : GrammarReq γ} {tail : List (GrammarReq γ)} (e : GrammarError)
      (cache : GrammarKey → Option (Compiled γ)) (rest : s.otherReqs = req :: tail)
      (stuck : ¬ req.waits s.futures) :
      PollOutcome S s (.error e, { s with
        grammarQueue := s.readyReqs.map (GrammarReq.settle S s.futures) ++ req :: tail
        cache := cache })

theorem poll_outcome : PollOutcome S s (s.moveReadyGrammarRequests S) := by
  unfold moveReadyGrammarRequests
  by_cases hempty : s.grammarQueue = []
  · rw [if_pos hempty]
    have hready : s.readyReqs = [] := by rw [readyReqs, hempty]; rfl
    have h : PollOutcome S s _ := .drained s.cache (by rw [otherReqs, hempty]; rfl)
    rw [hready, List.map_nil, List.append_nil, ← hempty] at h
    exact h
  rw [if_neg hempty]
  obtain ⟨cache, hpoll⟩ : ∃ cache, pollLoop S s.futures s.grammarQueue s.cache =
      { pollLoop S s.futures s.otherReqs cache with
        reqs := s.readyReqs.map (GrammarReq.settle S s.futures) ++
          (pollLoop S s.futures s.otherReqs cache).reqs
        numReady := s.readyReqs.length } := pollLoop_eq s.grammarQueue s.cache
  have hlen : s.readyReqs.length = (s.readyReqs.map (GrammarReq.settle S s.futures)).length := by
    rw [List.length_map]
  rw [hpoll, hlen]
  cases hrest : s.otherReqs with
  | nil =>
    have h : PollOutcome S s _ := .drained cache hrest
    simp only [pollLoop, moveReady, List.append_nil, List.take_length, List.drop_length]
    exact h
  | cons req tail =>
    have hunready : req.isReady s.futures = false := by
      have h := List.head?_dropWhile_not (GrammarReq.isReady s.futures) s.grammarQueue
      rw [← otherReqs, hrest] at h
      simpa using h
    rcases pollLoop_unready hunready tail cache with ⟨hwaits, heq⟩ | ⟨hstuck, e, heq⟩
    · obtain ⟨id, running, hslot, hfut⟩ := hwaits
      rw [heq]
      by_cases hlimit : req.grammarWaitCt + 1 > S.waitLimit
      · have h : PollOutcome S s _ := .timedOut (Function.update cache req.grammarKey
          (some .invalid)) id hrest ⟨id, running, hslot, hfut⟩ hslot
        simp only [hlimit, decide_true, handleTimeout,
          List.getElem?_append_right (Nat.le_refl _), Nat.sub_self, List.getElem?_cons_zero,
          cancelGrammar, hslot, List.set_append_right _ _ (Nat.le_refl _), List.set_cons_zero,
          moveReady, List.take_length_add_append, List.drop_length_add_append, List.take_succ_cons,
          List.take_zero, List.drop_succ_cons, List.drop_zero]
        rw [hslot] at h
        exact h
      · have h : PollOutcome S s _ := .waiting cache hrest ⟨id, running, hslot, hfut⟩
        simp only [hlimit, decide_false, moveReady, List.take_left, List.drop_left]
        exact h
    · rw [heq]
      exact .raised e cache hrest hstuck

end GrammarScheduler
end Poll

/-! ### What holds in every run -/

namespace GrammarReq

variable {γ : Type}

/-- A queued request waits for its own future, unless it was aborted. -/
def Queued (req : GrammarReq γ) : Prop :=
  req.finishedReason = none ∧
    ((req.toFinish = none ∧ ∃ id, req.grammar = .future id) ∨
      (req.toFinish.isSome ∧ req.grammar = .absent))

/-- A request that has left the queue has a grammar, or is marked to finish. -/
def Settled (req : GrammarReq γ) : Prop :=
  (req.toFinish.isSome ∧ req.grammar = .absent) ∨
    (req.toFinish = none ∧ ∃ g, req.grammar = .compiled (.grammar g))

theorem Queued.settle {S : GrammarSettings γ} {futures : Nat → GrammarFuture γ}
    {req : GrammarReq γ} (h : req.Queued) (ready : req.isReady futures = true) :
    (req.settle S futures).Settled ∧ (req.settle S futures).rid = req.rid := by
  obtain ⟨hfin, hcases⟩ := h
  unfold isReady at ready
  unfold GrammarReq.settle
  rw [if_neg (by simp [finished, hfin])]
  rcases hcases with ⟨hgoing, id, hslot⟩ | ⟨habort, hslot⟩
  · cases hfut : futures id with
    | pending running => simp [finished, hfin, hslot, hfut] at ready
    | cancelled => simp [finished, hfin, hslot, hfut] at ready
    | done value =>
      simp only [hslot, hfut]
      cases value with
      | grammar g => exact ⟨.inr ⟨hgoing, g, rfl⟩, rfl⟩
      | invalid => exact ⟨.inl ⟨rfl, rfl⟩, rfl⟩
  · simp [finished, hfin, hslot] at ready

end GrammarReq

namespace GrammarScheduler

variable {γ : Type}

structure Orderly (s : GrammarScheduler γ) : Prop where
  order : s.arrived = (s.delivered ++ s.grammarQueue).map GrammarReq.rid
  queued : ∀ req ∈ s.grammarQueue, req.Queued
  settled : ∀ req ∈ s.delivered, req.Settled

theorem Orderly.init : Orderly (init : GrammarScheduler γ) where
  order := rfl
  queued := by simp [GrammarScheduler.init]
  settled := by simp [GrammarScheduler.init]

section Steps

variable {s : GrammarScheduler γ}

theorem Orderly.enqueue (h : Orderly s) (rid : String) (key : GrammarKey)
    (inputIds radixIds : List Nat) (returnLogprob : Bool) :
    Orderly (s.enqueue rid key inputIds radixIds returnLogprob) where
  order := by simp [GrammarScheduler.enqueue, h.order]
  queued := by
    intro req hreq
    rcases List.mem_append.mp hreq with hreq | hreq
    · exact h.queued req hreq
    · rw [List.mem_singleton.mp hreq]
      exact ⟨rfl, .inl ⟨rfl, _, rfl⟩⟩
  settled := h.settled

/-- Worker threads touch no request. -/
theorem Orderly.work (h : Orderly s) (id : Nat) (result : Option (Compiled γ)) :
    Orderly (s.work id result) := by
  unfold GrammarScheduler.work
  split
  · exact ⟨h.order, h.queued, h.settled⟩
  · exact ⟨h.order, h.queued, h.settled⟩
  · exact h

/-- An abort marks queued requests and keeps them in their places. -/
theorem abortLoop_spec (hit : String → Bool) (queue : List (GrammarReq γ))
    (futures : Nat → GrammarFuture γ) (h : ∀ req ∈ queue, req.Queued) :
    (abortLoop hit queue futures).1.map GrammarReq.rid = queue.map GrammarReq.rid ∧
      (∀ req ∈ (abortLoop hit queue futures).1, req.Queued) ∧
      (abortLoop hit queue futures).2.2 = .ok () := by
  induction queue generalizing futures with
  | nil => exact ⟨rfl, by simp [abortLoop], rfl⟩
  | cons req rest ih =>
    have hrest : ∀ r ∈ rest, r.Queued := fun r hr => h r (by simp [hr])
    obtain ⟨hfin, hslot⟩ := h req (by simp)
    have aborted : (req.setFinishWithAbort "Aborted by AbortReq.").Queued :=
      ⟨hfin, .inr ⟨rfl, rfl⟩⟩
    -- Whatever happens to this request, the rest of the queue is treated the same.
    have keep {r : GrammarReq γ} (hrid : r.rid = req.rid) (hr : r.Queued)
        (futures : Nat → GrammarFuture γ) :
        (r :: (abortLoop hit rest futures).1).map GrammarReq.rid =
            (req :: rest).map GrammarReq.rid ∧
          (∀ q ∈ r :: (abortLoop hit rest futures).1, q.Queued) ∧
          (abortLoop hit rest futures).2.2 = .ok () := by
      obtain ⟨hrids, hqueued, hok⟩ := ih futures hrest
      refine ⟨by rw [List.map_cons, List.map_cons, hrid, hrids], ?_, hok⟩
      intro q hq
      rcases List.mem_cons.mp hq with rfl | hq
      · exact hr
      · exact hqueued q hq
    unfold abortLoop
    by_cases hhit : hit req.rid = true
    · rw [if_pos hhit]
      rcases hslot with ⟨-, id, hslot⟩ | ⟨-, hslot⟩
      · simp only [hslot]
        exact keep (r := req.setFinishWithAbort "Aborted by AbortReq.") rfl aborted _
      · simp only [hslot]
        exact keep (r := req.setFinishWithAbort "Aborted by AbortReq.") rfl aborted _
    · rw [if_neg hhit]
      exact keep (r := req) rfl (h req (by simp)) _

theorem Orderly.abortRequest (h : Orderly s) (abortAll : Bool) (rid : String) :
    Orderly (s.abortRequest abortAll rid).2 ∧ (s.abortRequest abortAll rid).1 = .ok () := by
  obtain ⟨hrids, hqueued, hok⟩ :=
    abortLoop_spec (fun r => abortAll || rid.isPrefixOf r) s.grammarQueue s.futures h.queued
  refine ⟨⟨?_, hqueued, h.settled⟩, hok⟩
  rw [List.map_append]
  change s.arrived = _ ++ List.map GrammarReq.rid (abortLoop _ _ _).1
  rw [hrids, h.order, List.map_append]
  rfl

/-- A poll that does not raise hands over the head of the queue, settled. -/
theorem Orderly.poll {S : GrammarSettings γ} (h : Orderly s) (hclear : s.PollClear) :
    Orderly (s.moveReadyGrammarRequests S).2 := by
  have hsplit := s.readyReqs_append_otherReqs
  have hready : ∀ req ∈ s.readyReqs,
      (req.settle S s.futures).Settled ∧ (req.settle S s.futures).rid = req.rid := by
    intro req hreq
    apply (h.queued req _).settle
    · exact List.mem_takeWhile_imp hreq
    · rw [← hsplit]
      exact List.mem_append_left _ hreq
  have hrids : (s.readyReqs.map (GrammarReq.settle S s.futures)).map GrammarReq.rid =
      s.readyReqs.map GrammarReq.rid := by
    rw [List.map_map]
    exact List.map_congr_left fun req hreq => (hready req hreq).2
  have hothers : ∀ req ∈ s.otherReqs, req.Queued := by
    intro req hreq
    apply h.queued
    rw [← hsplit]
    exact List.mem_append_right _ hreq
  have hhanded : ∀ req ∈ s.delivered ++ s.readyReqs.map (GrammarReq.settle S s.futures),
      req.Settled := by
    intro req hreq
    rcases List.mem_append.mp hreq with hreq | hreq
    · exact h.settled req hreq
    · obtain ⟨r, hr, rfl⟩ := List.mem_map.mp hreq
      exact (hready r hr).1
  have horder : s.arrived = s.delivered.map GrammarReq.rid ++
      (s.readyReqs.map GrammarReq.rid ++ s.otherReqs.map GrammarReq.rid) := by
    rw [h.order, List.map_append, ← hsplit, List.map_append]
  have houtcome := poll_outcome (S := S) s
  generalize s.moveReadyGrammarRequests S = out at houtcome ⊢
  cases houtcome with
  | drained cache rest =>
    refine ⟨?_, by simp, hhanded⟩
    rw [rest] at horder
    simpa [hrids] using horder
  | @waiting req tail cache rest waits =>
    rw [rest] at horder hothers
    refine ⟨?_, ?_, hhanded⟩
    · simpa [hrids] using horder
    · intro r hr
      rcases List.mem_cons.mp hr with rfl | hr
      · exact hothers req (by simp)
      · exact hothers r (by simp [hr])
  | @timedOut req tail cache id rest waits slot =>
    rw [rest] at horder hothers
    refine ⟨?_, fun r hr => hothers r (by simp [hr]), ?_⟩
    · simpa [hrids, GrammarReq.setFinishWithAbort] using horder
    · intro r hr
      rw [← List.append_assoc] at hr
      rcases List.mem_append.mp hr with hr | hr
      · exact hhanded r hr
      · rw [List.mem_singleton.mp hr]
        exact .inl ⟨rfl, rfl⟩
  | @raised req tail e cache rest stuck =>
    exact absurd (hclear req (by rw [rest]; rfl)) stuck

end Steps

end GrammarScheduler
end SglJax.Managers
