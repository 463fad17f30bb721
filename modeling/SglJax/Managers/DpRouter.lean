import SglJax.Managers.DpSchedulePolicy
import Mathlib.Data.List.Dedup
import Mathlib.Algebra.BigOperators.Group.List.Basic
import Mathlib.Tactic.Linarith

/-! Routing of one intake: a snapshot of the load of the ranks, and the router that assigns the
requests of the intake one after the other and counts what it has assigned. -/
namespace SglJax.Managers.DpRouting

inductive DpPolicy where
  | roundRobin
  | cacheAware
  | forceCacheAware
  | shapeAware
  | minRunningQueue
deriving DecidableEq, Repr

/-- A message of the intake: a generate request or a control message. -/
inductive Message (γ : Type) where
  | generate (req : DpReq)
  | control (c : γ)
deriving DecidableEq, Repr

/-- What the router asks the scheduler: `scaled n` is `int(n * new_token_ratio)`, and
`lookupPrefix` probes the prefix cache of a rank. -/
structure RouterEnv where
  maxReqLen : Nat
  pageSize : Nat
  scaled : Nat → Nat
  lookupPrefix : List Nat → Option Text → Nat → Nat

def clipMaxNewTokensEstimation : Nat := 4096

def ignoreEosReserveTokens : Nat := 1

/-- `_extract_max_new_tokens`: nothing is said about it, or `None` is given, or a number. -/
def extractMaxNewTokens : Option (Option Int) → Nat
  | none => 128
  | some none => clipMaxNewTokensEstimation
  | some (some n) => n.toNat

/-- `_estimate_req_input_output_tokens` -/
def RouterEnv.estimateIo (env : RouterEnv) (req : DpReq) : Nat × Nat :=
  let inputTokenLen := req.inputIds.length
  let estMaxNewTokens := min (extractMaxNewTokens req.maxNewTokens) clipMaxNewTokensEstimation
  let estMaxNewTokens := min estMaxNewTokens (env.maxReqLen - inputTokenLen - 1)
  let estOutputTokens :=
    if req.ignoreEos then
      (estMaxNewTokens + env.pageSize - 1) / env.pageSize * env.pageSize + ignoreEosReserveTokens
    else env.scaled estMaxNewTokens
  (inputTokenLen, estOutputTokens)

structure DpRouter where
  loads : Loads
  requestLimits : List Nat
  policy : DpPolicy
  roundRobinCounter : Nat
deriving DecidableEq, Repr

namespace DpRouter

variable (router : DpRouter)

def dpSize : Nat := router.loads.requestCounts.length

def eligibleRanks : List Nat :=
  (List.range router.dpSize).filter fun rank =>
    decide (router.loads.count rank < router.requestLimits.getD rank 0)

end DpRouter

/-- One request more on `rank`. -/
def Loads.record (loads : Loads) (rank itemInput itemOutput : Nat) : Loads where
  requestCounts := loads.requestCounts.modify rank (· + 1)
  inputTokens := loads.inputTokens.modify rank (· + itemInput)
  outputTokens := loads.outputTokens.modify rank (· + itemOutput)

/-- The router after it has given `rank` a request with these token counts. -/
def DpRouter.add (router : DpRouter) (rank : Nat) (item : Nat × Nat) : DpRouter :=
  { router with loads := router.loads.record rank item.1 item.2 }

/-- The rank that a request names, when there is such a rank. -/
def namedRank (dpSize : Nat) (req : DpReq) : Option Nat :=
  match req.dpRank with
  | some rank => if 0 ≤ rank ∧ rank < dpSize then some rank.toNat else none
  | none => none

/-- The request bound for `rank`. -/
def DpReq.withRank (req : DpReq) (rank : Nat) : DpReq := { req with dpRank := some rank }

/-- The request without its rank. -/
def DpReq.core (req : DpReq) : DpReq := { req with dpRank := none }

variable (env : RouterEnv)

/-- The prefix that the request can reuse: its length on each rank, and the length asked for. -/
def prefixProbe (req : DpReq) : (Nat → Nat) × Nat :=
  match reqPrefixMatchKey req with
  | (some tokenIds, extraKey) => (env.lookupPrefix tokenIds extraKey, tokenIds.length)
  | (none, _) => (fun _ => 0, 0)

def pickRank (router : DpRouter) (req : DpReq) (eligible : List Nat) : Option Nat :=
  let item := env.estimateIo req
  let probe := prefixProbe env req
  match router.policy with
  | .cacheAware => pickCacheAwareDp eligible router.loads probe.1 probe.2 item.1 item.2
  | .forceCacheAware => pickForceCacheAwareDp eligible router.loads probe.1
      (List.range router.dpSize) probe.2 item.1 item.2
  | .shapeAware => pickShapeAwareDp eligible router.loads item.1 item.2
  | _ => leastLoaded router.loads eligible

/-- The rank that the request gets, the request and the router afterwards. -/
def assign (router : DpRouter) (req : DpReq) : Option Nat × DpReq × DpRouter :=
  if router.dpSize = 1 then (some 0, DpReq.withRank req 0, router)
  else if router.policy = .roundRobin then
    match namedRank router.dpSize req with
    | some rank => (some rank, DpReq.withRank req rank, router)
    | none =>
      let rank := router.roundRobinCounter % router.dpSize
      (some rank, DpReq.withRank req rank,
        { router with roundRobinCounter := router.roundRobinCounter + 1 })
  else
    match namedRank router.dpSize req with
    | some rank =>
      (some rank, DpReq.withRank req rank, router.add rank (env.estimateIo req))
    | none =>
      if router.eligibleRanks.isEmpty then (none, DpReq.core req, router)
      else
        match pickRank env router req router.eligibleRanks with
        | some rank =>
          (some rank, DpReq.withRank req rank, router.add rank (env.estimateIo req))
        | none => (none, DpReq.core req, router)

variable {γ : Type}

/-- `assign_dp_ranks`: what is ready, what is deferred, and the router afterwards. -/
def assignDpRanks (router : DpRouter) : List (Message γ) →
    DpRouter × List (Message γ) × List DpReq
  | [] => (router, [], [])
  | .control c :: rest =>
    let (router', ready, deferred) := assignDpRanks router rest
    (router', .control c :: ready, deferred)
  | .generate req :: rest =>
    match assign env router req with
    | (some _, req', next) =>
      let (router', ready, deferred) := assignDpRanks next rest
      (router', .generate req' :: ready, deferred)
    | (none, req', next) =>
      let (router', ready, deferred) := assignDpRanks next rest
      (router', ready, req' :: deferred)

/-! ### One assignment -/

section assign

variable {env} {router next : DpRouter} {req req' : DpReq} {rank : Nat}

theorem namedRank_lt (h : namedRank router.dpSize req = some rank) : rank < router.dpSize := by
  unfold namedRank at h
  split at h
  next r _ =>
    split at h
    next hr => injection h with h; omega
    next => contradiction
  next => contradiction

theorem mem_eligibleRanks : rank ∈ router.eligibleRanks ↔
    rank < router.dpSize ∧ router.loads.count rank < router.requestLimits.getD rank 0 := by
  unfold DpRouter.eligibleRanks
  rw [List.mem_filter, List.mem_range, decide_eq_true_iff]

theorem pickRank_mem {eligible : List Nat} (h : pickRank env router req eligible = some rank) :
    rank ∈ eligible := by
  unfold pickRank at h
  split at h
  · exact (pickCacheAwareDp_spec h).1
  · exact (pickForceCacheAwareDp_spec h).1
  · exact (pickShapeAwareDp_spec h).1
  · exact (leastLoaded_spec h).1

/-- What an assignment can do. -/
inductive Assigned (env : RouterEnv) (router : DpRouter) (req : DpReq) :
    Option Nat × DpReq × DpRouter → Prop where
  /-- without load: one rank, or ranks in turn -/
  | single (h : router.dpSize = 1) : Assigned env router req (some 0, DpReq.withRank req 0, router)
  | turnNamed (rank : Nat) (hn : router.dpSize ≠ 1) (hp : router.policy = .roundRobin)
      (h : namedRank router.dpSize req = some rank) :
      Assigned env router req (some rank, DpReq.withRank req rank, router)
  | turn (hn : router.dpSize ≠ 1) (hp : router.policy = .roundRobin)
      (h : namedRank router.dpSize req = none) :
      Assigned env router req (some (router.roundRobinCounter % router.dpSize),
        DpReq.withRank req (router.roundRobinCounter % router.dpSize),
        { router with roundRobinCounter := router.roundRobinCounter + 1 })
  | named (rank : Nat) (hn : router.dpSize ≠ 1) (hp : router.policy ≠ .roundRobin)
      (h : namedRank router.dpSize req = some rank) :
      Assigned env router req
        (some rank, DpReq.withRank req rank, router.add rank (env.estimateIo req))
  | picked (rank : Nat) (hn : router.dpSize ≠ 1) (hp : router.policy ≠ .roundRobin)
      (h : namedRank router.dpSize req = none)
      (hpick : pickRank env router req router.eligibleRanks = some rank) :
      Assigned env router req
        (some rank, DpReq.withRank req rank, router.add rank (env.estimateIo req))
  | deferred (hn : router.dpSize ≠ 1) (hp : router.policy ≠ .roundRobin)
      (h : namedRank router.dpSize req = none)
      (hfull : router.policy ≠ .forceCacheAware → router.eligibleRanks = []) :
      Assigned env router req (none, DpReq.core req, router)

theorem assign_assigned (env : RouterEnv) (router : DpRouter) (req : DpReq) :
    Assigned env router req (assign env router req) := by
  unfold assign
  split
  next h => exact .single h
  next hn =>
    split
    next hp =>
      split
      next hr => exact .turnNamed _ hn hp hr
      next hr => exact .turn hn hp hr
    next hp =>
      split
      next hr => exact .named _ hn hp hr
      next hr =>
        split
        next hempty => exact .deferred hn hp hr fun _ => List.isEmpty_iff.mp hempty
        next hempty =>
          split
          next rank hpick => exact .picked rank hn hp hr hpick
          next hpick =>
            refine .deferred hn hp hr fun hforce => ?_
            -- the other policies find a rank among those that are not full
            by_contra hne
            have hsome := pick_isSome router.loads (prefixProbe env req).1 (prefixProbe env req).2
              (env.estimateIo req).1 (env.estimateIo req).2 hne
            unfold pickRank at hpick
            split at hpick
            next => rw [hpick] at hsome; exact absurd hsome.2.2 (by decide)
            next heq => exact hforce heq
            next => rw [hpick] at hsome; exact absurd hsome.2.1 (by decide)
            next => rw [hpick] at hsome; exact absurd hsome.1 (by decide)

end assign

/-! ### One intake -/

/-- The messages without the ranks of the requests. -/
def Message.core : Message γ → Message γ
  | .generate req => .generate (DpReq.core req)
  | .control c => .control c

/-- The requests that name no rank, in order. -/
def unranked (dpSize : Nat) : List (Message γ) → List DpReq
  | [] => []
  | .generate req :: rest =>
    if (namedRank dpSize req).isNone then req :: unranked dpSize rest else unranked dpSize rest
  | .control _ :: rest => unranked dpSize rest

/-- A request that is bound for `rank`. -/
def goesTo (rank : Nat) : Message γ → Bool
  | .generate req => decide (req.dpRank = some (rank : Int))
  | .control _ => false

section intake

variable {env} {router : DpRouter} {messages : List (Message γ)}

@[simp] theorem core_withRank (req : DpReq) (rank : Nat) :
    DpReq.core (DpReq.withRank req rank) = DpReq.core req := rfl

@[simp] theorem core_core (req : DpReq) : DpReq.core (DpReq.core req) = DpReq.core req := rfl

theorem length_record (loads : Loads) (rank i o : Nat) :
    (loads.record rank i o).requestCounts.length = loads.requestCounts.length := by
  simp [Loads.record]

@[simp] theorem dpSize_add (rank : Nat) (item : Nat × Nat) :
    (router.add rank item).dpSize = router.dpSize :=
  length_record router.loads rank item.1 item.2

theorem assignDpRanks_ready {req req' : DpReq} {rank : Nat} {next : DpRouter}
    {rest : List (Message γ)} (h : assign env router req = (some rank, req', next)) :
    assignDpRanks env router (.generate req :: rest) = ((assignDpRanks env next rest).1,
      .generate req' :: (assignDpRanks env next rest).2.1, (assignDpRanks env next rest).2.2) := by
  rw [assignDpRanks, h]

theorem assignDpRanks_deferred {req req' : DpReq} {next : DpRouter} {rest : List (Message γ)}
    (h : assign env router req = (none, req', next)) :
    assignDpRanks env router (.generate req :: rest) = ((assignDpRanks env next rest).1,
      (assignDpRanks env next rest).2.1, req' :: (assignDpRanks env next rest).2.2) := by
  rw [assignDpRanks, h]

/-- An assignment keeps the settings of the router. -/
theorem Assigned.settings {req : DpReq} {out : Option Nat × DpReq × DpRouter}
    (h : Assigned env router req out) : out.2.2.dpSize = router.dpSize ∧
      out.2.2.policy = router.policy ∧ out.2.2.requestLimits = router.requestLimits := by
  cases h with
  | named rank _ _ _ => exact ⟨length_record _ _ _ _, rfl, rfl⟩
  | picked rank _ _ _ _ => exact ⟨length_record _ _ _ _, rfl, rfl⟩
  | _ => exact ⟨rfl, rfl, rfl⟩

/-- What holds of a router through every assignment holds after the intake. -/
theorem assignDpRanks_induct (env : RouterEnv) {P : DpRouter → Prop}
    (hstep : ∀ router req, P router → P (assign env router req).2.2) (router : DpRouter)
    (messages : List (Message γ)) (h : P router) : P (assignDpRanks env router messages).1 := by
  induction messages generalizing router with
  | nil => exact h
  | cons message rest ih =>
    cases message with
    | control c => exact ih router h
    | generate req =>
      have hnext := hstep router req h
      unfold assignDpRanks
      split
      next heq => rw [heq] at hnext; exact ih _ hnext
      next heq => rw [heq] at hnext; exact ih _ hnext

/-- No message is lost, and neither the ready nor the deferred ones change their order. -/
theorem assignDpRanks_keeps (env : RouterEnv) (router : DpRouter) (messages : List (Message γ)) :
    (((assignDpRanks env router messages).2.1.map Message.core) ++
        (assignDpRanks env router messages).2.2.map fun req =>
          Message.generate (DpReq.core req)).Perm
      (messages.map Message.core) ∧
    ((assignDpRanks env router messages).2.1.map Message.core).Sublist
      (messages.map Message.core) ∧
    ((assignDpRanks env router messages).2.2.map fun req =>
      Message.generate (DpReq.core req)).Sublist
      (messages.map Message.core) := by
  induction messages generalizing router with
  | nil => exact ⟨.nil, .slnil, .slnil⟩
  | cons message rest ih =>
    cases message with
    | control c =>
      obtain ⟨hperm, hready, hdeferred⟩ := ih router
      exact ⟨hperm.cons _, hready.cons_cons _, hdeferred.cons _⟩
    | generate req =>
      have hassigned := assign_assigned env router req
      unfold assignDpRanks
      split
      next rank req' next heq =>
        obtain ⟨hperm, hready, hdeferred⟩ := ih next
        have hcore : DpReq.core req' = DpReq.core req := by
          rw [heq] at hassigned
          cases hassigned <;> rfl
        simp only [List.map_cons, Message.core, hcore, List.cons_append]
        exact ⟨hperm.cons _, hready.cons_cons _, hdeferred.cons _⟩
      next req' next heq =>
        obtain ⟨hperm, hready, hdeferred⟩ := ih next
        have hcore : DpReq.core req' = DpReq.core req := by
          rw [heq] at hassigned
          cases hassigned
          rfl
        simp only [List.map_cons, Message.core, hcore]
        exact ⟨List.perm_middle.trans (hperm.cons _), hready.cons _, hdeferred.cons_cons _⟩

/-- A request is ready for a rank that exists, and deferred without one. -/
theorem assignDpRanks_ranks (env : RouterEnv) (router : DpRouter) (messages : List (Message γ))
    (hsize : 0 < router.dpSize) :
    (∀ req, Message.generate req ∈ (assignDpRanks env router messages).2.1 →
      ∃ rank < router.dpSize, req.dpRank = some (rank : Int)) ∧
    ∀ req ∈ (assignDpRanks env router messages).2.2, req.dpRank = none := by
  induction messages generalizing router with
  | nil => simp [assignDpRanks]
  | cons message rest ih =>
    cases message with
    | control c =>
      obtain ⟨hready, hdeferred⟩ := ih router hsize
      refine ⟨fun req hreq => ?_, hdeferred⟩
      rcases List.mem_cons.mp hreq with heq | hreq
      · exact absurd heq (by simp)
      · exact hready req hreq
    | generate req =>
      have hassigned := assign_assigned env router req
      have hsettings := hassigned.settings
      unfold assignDpRanks
      split
      next rank req' next heq =>
        rw [heq] at hassigned hsettings
        obtain ⟨hready, hdeferred⟩ := ih next (hsettings.1 ▸ hsize)
        rw [hsettings.1] at hready
        have hbound : rank < router.dpSize ∧ req'.dpRank = some (rank : Int) := by
          cases hassigned with
          | single h => exact ⟨by omega, rfl⟩
          | turnNamed _ _ _ h => exact ⟨namedRank_lt h, rfl⟩
          | turn _ _ _ => exact ⟨Nat.mod_lt _ hsize, rfl⟩
          | named _ _ _ h => exact ⟨namedRank_lt h, rfl⟩
          | picked _ _ _ _ hpick => exact ⟨(mem_eligibleRanks.mp (pickRank_mem hpick)).1, rfl⟩
        refine ⟨fun r hr => ?_, hdeferred⟩
        rcases List.mem_cons.mp hr with heq | hr
        · injection heq with heq
          exact ⟨rank, hbound.1, heq ▸ hbound.2⟩
        · exact hready r hr
      next req' next heq =>
        rw [heq] at hassigned hsettings
        obtain ⟨hready, hdeferred⟩ := ih next (hsettings.1 ▸ hsize)
        rw [hsettings.1] at hready
        refine ⟨hready, fun r hr => ?_⟩
        rcases List.mem_cons.mp hr with rfl | hr
        · cases hassigned
          rfl
        · exact hdeferred r hr

/-! ### First come, first served -/

theorem getD_modify (l : List Nat) (f : Nat → Nat) (i j : Nat) :
    (l.modify i f).getD j 0 = if i = j ∧ j < l.length then f (l.getD j 0) else l.getD j 0 := by
  rw [List.getD_eq_getElem?_getD, List.getD_eq_getElem?_getD, List.getElem?_modify]
  by_cases hj : j < l.length
  · rw [List.getElem?_eq_getElem hj]
    split
    next h => rw [if_pos ⟨h, hj⟩]; rfl
    next h => rw [if_neg fun h' => h h'.1]; rfl
  · rw [List.getElem?_eq_none (by omega), if_neg fun h => hj h.2]
    rfl

theorem count_record (loads : Loads) (rank i o r : Nat) :
    (loads.record rank i o).count r =
      if rank = r ∧ r < loads.requestCounts.length then loads.count r + 1 else loads.count r :=
  getD_modify _ _ _ _

theorem count_le_record (loads : Loads) (rank i o r : Nat) :
    loads.count r ≤ (loads.record rank i o).count r := by
  rw [count_record]
  split <;> omega

theorem eligibleRanks_add {rank : Nat} {item : Nat × Nat} (h : router.eligibleRanks = []) :
    (router.add rank item).eligibleRanks = [] := by
  rw [List.eq_nil_iff_forall_not_mem] at h ⊢
  intro r hr
  obtain ⟨hlt, hcount⟩ := mem_eligibleRanks.mp hr
  have hle := count_le_record router.loads rank item.1 item.2 r
  apply h r
  rw [mem_eligibleRanks]
  rw [dpSize_add] at hlt
  exact ⟨hlt, hle.trans_lt hcount⟩

/-- When all ranks are full every request that names no rank is deferred. -/
theorem assignDpRanks_full (env : RouterEnv) (router : DpRouter) (messages : List (Message γ))
    (hsize : router.dpSize ≠ 1) (hpolicy : router.policy ≠ .roundRobin)
    (hfull : router.eligibleRanks = []) :
    (assignDpRanks env router messages).2.2.map DpReq.core =
      (unranked router.dpSize messages).map DpReq.core := by
  induction messages generalizing router with
  | nil => rfl
  | cons message rest ih =>
    cases message with
    | control c => exact ih router hsize hpolicy hfull
    | generate req =>
      have hassigned := assign_assigned env router req
      have hsettings := hassigned.settings
      unfold assignDpRanks unranked
      split
      next rank req' next heq =>
        rw [heq] at hassigned hsettings
        obtain ⟨hsame, hpol, -⟩ := hsettings
        cases hassigned with
        | single h => exact absurd h hsize
        | turnNamed _ _ hp _ => exact absurd hp hpolicy
        | turn _ hp _ => exact absurd hp hpolicy
        | named _ _ _ h =>
          rw [if_neg (by rw [h]; exact Bool.false_ne_true), ← hsame]
          exact ih _ (hsame ▸ hsize) (hpol ▸ hpolicy) (eligibleRanks_add hfull)
        | picked _ _ _ _ hpick =>
          have hmem := pickRank_mem hpick
          rw [hfull] at hmem
          exact absurd hmem List.not_mem_nil
      next req' next heq =>
        rw [heq] at hassigned
        cases hassigned with
        | deferred _ _ h _ =>
          rw [if_pos (by rw [h]; rfl), List.map_cons, List.map_cons, core_core]
          exact congrArg _ (ih router hsize hpolicy hfull)

/-- Unless affinity is strict, a request is not overtaken: the deferred ones are the last of
those that name no rank. -/
theorem assignDpRanks_suffix (env : RouterEnv) (router : DpRouter) (messages : List (Message γ))
    (hpolicy : router.policy ≠ .forceCacheAware) :
    (assignDpRanks env router messages).2.2.map DpReq.core <:+
      (unranked router.dpSize messages).map DpReq.core := by
  induction messages generalizing router with
  | nil => exact List.suffix_rfl
  | cons message rest ih =>
    cases message with
    | control c => exact ih router hpolicy
    | generate req =>
      have hassigned := assign_assigned env router req
      have hsettings := hassigned.settings
      cases hassign : assign env router req with
      | mk out req'next =>
        obtain ⟨req', next⟩ := req'next
        rw [hassign] at hassigned hsettings
        obtain ⟨hsame, hpol, -⟩ := hsettings
        cases out with
        | some rank =>
          have hrest := ih next (hpol ▸ hpolicy)
          rw [hsame] at hrest
          rw [assignDpRanks_ready hassign]
          unfold unranked
          split
          next => exact hrest.trans (List.suffix_cons _ _)
          next => exact hrest
        | none =>
          cases hassigned with
          | deferred hn hp h hfull =>
            rw [← assignDpRanks_full env router (.generate req :: rest) hn hp (hfull hpolicy)]

/-! ### The counters of an intake -/

/-- Number of ready requests that are bound for `rank`. -/
def bound (rank : Nat) (ready : List (Message γ)) : Nat := ready.countP (goesTo rank)

/-- Estimated tokens of the ready requests that are bound for `rank`. -/
def boundTokens (env : RouterEnv) (rank : Nat) (ready : List (Message γ)) : Nat × Nat :=
  ready.foldr (fun message total =>
    match message with
    | .generate req =>
      if req.dpRank = some (rank : Int) then
        ((env.estimateIo req).1 + total.1, (env.estimateIo req).2 + total.2)
      else total
    | .control _ => total) (0, 0)

/-- All counters are kept for the same ranks. -/
structure Loads.Sized (loads : Loads) (dpSize : Nat) : Prop where
  counts : loads.requestCounts.length = dpSize
  inputs : loads.inputTokens.length = dpSize
  outputs : loads.outputTokens.length = dpSize

theorem Loads.Sized.record {loads : Loads} {dpSize : Nat} (h : loads.Sized dpSize)
    (rank i o : Nat) : (loads.record rank i o).Sized dpSize := by
  constructor
  · rw [length_record, h.counts]
  · simp [Loads.record, h.inputs]
  · simp [Loads.record, h.outputs]

/-- The counters of one rank change by what it gets. -/
theorem record_rank {loads : Loads} {dpSize : Nat} (h : loads.Sized dpSize) {r : Nat}
    (hr : r < dpSize) (rank i o : Nat) :
    (loads.record rank i o).count r = loads.count r + (if rank = r then 1 else 0) ∧
    (loads.record rank i o).input r = loads.input r + (if rank = r then i else 0) ∧
    (loads.record rank i o).output r = loads.output r + (if rank = r then o else 0) := by
  have hc := getD_modify loads.requestCounts (· + 1) rank r
  have hi := getD_modify loads.inputTokens (· + i) rank r
  have ho := getD_modify loads.outputTokens (· + o) rank r
  rw [h.counts] at hc
  rw [h.inputs] at hi
  rw [h.outputs] at ho
  unfold Loads.count Loads.input Loads.output Loads.record
  rw [hc, hi, ho]
  by_cases heq : rank = r
  · simp [heq, hr]
  · simp [heq]

/-- After an intake that looks at the load, the counters are those of the snapshot and of the
ready requests; what is deferred is not counted. -/
theorem assignDpRanks_counts (env : RouterEnv) (router : DpRouter) (messages : List (Message γ))
    (hsized : router.loads.Sized router.dpSize) (hsize : router.dpSize ≠ 1)
    (hpolicy : router.policy ≠ .roundRobin) (r : Nat) (hr : r < router.dpSize) :
    (assignDpRanks env router messages).1.loads.count r =
        router.loads.count r + bound r (assignDpRanks env router messages).2.1 ∧
      (assignDpRanks env router messages).1.loads.input r =
        router.loads.input r + (boundTokens env r (assignDpRanks env router messages).2.1).1 ∧
      (assignDpRanks env router messages).1.loads.output r =
        router.loads.output r + (boundTokens env r (assignDpRanks env router messages).2.1).2 := by
  induction messages generalizing router with
  | nil => exact ⟨rfl, rfl, rfl⟩
  | cons message rest ih =>
    cases message with
    | control c =>
      obtain ⟨hcount, hinput, houtput⟩ := ih router hsized hsize hpolicy hr
      refine ⟨?_, hinput, houtput⟩
      unfold assignDpRanks bound
      rw [List.countP_cons_of_neg (by exact Bool.false_ne_true)]
      exact hcount
    | generate req =>
      have hassigned := assign_assigned env router req
      have hsettings := hassigned.settings
      cases hassign : assign env router req with
      | mk out req'next =>
        obtain ⟨req', next⟩ := req'next
        rw [hassign] at hassigned hsettings
        obtain ⟨hsame, hpol, -⟩ := hsettings
        -- one more request on `rank`, then the rest of the intake
        have hadd : ∀ rank, assign env router req = (some rank, DpReq.withRank req rank,
            router.add rank (env.estimateIo req)) →
            (assignDpRanks env router (.generate req :: rest)).1.loads.count r =
              router.loads.count r +
                bound r (assignDpRanks env router (.generate req :: rest)).2.1 ∧
            (assignDpRanks env router (.generate req :: rest)).1.loads.input r =
              router.loads.input r +
                (boundTokens env r (assignDpRanks env router (.generate req :: rest)).2.1).1 ∧
            (assignDpRanks env router (.generate req :: rest)).1.loads.output r =
              router.loads.output r +
                (boundTokens env r (assignDpRanks env router (.generate req :: rest)).2.1).2 := by
          intro rank hrank
          have hsized' : (router.add rank (env.estimateIo req)).loads.Sized
              (router.add rank (env.estimateIo req)).dpSize := by
            rw [dpSize_add]
            exact hsized.record rank (env.estimateIo req).1 (env.estimateIo req).2
          obtain ⟨hcount, hinput, houtput⟩ := ih (router.add rank (env.estimateIo req)) hsized'
            (by rwa [dpSize_add]) hpolicy (by rwa [dpSize_add])
          obtain ⟨hc, hi, ho⟩ := record_rank hsized hr rank (env.estimateIo req).1
            (env.estimateIo req).2
          have hgoes : goesTo r (Message.generate (γ := γ) (DpReq.withRank req rank)) =
              decide (rank = r) := by
            unfold goesTo DpReq.withRank
            simp
          have htokens : env.estimateIo (DpReq.withRank req rank) = env.estimateIo req := rfl
          have hranked : (DpReq.withRank req rank).dpRank = some (r : Int) ↔ rank = r := by
            unfold DpReq.withRank
            simp
          rw [assignDpRanks_ready hrank]
          dsimp only
          rw [hcount, hinput, houtput]
          unfold bound boundTokens
          rw [List.countP_cons, List.foldr_cons, hgoes]
          dsimp only
          rw [htokens]
          unfold DpRouter.add
          dsimp only
          rw [hc, hi, ho]
          by_cases heq : rank = r
          · rw [if_pos (hranked.mpr heq)]
            simp only [heq, decide_true, if_true]
            omega
          · rw [if_neg fun h => heq (hranked.mp h)]
            simp [heq]
        cases hassigned with
        | single h => exact absurd h hsize
        | turnNamed _ _ hp _ => exact absurd hp hpolicy
        | turn _ hp _ => exact absurd hp hpolicy
        | named rank _ _ _ => exact hadd rank hassign
        | picked rank _ _ _ _ => exact hadd rank hassign
        | deferred _ _ _ _ =>
          rw [assignDpRanks_deferred hassign]
          exact ih router hsized hsize hpolicy hr

end intake

end SglJax.Managers.DpRouting
