import SglJax.Managers.DpRouter
import Mathlib.Data.Int.CardIntervalMod

/-! Intake rounds of the scheduler: each routes against one snapshot of the load, and requests
that no rank can take wait for the next round. -/
namespace SglJax.Managers.DpRouting

variable {γ : Type}

/-! ### Balance within one intake -/

/-- A measure of the load of a rank, the weight of a request in it, and the bound that a policy
keeps against every rank that is not full. -/
structure Balances (env : RouterEnv) (policy : DpPolicy) (measure : Loads → Nat → Nat)
    (weight : DpReq → Nat) (largest : Nat) (bound : Nat → Nat) : Prop where
  mono : Monotone bound
  grow : ∀ (loads : Loads) (dpSize rank r : Nat) (req : DpReq), loads.Sized dpSize → r < dpSize →
    measure loads r ≤ measure (loads.record rank (env.estimateIo req).1 (env.estimateIo req).2) r ∧
    measure (loads.record rank (env.estimateIo req).1 (env.estimateIo req).2) r ≤
      measure loads r + if rank = r then weight req else 0
  pick : ∀ (router : DpRouter) (req : DpReq) (rank r : Nat), router.loads.Sized router.dpSize →
    router.policy = policy → weight req ≤ largest →
    pickRank env router req router.eligibleRanks = some rank → r ∈ router.eligibleRanks →
    measure (router.add rank (env.estimateIo req)).loads rank ≤ bound (measure router.loads r)

/-- Weight of the requests that name `rank` themselves. -/
def namedWeight (dpSize : Nat) (weight : DpReq → Nat) (rank : Nat) : List (Message γ) → Nat
  | [] => 0
  | .generate req :: rest =>
    (if namedRank dpSize req = some rank then weight req else 0) +
      namedWeight dpSize weight rank rest
  | .control _ :: rest => namedWeight dpSize weight rank rest

/-- Every request of the messages has at most this weight. -/
def WeighAtMost (weight : DpReq → Nat) (largest : Nat) (messages : List (Message γ)) : Prop :=
  ∀ req, Message.generate req ∈ messages → weight req ≤ largest

section balance

variable {env : RouterEnv} {policy : DpPolicy} {measure : Loads → Nat → Nat}
  {weight : DpReq → Nat} {largest : Nat} {bound : Nat → Nat}

/-- The load of a rank only grows during an intake. -/
theorem Balances.le_final (h : Balances env policy measure weight largest bound)
    (router : DpRouter) (messages : List (Message γ)) (hsized : router.loads.Sized router.dpSize)
    {r : Nat} (hr : r < router.dpSize) :
    measure router.loads r ≤ measure (assignDpRanks env router messages).1.loads r := by
  have hkeep := assignDpRanks_induct env
    (P := fun next => next.dpSize = router.dpSize ∧ next.loads.Sized router.dpSize ∧
      measure router.loads r ≤ measure next.loads r) (by
      rintro next req ⟨hsize, hsz, hle⟩
      have hassigned := assign_assigned env next req
      have hsettings := hassigned.settings
      generalize assign env next req = out at hassigned hsettings
      refine ⟨hsettings.1.trans hsize, ?_, ?_⟩
      · cases hassigned with
        | named rank _ _ _ => exact hsz.record rank _ _
        | picked rank _ _ _ _ => exact hsz.record rank _ _
        | _ => exact hsz
      · cases hassigned with
        | named rank _ _ _ => exact hle.trans (h.grow next.loads _ rank r req hsz hr).1
        | picked rank _ _ _ _ => exact hle.trans (h.grow next.loads _ rank r req hsz hr).1
        | _ => exact hle) router messages ⟨rfl, hsized, le_refl _⟩
  exact hkeep.2.2

/-- No rank ends above the bound that a rank with room sets, apart from what it had before and
from the requests that name it. -/
theorem Balances.intake (h : Balances env policy measure weight largest bound)
    (hturn : policy ≠ .roundRobin) (router : DpRouter) (messages : List (Message γ))
    (hsized : router.loads.Sized router.dpSize) (hsize : router.dpSize ≠ 1)
    (hpolicy : router.policy = policy) (hweight : WeighAtMost weight largest messages)
    {rank r : Nat} (hrank : rank < router.dpSize) (hr : r < router.dpSize)
    (hroom : (assignDpRanks env router messages).1.loads.count r < router.requestLimits.getD r 0) :
    measure (assignDpRanks env router messages).1.loads rank ≤
      max (measure router.loads rank) (bound (measure (assignDpRanks env router messages).1.loads r))
        + namedWeight router.dpSize weight rank messages := by
  induction messages generalizing router with
  | nil => exact (le_max_left _ _).trans (Nat.le_add_right _ _)
  | cons message rest ih =>
    have hrest : WeighAtMost weight largest rest :=
      fun req hreq => hweight req (List.mem_cons_of_mem _ hreq)
    cases message with
    | control c => exact ih router hsized hsize hpolicy hrest hrank hr hroom
    | generate req =>
      have hassigned := assign_assigned env router req
      cases hassign : assign env router req with
      | mk out req'next =>
        obtain ⟨req', next⟩ := req'next
        rw [hassign] at hassigned
        have hnp : router.policy ≠ .roundRobin := hpolicy ▸ hturn
        have hsized' : ∀ k, (router.add k (env.estimateIo req)).loads.Sized
            (router.add k (env.estimateIo req)).dpSize := by
          intro k
          rw [dpSize_add]
          exact hsized.record k _ _
        have hgrow : ∀ k, _ := fun k => h.grow router.loads _ k rank req hsized hrank
        unfold namedWeight
        cases hassigned with
        | single h1 => exact absurd h1 hsize
        | turnNamed _ _ hp _ => exact absurd hp hnp
        | turn _ hp _ => exact absurd hp hnp
        | named k _ _ hnamed =>
          rw [assignDpRanks_ready hassign] at hroom ⊢
          have hih := ih (router.add k (env.estimateIo req)) (hsized' k) (by rwa [dpSize_add])
            hpolicy hrest (by rwa [dpSize_add]) (by rwa [dpSize_add]) hroom
          rw [dpSize_add] at hih
          have hk := (hgrow k).2
          have hsame : namedRank router.dpSize req = some rank ↔ k = rank := by
            rw [hnamed, Option.some_inj]
          dsimp only at hih ⊢
          unfold DpRouter.add at hih
          dsimp only at hih
          unfold DpRouter.add
          by_cases heq : k = rank
          · rw [if_pos heq] at hk
            rw [if_pos (hsame.mpr heq)]
            omega
          · rw [if_neg heq] at hk
            rw [if_neg fun hn => heq (hsame.mp hn)]
            omega
        | picked k _ _ hnamed hpick =>
          rw [assignDpRanks_ready hassign] at hroom ⊢
          have hih := ih (router.add k (env.estimateIo req)) (hsized' k) (by rwa [dpSize_add])
            hpolicy hrest (by rwa [dpSize_add]) (by rwa [dpSize_add]) hroom
          have hle := h.le_final (router.add k (env.estimateIo req)) rest (hsized' k)
            (r := r) (by rwa [dpSize_add])
          have hcount := assignDpRanks_counts env (router.add k (env.estimateIo req)) rest
            (hsized' k) (by rwa [dpSize_add]) hnp r (by rwa [dpSize_add])
          rw [dpSize_add] at hih
          rw [if_neg (by rw [hnamed]; simp)]
          have hk := (hgrow k).2
          have hgr := h.grow router.loads _ k r req hsized hr
          -- the rank with room was eligible when `k` was picked
          have hcr := (record_rank hsized hr k (env.estimateIo req).1 (env.estimateIo req).2).1
          have heligible : r ∈ router.eligibleRanks := by
            rw [mem_eligibleRanks]
            refine ⟨hr, lt_of_le_of_lt ?_ hroom⟩
            have h1 := hcount.1
            unfold DpRouter.add at h1 ⊢
            dsimp only at h1 ⊢
            omega
          have hp := h.pick router req k r hsized hpolicy
            (hweight req List.mem_cons_self) hpick heligible
          have hb := h.mono (hgr.1.trans hle)
          dsimp only at hih ⊢
          by_cases heq : k = rank
          · subst heq
            omega
          · rw [if_neg heq] at hk
            unfold DpRouter.add at hih hb ⊢
            dsimp only at hih hb ⊢
            omega
        | deferred _ _ hnamed _ =>
          rw [assignDpRanks_deferred hassign] at hroom ⊢
          rw [if_neg (by rw [hnamed]; simp), Nat.zero_add]
          exact ih router hsized hsize hpolicy hrest hrank hr hroom

end balance

/-- How many requests a rank may have when another has `count` and is not full. -/
def spread : DpPolicy → Nat → Nat
  | .cacheAware, count => max (count + balanceAbs) (11 * count / 10) + 1
  | _, count => count + 1

theorem counts_balances (env : RouterEnv) {policy : DpPolicy}
    (h : policy = .minRunningQueue ∨ policy = .cacheAware) :
    Balances env policy Loads.count (fun _ => 1) 1 (spread policy) where
  mono := by
    rcases h with rfl | rfl
    · intro c c' hc
      exact Nat.succ_le_succ hc
    · intro c c' hc
      change max (c + balanceAbs) (11 * c / 10) + 1 ≤ max (c' + balanceAbs) (11 * c' / 10) + 1
      have hmul : 11 * c / 10 ≤ 11 * c' / 10 := Nat.div_le_div_right (Nat.mul_le_mul_left 11 hc)
      omega
  grow := by
    intro loads dpSize rank r req hsized hr
    rw [(record_rank hsized hr rank _ _).1]
    exact ⟨Nat.le_add_right _ _, le_refl _⟩
  pick := by
    intro router req rank r hsized hpolicy _ hpick hr
    have hmem := (mem_eligibleRanks.mp (pickRank_mem hpick)).1
    unfold DpRouter.add
    dsimp only
    rw [(record_rank hsized hmem rank _ _).1, if_pos rfl]
    unfold pickRank at hpick
    rw [hpolicy] at hpick
    rcases h with rfl | rfl
    · exact Nat.succ_le_succ ((leastLoaded_spec hpick).2 r hr)
    · exact Nat.succ_le_succ ((pickCacheAwareDp_spec hpick).2 r hr)

/-- The larger of the two token loads of a rank. -/
def bottleneck (loads : Loads) (rank : Nat) : Nat := max (loads.input rank) (loads.output rank)

/-- The larger of the two token counts of a request. -/
def itemSize (env : RouterEnv) (req : DpReq) : Nat :=
  max (env.estimateIo req).1 (env.estimateIo req).2

theorem bottleneck_balances (env : RouterEnv) (largest : Nat) :
    Balances env .shapeAware bottleneck (itemSize env) largest (· + largest) where
  mono := fun _ _ hc => Nat.add_le_add_right hc largest
  grow := by
    intro loads dpSize rank r req hsized hr
    obtain ⟨-, hi, ho⟩ := record_rank hsized hr rank (env.estimateIo req).1 (env.estimateIo req).2
    unfold bottleneck itemSize
    rw [hi, ho]
    split <;> omega
  pick := by
    intro router req rank r hsized hpolicy hlargest hpick hr
    have hmem := (mem_eligibleRanks.mp (pickRank_mem hpick)).1
    obtain ⟨-, hi, ho⟩ := record_rank hsized hmem rank (env.estimateIo req).1 (env.estimateIo req).2
    unfold pickRank at hpick
    rw [hpolicy] at hpick
    have hle := (pickShapeAwareDp_spec hpick).2 r hr
    unfold DpRouter.add bottleneck
    unfold itemSize at hlargest
    dsimp only
    rw [hi, ho, if_pos rfl, if_pos rfl]
    omega

/-- Cache affinity or not, the requests of a rank stay within the spread of every rank that is
not full, for every intake and every content of the caches. -/
theorem intake_counts_spread (env : RouterEnv) (router : DpRouter) (messages : List (Message γ))
    (hpolicy : router.policy = .minRunningQueue ∨ router.policy = .cacheAware)
    (hsized : router.loads.Sized router.dpSize) (hsize : router.dpSize ≠ 1) (rank r : Nat)
    (hrank : rank < router.dpSize) (hr : r < router.dpSize)
    (hroom : (assignDpRanks env router messages).1.loads.count r < router.requestLimits.getD r 0) :
    (assignDpRanks env router messages).1.loads.count rank ≤
      max (router.loads.count rank)
          (spread router.policy ((assignDpRanks env router messages).1.loads.count r)) +
        namedWeight router.dpSize (fun _ => 1) rank messages := by
  apply (counts_balances env hpolicy).intake _ router messages hsized hsize rfl
    (fun _ _ => le_refl 1) hrank hr hroom
  rcases hpolicy with h | h <;> rw [h] <;> decide

def plainEnv : RouterEnv := ⟨100, 1, fun n => n, fun _ _ _ => 0⟩

/-- A request of two tokens. -/
def plainReq (ident : Nat) : DpReq :=
  ⟨ident, [1, 2], [1, 2], none, none, false, none, none, false, none⟩

/-- Two ranks with a request each. -/
def twoRanks (policy : DpPolicy) : DpRouter := ⟨⟨[1, 1], [3, 1], [2, 4]⟩, [8, 8], policy, 0⟩

theorem twoRanks_sized (policy : DpPolicy) : (twoRanks policy).loads.Sized 2 := ⟨rfl, rfl, rfl⟩

theorem twoRanks_counts :
    (assignDpRanks plainEnv (twoRanks .cacheAware)
      [.generate (γ := Unit) (plainReq 1), .generate (plainReq 2)]).1.loads.count 0 ≤
        max 1 (spread .cacheAware 2) := by
  have h := intake_counts_spread plainEnv (twoRanks .cacheAware)
    [.generate (γ := Unit) (plainReq 1), .generate (plainReq 2)] (.inr rfl) (twoRanks_sized _)
    (by decide) 0 1 (by decide) (by decide) (by decide)
  exact h.trans (by decide)

/-- Shape-aware routing keeps the larger token load of a rank within one request of every rank
that is not full. -/
theorem intake_bottleneck_spread (env : RouterEnv) (router : DpRouter)
    (messages : List (Message γ)) (largest : Nat) (hpolicy : router.policy = .shapeAware)
    (hsized : router.loads.Sized router.dpSize) (hsize : router.dpSize ≠ 1)
    (hlargest : WeighAtMost (itemSize env) largest messages) (rank r : Nat)
    (hrank : rank < router.dpSize) (hr : r < router.dpSize)
    (hroom : (assignDpRanks env router messages).1.loads.count r < router.requestLimits.getD r 0) :
    bottleneck (assignDpRanks env router messages).1.loads rank ≤
      max (bottleneck router.loads rank)
          (bottleneck (assignDpRanks env router messages).1.loads r + largest) +
        namedWeight router.dpSize (itemSize env) rank messages :=
  (bottleneck_balances env largest).intake (by decide) router messages hsized hsize hpolicy
    hlargest hrank hr hroom

theorem twoRanks_bottleneck :
    bottleneck (assignDpRanks plainEnv (twoRanks .shapeAware)
      [.generate (γ := Unit) (plainReq 1)]).1.loads 0 ≤
      max 3 (bottleneck (twoRanks .shapeAware).loads 1 + 97) := by
  have h := intake_bottleneck_spread plainEnv (twoRanks .shapeAware)
    [.generate (γ := Unit) (plainReq 1)] 97 rfl (twoRanks_sized _) (by decide) (by
      intro req hreq
      rw [List.mem_singleton] at hreq
      injection hreq with hreq
      subst hreq
      decide) 0 1 (by decide) (by decide) (by decide)
  exact h.trans (by decide)

/-! ### Rounds -/

/-- The load of the ranks when a round begins. -/
structure Snapshot (dpSize : Nat) where
  loads : Loads
  requestLimits : List Nat
  sized : loads.Sized dpSize

/-- What one round of the event loop receives, and what the scheduler answers in it. -/
structure Round (γ : Type) (dpSize : Nat) where
  recv : List (Message γ)
  snapshot : Snapshot dpSize
  env : RouterEnv

/-- The intake between two rounds, with all that it has let through. -/
structure Intake (γ : Type) where
  pendingDpReqs : List DpReq
  roundRobinCounter : Nat
  dispatched : List (Message γ)

def zeroLoads (dpSize : Nat) : Loads where
  requestCounts := List.replicate dpSize 0
  inputTokens := List.replicate dpSize 0
  outputTokens := List.replicate dpSize 0

theorem sized_zeroLoads (dpSize : Nat) : (zeroLoads dpSize).Sized dpSize :=
  ⟨List.length_replicate, List.length_replicate, List.length_replicate⟩

/-- The router of a round; with one rank or with ranks in turn the load is not looked at. -/
def roundRouter {dpSize : Nat} (policy : DpPolicy) (state : Intake γ) (round : Round γ dpSize) :
    DpRouter :=
  if 1 < dpSize ∧ policy ≠ .roundRobin then
    ⟨round.snapshot.loads, round.snapshot.requestLimits, policy, state.roundRobinCounter⟩
  else ⟨zeroLoads dpSize, List.replicate dpSize 0, policy, state.roundRobinCounter⟩

def selectDpForRequest {dpSize : Nat} (policy : DpPolicy) (state : Intake γ)
    (round : Round γ dpSize) : Intake γ :=
  if round.recv.isEmpty && state.pendingDpReqs.isEmpty then state
  else
    let result := assignDpRanks round.env (roundRouter policy state round)
      (state.pendingDpReqs.map .generate ++ round.recv)
    { pendingDpReqs := result.2.2
      roundRobinCounter := result.1.roundRobinCounter
      dispatched := state.dispatched ++ result.2.1 }

def Intake.start : Intake γ := ⟨[], 0, []⟩

def runRounds {dpSize : Nat} (policy : DpPolicy) (rounds : List (Round γ dpSize)) : Intake γ :=
  rounds.foldl (selectDpForRequest policy) Intake.start

/-- All messages that the rounds have received. -/
def received {dpSize : Nat} (rounds : List (Round γ dpSize)) : List (Message γ) :=
  rounds.flatMap Round.recv

section rounds

variable {dpSize : Nat} {policy : DpPolicy}

theorem dpSize_roundRouter (policy : DpPolicy) (state : Intake γ) (round : Round γ dpSize) :
    (roundRouter policy state round).dpSize = dpSize := by
  unfold roundRouter DpRouter.dpSize
  split
  next => exact round.snapshot.sized.counts
  next => exact List.length_replicate

theorem policy_roundRouter (policy : DpPolicy) (state : Intake γ) (round : Round γ dpSize) :
    (roundRouter policy state round).policy = policy := by
  unfold roundRouter
  split <;> rfl

theorem unranked_append (messages messages' : List (Message γ)) :
    unranked dpSize (messages ++ messages') =
      unranked dpSize messages ++ unranked dpSize messages' := by
  induction messages with
  | nil => rfl
  | cons message rest ih =>
    cases message with
    | control c => exact ih
    | generate req =>
      rw [List.cons_append, unranked, unranked, ih]
      split <;> rfl

theorem unranked_pending {pending : List DpReq} (h : ∀ req ∈ pending, req.dpRank = none) :
    unranked dpSize (pending.map (Message.generate (γ := γ))) = pending := by
  induction pending with
  | nil => rfl
  | cons req rest ih =>
    have hreq : namedRank dpSize req = none := by
      unfold namedRank
      rw [h req List.mem_cons_self]
    rw [List.map_cons]
    unfold unranked
    rw [hreq, Option.isNone_none, if_pos rfl, ih fun r hr => h r (List.mem_cons_of_mem _ hr)]

/-- The intake after rounds that have received `messages`. -/
structure Kept (dpSize : Nat) (policy : DpPolicy) (messages : List (Message γ))
    (state : Intake γ) : Prop where
  /-- every message once: let through or waiting -/
  once : (state.dispatched.map Message.core ++
    state.pendingDpReqs.map fun req => Message.generate (DpReq.core req)).Perm
      (messages.map Message.core)
  ranked : ∀ req, Message.generate req ∈ state.dispatched →
    ∃ rank < dpSize, req.dpRank = some (rank : Int)
  waiting : ∀ req ∈ state.pendingDpReqs, req.dpRank = none
  /-- the waiting ones are the latest of those that name no rank -/
  latest : policy ≠ .forceCacheAware →
    state.pendingDpReqs.map DpReq.core <:+ (unranked dpSize messages).map DpReq.core

theorem Kept.round {messages : List (Message γ)} {state : Intake γ}
    (h : Kept dpSize policy messages state) (hsize : 0 < dpSize) (round : Round γ dpSize) :
    Kept dpSize policy (messages ++ round.recv) (selectDpForRequest policy state round) := by
  unfold selectDpForRequest
  split
  next hidle =>
    rw [Bool.and_eq_true, List.isEmpty_iff, List.isEmpty_iff] at hidle
    rw [hidle.1, List.append_nil]
    exact h
  next =>
    obtain ⟨hperm, -, -⟩ := assignDpRanks_keeps round.env (roundRouter policy state round)
      (state.pendingDpReqs.map .generate ++ round.recv)
    obtain ⟨hready, hdeferred⟩ := assignDpRanks_ranks round.env (roundRouter policy state round)
      (state.pendingDpReqs.map .generate ++ round.recv) (by rwa [dpSize_roundRouter])
    rw [dpSize_roundRouter] at hready
    constructor
    · dsimp only
      rw [List.map_append, List.append_assoc, List.map_append]
      have hsplit : (state.pendingDpReqs.map Message.generate ++ round.recv).map Message.core =
          (state.pendingDpReqs.map fun req => Message.generate (DpReq.core req)) ++
            round.recv.map Message.core := by
        rw [List.map_append, List.map_map]
        rfl
      rw [hsplit] at hperm
      have hcat := hperm.append_left (state.dispatched.map Message.core)
      rw [← List.append_assoc _ _ (round.recv.map Message.core)] at hcat
      exact hcat.trans (h.once.append_right _)
    · intro req hreq
      rcases List.mem_append.mp hreq with hold | hnew
      · exact h.ranked req hold
      · exact hready req hnew
    · exact hdeferred
    · intro hforce
      have hsuffix := assignDpRanks_suffix round.env (roundRouter policy state round)
        (state.pendingDpReqs.map .generate ++ round.recv) (by rwa [policy_roundRouter])
      rw [dpSize_roundRouter, unranked_append, unranked_pending h.waiting,
        List.map_append] at hsuffix
      rw [unranked_append, List.map_append]
      obtain ⟨earlier, hearlier⟩ := h.latest hforce
      exact hsuffix.trans ⟨earlier, by rw [← List.append_assoc, hearlier]⟩

/-- Whatever the loads, limits and caches are in each round: no message is lost or let through
twice, a request is let through with a rank that exists, and unless affinity is strict the
requests that name no rank are let through in the order of their arrival. -/
theorem runRounds_kept (policy : DpPolicy) (rounds : List (Round γ dpSize)) (hsize : 0 < dpSize) :
    Kept dpSize policy (received rounds) (runRounds policy rounds) := by
  induction rounds using List.reverseRecOn with
  | nil => exact ⟨.nil, fun _ h => absurd h List.not_mem_nil, fun _ h => absurd h List.not_mem_nil,
      fun _ => List.suffix_rfl⟩
  | append_singleton rounds round ih =>
    unfold received runRounds
    rw [List.flatMap_append, List.flatMap_singleton, List.foldl_concat]
    exact ih.round hsize round

/-- A round with free ranks that receives two requests and a control message. -/
def freeRound : Round Unit 2 where
  recv := [.generate (plainReq 1), .control (), .generate (plainReq 2)]
  snapshot := ⟨zeroLoads 2, [1, 0], sized_zeroLoads 2⟩
  env := plainEnv

theorem freeRound_kept :
    Kept 2 .shapeAware (received [freeRound]) (runRounds .shapeAware [freeRound]) :=
  runRounds_kept .shapeAware [freeRound] Nat.two_pos

/-! ### Ranks in turn -/

/-- The messages with a rank each: the `n`-th request that names none gets rank `n % dpSize`. -/
def turns (dpSize : Nat) : Nat → List (Message γ) → List (Message γ)
  | _, [] => []
  | n, .control c :: rest => .control c :: turns dpSize n rest
  | n, .generate req :: rest =>
    match namedRank dpSize req with
    | some rank => .generate (DpReq.withRank req rank) :: turns dpSize n rest
    | none => .generate (DpReq.withRank req (n % dpSize)) :: turns dpSize (n + 1) rest

theorem turns_append (n : Nat) (messages messages' : List (Message γ)) :
    turns dpSize n (messages ++ messages') =
      turns dpSize n messages ++ turns dpSize (n + (unranked dpSize messages).length) messages' := by
  induction messages generalizing n with
  | nil => rfl
  | cons message rest ih =>
    cases message with
    | control c => exact congrArg _ (ih n)
    | generate req =>
      rw [List.cons_append, turns, turns, unranked]
      cases namedRank dpSize req with
      | some rank => exact congrArg _ (ih n)
      | none =>
        dsimp only
        rw [ih (n + 1), Option.isNone_none, if_pos rfl, List.length_cons, Nat.add_assoc,
          Nat.add_comm 1]
        rfl

theorem assignDpRanks_turns (env : RouterEnv) (router : DpRouter) (messages : List (Message γ))
    (hsize : router.dpSize ≠ 1) (hpolicy : router.policy = .roundRobin) :
    (assignDpRanks env router messages).1.roundRobinCounter =
        router.roundRobinCounter + (unranked router.dpSize messages).length ∧
      (assignDpRanks env router messages).2 =
        (turns router.dpSize router.roundRobinCounter messages, []) := by
  induction messages generalizing router with
  | nil => exact ⟨rfl, rfl⟩
  | cons message rest ih =>
    cases message with
    | control c =>
      obtain ⟨hcounter, hout⟩ := ih router hsize hpolicy
      refine ⟨hcounter, ?_⟩
      change (Message.control c :: (assignDpRanks env router rest).2.1,
        (assignDpRanks env router rest).2.2) = _
      rw [hout]
      rfl
    | generate req =>
      rw [turns, unranked]
      cases hnamed : namedRank router.dpSize req with
      | some rank =>
        have hassign : assign env router req = (some rank, DpReq.withRank req rank, router) := by
          unfold assign
          rw [if_neg hsize, if_pos hpolicy, hnamed]
        obtain ⟨hcounter, hout⟩ := ih router hsize hpolicy
        rw [assignDpRanks_ready hassign, hout]
        exact ⟨hcounter, rfl⟩
      | none =>
        have hassign : assign env router req = (some (router.roundRobinCounter % router.dpSize),
            DpReq.withRank req (router.roundRobinCounter % router.dpSize),
            { router with roundRobinCounter := router.roundRobinCounter + 1 }) := by
          unfold assign
          rw [if_neg hsize, if_pos hpolicy, hnamed]
        obtain ⟨hcounter, hout⟩ :=
          ih { router with roundRobinCounter := router.roundRobinCounter + 1 } hsize hpolicy
        rw [assignDpRanks_ready hassign, hout]
        refine ⟨?_, rfl⟩
        rw [hcounter, Option.isNone_none, if_pos rfl, List.length_cons]
        exact (Nat.add_assoc _ _ _).trans (congrArg _ (Nat.add_comm _ _))

/-- A run in turns is one intake of all that was received; the rounds do not show. -/
theorem runRounds_turns (rounds : List (Round γ dpSize)) (hsize : dpSize ≠ 1) :
    runRounds .roundRobin rounds = ⟨[], (unranked dpSize (received rounds)).length,
      turns dpSize 0 (received rounds)⟩ := by
  induction rounds using List.reverseRecOn with
  | nil => rfl
  | append_singleton rounds round ih =>
    unfold received runRounds at ih ⊢
    rw [List.foldl_concat, ih, List.flatMap_append, List.flatMap_singleton]
    unfold selectDpForRequest
    split
    next hidle =>
      rw [Bool.and_eq_true, List.isEmpty_iff] at hidle
      rw [hidle.1, List.append_nil]
    next =>
      obtain ⟨hcounter, hout⟩ := assignDpRanks_turns round.env (roundRouter .roundRobin
        ⟨[], (unranked dpSize (rounds.flatMap Round.recv)).length,
          turns dpSize 0 (rounds.flatMap Round.recv)⟩ round)
        (([] : List DpReq).map .generate ++ round.recv) (by rwa [dpSize_roundRouter])
        (policy_roundRouter _ _ _)
      have hstart : ∀ state : Intake γ, (roundRouter .roundRobin state round).roundRobinCounter =
          state.roundRobinCounter := by
        intro state
        unfold roundRouter
        split <;> rfl
      dsimp only
      rw [hcounter, hout, hstart, dpSize_roundRouter, List.map_nil, List.nil_append, turns_append,
        unranked_append, List.length_append, Nat.zero_add]

/-- Messages that name no rank and have been let through to `rank`. -/
def takenInTurn (dpSize rank : Nat) (messages dispatched : List (Message γ)) : Nat :=
  (messages.zip dispatched).countP fun pair =>
    (match pair.1 with
      | .generate req => (namedRank dpSize req).isNone
      | .control _ => false) && goesTo rank pair.2

theorem countP_range_succ (p : Nat → Bool) (n : Nat) :
    (List.range (n + 1)).countP p = (if p 0 = true then 1 else 0) +
      (List.range n).countP fun i => p (i + 1) := by
  rw [List.range_succ_eq_map, List.countP_cons, List.countP_map, Nat.add_comm]
  rfl

theorem takenInTurn_turns (rank n : Nat) (messages : List (Message γ)) :
    takenInTurn dpSize rank messages (turns dpSize n messages) =
      (List.range (unranked dpSize messages).length).countP fun i =>
        decide ((n + i) % dpSize = rank) := by
  induction messages generalizing n with
  | nil => rfl
  | cons message rest ih =>
    unfold takenInTurn at ih ⊢
    cases message with
    | control c =>
      rw [turns, List.zip_cons_cons, List.countP_cons_of_neg (by exact Bool.false_ne_true)]
      exact ih n
    | generate req =>
      rw [turns, unranked]
      cases hnamed : namedRank dpSize req with
      | some k =>
        rw [List.zip_cons_cons, List.countP_cons_of_neg (by simp [hnamed])]
        exact ih n
      | none =>
        have hgoes : goesTo rank (Message.generate (γ := γ) (DpReq.withRank req (n % dpSize))) =
            decide (n % dpSize = rank) := by
          unfold goesTo DpReq.withRank
          simp only [Option.some_inj, Int.natCast_inj]
        rw [Option.isNone_none, if_pos rfl, List.length_cons, countP_range_succ, List.zip_cons_cons,
          List.countP_cons, ih (n + 1), Nat.add_comm]
        simp only [hnamed, hgoes, Option.isNone_none, Bool.true_and, Nat.add_zero, Nat.add_assoc,
          Nat.add_comm 1]

theorem countP_range_mod (d r : Nat) (hr : r < d) (n : Nat) :
    (List.range n).countP (fun i => decide (i % d = r)) = n / d + if r < n % d then 1 else 0 := by
  have hcount := Nat.count_modEq_card n (r := d) (Nat.lt_of_le_of_lt (Nat.zero_le r) hr) r
  rw [Nat.mod_eq_of_lt hr] at hcount
  rw [← hcount, Nat.count_eq_card_filter_range, List.countP_eq_length_filter]
  have hset : (Finset.range n).filter (fun i => i ≡ r [MOD d]) =
      ((List.range n).filter fun i => decide (i % d = r)).toFinset := by
    ext i
    rw [Finset.mem_filter, Finset.mem_range, List.mem_toFinset, List.mem_filter, List.mem_range,
      decide_eq_true_iff, Nat.ModEq, Nat.mod_eq_of_lt hr]
  rw [hset, List.toFinset_card_of_nodup (List.nodup_range.filter _)]

/-- Over a whole run in turns nothing waits, and of the requests that name no rank no rank gets
more than one above another, however they fall into rounds. -/
theorem runRounds_turns_even (rounds : List (Round γ dpSize)) (hsize : dpSize ≠ 1) (r r' : Nat)
    (hr : r < dpSize) (hr' : r' < dpSize) :
    (runRounds .roundRobin rounds).pendingDpReqs = [] ∧
      takenInTurn dpSize r (received rounds) (runRounds .roundRobin rounds).dispatched ≤
        takenInTurn dpSize r' (received rounds) (runRounds .roundRobin rounds).dispatched + 1 := by
  rw [runRounds_turns rounds hsize]
  refine ⟨rfl, ?_⟩
  dsimp only
  rw [takenInTurn_turns, takenInTurn_turns]
  simp only [Nat.zero_add]
  rw [countP_range_mod dpSize r hr, countP_range_mod dpSize r' hr']
  split <;> split <;> omega

theorem freeRound_even : takenInTurn 2 0 (received [freeRound, freeRound])
      (runRounds .roundRobin [freeRound, freeRound]).dispatched ≤
    takenInTurn 2 1 (received [freeRound, freeRound])
      (runRounds .roundRobin [freeRound, freeRound]).dispatched + 1 :=
  (runRounds_turns_even [freeRound, freeRound] (by decide) 0 1 Nat.two_pos Nat.one_lt_two).2

end rounds

end SglJax.Managers.DpRouting
