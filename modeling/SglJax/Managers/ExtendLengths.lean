import SglJax.Managers.HostSlots
import SglJax.Managers.RejectedAdmission

/-! The requests that `PrefillAdder` schedules extend by at least one token, and
what they hold fits together. -/
namespace SglJax.Managers

open MemCache

namespace PrefillAdder

variable {τ R Λ : Type}

/-- A call of the adder. -/
inductive AddCall (R : Type) where
  | chunked (req : WaitingReq R)
  | one (req : WaitingReq R)

def AddCall.req : AddCall R → WaitingReq R
  | .chunked req => req
  | .one req => req

variable (cache : AdmissionCache τ R Λ) (a : PrefillAdder τ R)

/-- The adder after a call, unless it raises. -/
def afterCall : AddCall R → Option (PrefillAdder τ R)
  | .chunked req => (addChunkedReq cache a req).map Prod.fst
  | .one req => some (addOneReq cache a req).1

/-- The adder after a sequence of calls. -/
def runCalls (calls : List (AddCall R)) : Option (PrefillAdder τ R) := calls.foldlM (afterCall cache) a

/-- What `init_next_round_input` leaves of a request that has tokens to extend. -/
structure Ready (req : WaitingReq R) : Prop where
  extendInputLen : req.extendInputLen = (req.fillIds.length : Int) - req.prefixIndices.length
  nonempty : req.prefixIndices.length < req.fillIds.length

/-- No multiple of the track interval lies strictly inside of the extend. -/
def Inside (part : WaitingReq R) : Prop :=
  ∀ interval, cache.recurrentTrackInterval = some interval → ∀ k : Nat,
    ¬ (part.prefixIndices.length < k * interval ∧
      ((k * interval : Nat) : Int) < part.prefixIndices.length + part.extendInputLen)

/-- What a scheduled request `part` is of the request `req` that was given. -/
structure Scheduled (req part : WaitingReq R) : Prop where
  nonempty : 1 ≤ part.extendInputLen
  covers : (part.fillIds.length : Int) = part.prefixIndices.length + part.extendInputLen
  fillIds : part.fillIds <+: req.fillIds
  inside : Inside cache part

/-- What the call puts into `can_run_list` is scheduled. -/
def SchedulesWell (call : AddCall R) : Prop :=
  ∀ b, afterCall cache a call = some b → ∀ part,
    b.canRunList call.req.dpRank = a.canRunList call.req.dpRank ++ [part] →
      Scheduled cache call.req part

/-- On the ignore-eos path, the part that the chunk budget lets run. -/
def eosLength (req : WaitingReq R) : Int :=
  a.remChunkTokensList.elim req.extendInputLen fun rem => min req.extendInputLen (rem req.dpRank)

/-- The ignore-eos path cuts `fill_ids` without the prefix and knows no boundary. -/
structure EosSchedules (req : WaitingReq R) : Prop where
  noPrefix : eosLength a req < req.extendInputLen → req.prefixIndices = []
  boundary : ∀ cap, recurrentBoundaryCap cache req.prefixIndices.length = some cap →
    eosLength a req ≤ cap

/-- On the cached path the load leaves a token to extend, or the call is turned away
after it. -/
def LoadLeaves (req : WaitingReq R) : Prop :=
  let p := loadBack cache (locked cache a req) req
  1 ≤ p.2.extendInputLen ∨
    inputBudgetSpent p.1 (ceilPagedTokens a.pageSize p.2.extendInputLen) = true

/-- The condition on a call. -/
def CallSchedules : AddCall R → Prop
  | .chunked req => isHybrid a = true ∨
      ∀ rem, a.remChunkTokensList = some rem → 0 < rem req.dpRank
  | .one req => chunkExhausted a req.dpRank = false →
      if (req.ignoreEos && cache.disable a.tree) = true then
        ignoreEosNoToken cache a req = false → ignoreEosFits cache a req = true →
          EosSchedules cache a req
      else
        rejectsEarly cache a req = none → noToken cache (locked cache a req) req = false →
          chunkTooShort (locked cache a req) req = false → LoadLeaves cache a req

/-! ### Lengths and boundaries -/

variable {cache a} {req part : WaitingReq R}

/-- The first boundary after the prefix is the only one that matters. -/
theorem inside_iff (hinterval : ∀ interval, cache.recurrentTrackInterval = some interval →
    0 < interval) : Inside cache part ↔
      ∀ cap, recurrentBoundaryCap cache part.prefixIndices.length = some cap →
        part.extendInputLen ≤ cap := by
  unfold Inside recurrentBoundaryCap
  cases htrack : cache.recurrentTrackInterval with
  | none => simp
  | some interval =>
    have hpos := hinterval interval htrack
    have hnext : part.prefixIndices.length < (part.prefixIndices.length / interval + 1) * interval :=
      (Nat.div_lt_iff_lt_mul hpos).mp (Nat.lt_succ_self _)
    rw [Option.map_some]
    constructor
    · intro h cap hcap
      cases hcap
      by_contra hlong
      refine h interval rfl (part.prefixIndices.length / interval + 1) ⟨hnext, ?_⟩
      rw [Nat.cast_sub hnext.le] at hlong
      omega
    · rintro h interval' hinterval' k ⟨hafter, hbefore⟩
      cases hinterval'
      have hk : part.prefixIndices.length / interval + 1 ≤ k :=
        (Nat.div_lt_iff_lt_mul hpos).mpr hafter
      have hfirst := Nat.mul_le_mul_right interval hk
      have hcap := h _ rfl
      rw [Nat.cast_sub hnext.le] at hcap
      omega

/-- A request cut to `n` of its tokens, with the prefix kept. -/
theorem scheduled_iff (hinterval : ∀ interval, cache.recurrentTrackInterval = some interval →
    0 < interval) (hfill : part.fillIds <+: req.fillIds)
    (hcovers : 1 ≤ part.extendInputLen →
      (part.fillIds.length : Int) = part.prefixIndices.length + part.extendInputLen) :
    Scheduled cache req part ↔ 1 ≤ part.extendInputLen ∧
      ∀ cap, recurrentBoundaryCap cache part.prefixIndices.length = some cap →
        part.extendInputLen ≤ cap := by
  rw [← inside_iff hinterval]
  constructor
  · exact fun h => ⟨h.nonempty, h.inside⟩
  · exact fun h => ⟨h.1, hcovers h.1, hfill, h.2⟩

/-! ### What is placed -/

/-- One request is placed, so it alone decides. -/
theorem placed_iff {lists : Nat → List (WaitingReq R)} {dpRank : Nat} (P : WaitingReq R → Prop) :
    (∀ q, Function.update lists dpRank (lists dpRank ++ [part]) dpRank = lists dpRank ++ [q] →
      P q) ↔ P part := by
  rw [Function.update_self]
  constructor
  · exact fun h => h part rfl
  · intro h q hq
    have heq := List.append_cancel_left hq
    cases heq
    exact h

/-- Nothing is placed. -/
theorem not_placed {lists : Nat → List (WaitingReq R)} {dpRank : Nat} (P : WaitingReq R → Prop) :
    ∀ q, lists dpRank = lists dpRank ++ [q] → P q := by
  intro q hq
  have hlen := congrArg List.length hq
  simp at hlen

/-! ### `add_chunked_req` -/

theorem chunkRemTokens_le (cache : AdmissionCache τ R Λ) (a : PrefillAdder τ R)
    (req : WaitingReq R) (rem : Nat → Int) : chunkRemTokens cache a req rem ≤ rem req.dpRank := by
  unfold chunkRemTokens
  dsimp only
  split
  · exact (min_le_left _ _).trans (min_le_left _ _)
  · exact min_le_left _ _

theorem recurrentBoundaryCap_pos (hinterval : ∀ interval,
    cache.recurrentTrackInterval = some interval → 0 < interval) {prefixLen cap : Nat}
    (h : recurrentBoundaryCap cache prefixLen = some cap) : 0 < cap := by
  obtain ⟨interval, htrack, rfl⟩ := Option.map_eq_some_iff.mp h
  exact Nat.sub_pos_of_lt
    ((Nat.div_lt_iff_lt_mul (hinterval interval htrack)).mp (Nat.lt_succ_self _))

theorem length_upTo {xs : List Nat} {stop : Int} (hstop : 0 ≤ stop) (hle : stop ≤ xs.length) :
    ((upTo xs stop).length : Int) = stop := by
  rw [upTo, if_neg (not_lt.mpr hstop), List.length_take, Nat.min_eq_left (by omega)]
  omega

/-- The cap at the boundary leaves a token when there was one. -/
theorem capped_spec (cache : AdmissionCache τ R Λ) (hinterval : ∀ interval,
    cache.recurrentTrackInterval = some interval → 0 < interval) (left : Int) (prefixLen : Nat) :
    (1 ≤ (recurrentBoundaryCap cache prefixLen).elim left (min left ·) ↔ 1 ≤ left) ∧
      ∀ cap, recurrentBoundaryCap cache prefixLen = some cap →
        (recurrentBoundaryCap cache prefixLen).elim left (min left ·) ≤ cap := by
  cases hcap : recurrentBoundaryCap cache prefixLen with
  | none => exact ⟨.rfl, fun cap h => by cases h⟩
  | some cap =>
    have hpos := recurrentBoundaryCap_pos hinterval hcap
    rw [Option.elim_some]
    refine ⟨by omega, ?_⟩
    intro cap' h
    cases h
    exact min_le_right _ _

theorem chunked_schedules_iff (hinterval : ∀ interval,
    cache.recurrentTrackInterval = some interval → 0 < interval) (hready : Ready req) :
    SchedulesWell cache a (.chunked req) ↔ CallSchedules cache a (.chunked req) := by
  unfold SchedulesWell afterCall CallSchedules addChunkedReq AddCall.req
  dsimp only
  cases hrem : a.remChunkTokensList with
  | none => simp
  | some rem =>
    have hle := chunkRemTokens_le cache a req rem
    dsimp only
    by_cases hrefused : chunkRemTokens cache a req rem ≤ 0 ∧ isHybrid a = true
    · rw [if_pos hrefused]
      refine iff_of_true ?_ (.inl hrefused.2)
      intro b hb
      cases hb
      exact not_placed _
    · rw [if_neg hrefused]
      simp only [Option.map_some, Option.some.injEq, forall_eq']
      refine (placed_iff _).trans ?_
      have hextend := hready.extendInputLen
      have hnonempty := hready.nonempty
      generalize hleft : (if chunkRemTokens cache a req rem ≤ 0 then rem req.dpRank
        else chunkRemTokens cache a req rem) = left
      obtain ⟨hone, hcap⟩ := capped_spec cache hinterval left req.prefixIndices.length
      rw [scheduled_iff hinterval (List.take_prefix _ _)]
      · dsimp only
        have hwithin : ∀ cap, recurrentBoundaryCap cache req.prefixIndices.length = some cap →
            min req.extendInputLen ((recurrentBoundaryCap cache req.prefixIndices.length).elim left
              (min left ·)) ≤ cap := fun cap h => (min_le_right _ _).trans (hcap cap h)
        rw [and_iff_left hwithin, le_min_iff, hone, and_iff_right (by omega), ← hleft]
        split
        · rename_i hnone
          have hplain : ¬ isHybrid a = true := fun h => hrefused ⟨hnone, h⟩
          rw [or_iff_right hplain]
          rfl
        · exact iff_of_true (by omega) (.inr (by omega))
      · intro hsome
        dsimp only at hsome ⊢
        rw [length_upTo (by omega) (by omega)]

/-! ### The ignore-eos path -/

/-- The request as the ignore-eos path admits it: whole, or cut at the chunk budget. -/
def eosPart (a : PrefillAdder τ R) (req : WaitingReq R) : WaitingReq R :=
  if eosLength a req < req.extendInputLen then
    { req with
      extendInputLen := eosLength a req
      fillIds := req.fillIds.take (eosLength a req).toNat }
  else req

theorem ignoreEosAdmit_places (cache : AdmissionCache τ R Λ)
    (hbudget : chunkExhausted a req.dpRank = false) :
    (ignoreEosAdmit cache a req).1.canRunList =
      Function.update a.canRunList req.dpRank (a.canRunList req.dpRank ++ [eosPart a req]) := by
  unfold ignoreEosAdmit eosPart eosLength
  unfold chunkExhausted at hbudget
  dsimp only
  cases hrem : a.remChunkTokensList with
  | none =>
    rw [Option.elim_none, if_neg (lt_irrefl _)]
    rfl
  | some rem =>
    rw [hrem, Option.any_some, decide_eq_false_iff_not] at hbudget
    rw [Option.elim_some]
    dsimp only
    by_cases hwhole : req.extendInputLen ≤ rem req.dpRank
    · rw [if_pos hwhole, min_eq_left hwhole, if_neg (lt_irrefl _)]
      rfl
    · rw [if_neg hwhole, if_neg hbudget, min_eq_right (not_le.mp hwhole).le,
        if_pos (not_le.mp hwhole)]
      rfl

theorem eosPart_scheduled_iff (hinterval : ∀ interval,
    cache.recurrentTrackInterval = some interval → 0 < interval) (hready : Ready req)
    (hbudget : chunkExhausted a req.dpRank = false) :
    Scheduled cache req (eosPart a req) ↔ EosSchedules cache a req := by
  have hextend := hready.extendInputLen
  have hnonempty := hready.nonempty
  have hpos : 1 ≤ eosLength a req := by
    unfold chunkExhausted at hbudget
    unfold eosLength
    cases hrem : a.remChunkTokensList with
    | none =>
      rw [Option.elim_none]
      omega
    | some rem =>
      rw [hrem, Option.any_some, decide_eq_false_iff_not] at hbudget
      rw [Option.elim_some]
      omega
  have hle : eosLength a req ≤ req.extendInputLen := by
    unfold eosLength
    cases a.remChunkTokensList with
    | none => exact le_rfl
    | some rem => exact min_le_left _ _
  unfold eosPart
  by_cases hcut : eosLength a req < req.extendInputLen
  · rw [if_pos hcut]
    have hlen : ((req.fillIds.take (eosLength a req).toNat).length : Int) = eosLength a req := by
      rw [List.length_take, Nat.min_eq_left (by omega)]
      omega
    constructor
    · intro h
      refine ⟨fun _ => ?_, (inside_iff hinterval).mp h.inside⟩
      have hcovers := h.covers
      dsimp only at hcovers
      rw [hlen] at hcovers
      exact List.length_eq_zero_iff.mp (by omega)
    · intro h
      have hnone := h.noPrefix hcut
      refine ⟨hpos, ?_, List.take_prefix _ _, (inside_iff hinterval).mpr h.boundary⟩
      dsimp only
      rw [hlen, hnone]
      simp
  · rw [if_neg hcut]
    have hwhole : eosLength a req = req.extendInputLen := le_antisymm hle (not_lt.mp hcut)
    rw [scheduled_iff hinterval List.prefix_rfl (fun _ => by omega), and_iff_right (by omega)]
    constructor
    · intro h
      exact ⟨fun hlt => absurd hlt hcut, fun cap hcap => hwhole ▸ h cap hcap⟩
    · intro h cap hcap
      exact hwhole ▸ h.boundary cap hcap

theorem eos_schedules_iff (hinterval : ∀ interval,
    cache.recurrentTrackInterval = some interval → 0 < interval) (hready : Ready req)
    (hbudget : chunkExhausted a req.dpRank = false) :
    (∀ part, (addOneReqIgnoreEos cache a req).1.canRunList req.dpRank =
        a.canRunList req.dpRank ++ [part] → Scheduled cache req part) ↔
      (ignoreEosNoToken cache a req = false → ignoreEosFits cache a req = true →
        EosSchedules cache a req) := by
  let b := { a with
    reqStates := Function.update a.reqStates req.dpRank (some (reqStatesWith a req)) }
  have hplaces : (ignoreEosAdmit cache b req).1.canRunList =
      Function.update a.canRunList req.dpRank (a.canRunList req.dpRank ++ [eosPart a req]) :=
    ignoreEosAdmit_places (a := b) cache hbudget
  unfold addOneReqIgnoreEos
  dsimp only
  cases hnone : ignoreEosNoToken cache a req with
  | true =>
    rw [if_pos rfl]
    exact iff_of_true (not_placed _) fun h => by cases h
  | false =>
    rw [if_neg (by simp)]
    by_cases hfits : ignoreEosFits cache a req = true
    · rw [if_pos hfits, hplaces]
      exact (placed_iff _).trans ((eosPart_scheduled_iff hinterval hready hbudget).trans
        ⟨fun h _ _ => h, fun h => h rfl hfits⟩)
    · rw [if_neg hfits]
      exact iff_of_true (not_placed _) fun _ h => absurd h hfits

/-! ### The cached path -/

/-- What the load leaves of the adder and the request. -/
structure LoadedReq (a b : PrefillAdder τ R) (req r : WaitingReq R) : Prop where
  canRunList : b.canRunList = a.canRunList
  pageSize : b.pageSize = a.pageSize
  budgets : b.remChunkTokensList = a.remChunkTokensList
  dpRank : r.dpRank = req.dpRank
  fillIds : r.fillIds = req.fillIds
  extendInputLen : r.extendInputLen = (r.fillIds.length : Int) - r.prefixIndices.length

theorem loadBack_loaded (cache : AdmissionCache τ R Λ) (a : PrefillAdder τ R)
    (hextend : req.extendInputLen = (req.fillIds.length : Int) - req.prefixIndices.length) :
    LoadedReq a (loadBack cache (locked cache a req) req).1 req
      (loadBack cache (locked cache a req) req).2 := by
  unfold loadBack
  split
  · dsimp only
    split
    · exact ⟨rfl, rfl, rfl, rfl, rfl, hextend⟩
    · exact ⟨rfl, rfl, rfl, rfl, rfl, rfl⟩
  · exact ⟨rfl, rfl, rfl, rfl, rfl, hextend⟩

/-- The request after the cut at the boundary. -/
structure Capped (cache : AdmissionCache τ R Λ) (req r : WaitingReq R) : Prop where
  dpRank : r.dpRank = req.dpRank
  prefixIndices : r.prefixIndices = req.prefixIndices
  fillIds : r.fillIds <+: req.fillIds
  covers : 1 ≤ req.extendInputLen →
    (r.fillIds.length : Int) = r.prefixIndices.length + r.extendInputLen
  pos : 1 ≤ r.extendInputLen ↔ 1 ≤ req.extendInputLen
  within : ∀ cap, recurrentBoundaryCap cache r.prefixIndices.length = some cap →
    r.extendInputLen ≤ cap
  same : req.extendInputLen < 1 → r.extendInputLen = req.extendInputLen

theorem capAtBoundary_capped (hinterval : ∀ interval,
    cache.recurrentTrackInterval = some interval → 0 < interval)
    (hextend : req.extendInputLen = (req.fillIds.length : Int) - req.prefixIndices.length) :
    Capped cache req (capAtBoundary cache
      { req with lastMatchedPrefixLen := req.prefixIndices.length }) := by
  unfold capAtBoundary
  dsimp only
  cases hcap : recurrentBoundaryCap cache req.prefixIndices.length with
  | none =>
    refine ⟨rfl, rfl, List.prefix_rfl, fun _ => ?_, .rfl, ?_, fun _ => rfl⟩
    · dsimp only
      omega
    · intro cap h
      exact absurd (hcap.symm.trans h) (by simp)
  | some cap =>
    have hpos := recurrentBoundaryCap_pos hinterval hcap
    dsimp only
    have hcapEq : ∀ cap', recurrentBoundaryCap cache req.prefixIndices.length = some cap' →
        cap' = cap := fun cap' h => Option.some.inj (h.symm.trans hcap)
    split
    · refine ⟨rfl, rfl, List.take_prefix _ _, fun _ => ?_, ?_, ?_, ?_⟩
      · dsimp only
        rw [List.length_take, Nat.min_eq_left (by omega)]
        omega
      · dsimp only
        omega
      · intro cap' h
        rw [hcapEq cap' h]
      · intro hsmall
        omega
    · rename_i hshort
      refine ⟨rfl, rfl, List.prefix_rfl, fun _ => ?_, .rfl, ?_, fun _ => rfl⟩
      · dsimp only
        omega
      · intro cap' h
        rw [hcapEq cap' h]
        exact not_lt.mp hshort

theorem ceilPagedTokens_nonpos {pageSize : Nat} {tokens : Int} (h : tokens ≤ 0) :
    ceilPagedTokens pageSize tokens ≤ 0 := by
  unfold ceilPagedTokens
  have hdiv : 0 ≤ -tokens / (pageSize : Int) :=
    Int.ediv_nonneg (by omega) (Int.natCast_nonneg _)
  exact mul_nonpos_of_nonpos_of_nonneg (by omega) (Int.natCast_nonneg _)

/-- A whole number of pages below the rounded length is below the length. -/
theorem lt_of_floor {pageSize : Nat} {left tokens : Int}
    (hlong : left < ceilPagedTokens pageSize tokens)
    (hpages : 0 < left / pageSize * pageSize) : left / pageSize * pageSize < tokens := by
  unfold ceilPagedTokens at hlong
  have hpos : (0 : Int) < pageSize := by
    rcases (Int.natCast_nonneg pageSize).eq_or_lt with hzero | hpos
    · rw [← hzero, mul_zero] at hpages
      exact absurd hpages (lt_irrefl _)
    · exact hpos
  have hfloor : left / pageSize < -(-tokens / (pageSize : Int)) := by
    rw [Int.ediv_lt_iff_lt_mul hpos]
    exact hlong
  have hceil : -tokens < (-tokens / (pageSize : Int) + 1) * pageSize :=
    (Int.ediv_lt_iff_lt_mul hpos).mp (lt_add_one _)
  have hstep : (left / (pageSize : Int) + 1) * pageSize ≤ -(-tokens / (pageSize : Int)) * pageSize :=
    mul_le_mul_of_nonneg_right (by omega) hpos.le
  rw [add_mul, one_mul] at hstep hceil
  rw [neg_mul] at hstep
  omega

theorem appendLocked_places (cache : AdmissionCache τ R Λ) (a : PrefillAdder τ R)
    (req : WaitingReq R) (chunked : Bool) (extendInputLen : Int) (maxNewTokens : Nat) :
    (appendLocked cache a req chunked extendInputLen maxNewTokens).1.canRunList =
      Function.update a.canRunList req.dpRank (a.canRunList req.dpRank ++
        [{ req with lockParams := some (cache.incLockRef a.tree req.lastNode).2 }]) := rfl

theorem scheduled_lockParams_iff (receipt : R) :
    Scheduled cache req { part with lockParams := some receipt } ↔ Scheduled cache req part :=
  ⟨fun h => ⟨h.nonempty, h.covers, h.fillIds, h.inside⟩,
    fun h => ⟨h.nonempty, h.covers, h.fillIds, h.inside⟩⟩

theorem admitLoaded_schedules_iff (hinterval : ∀ interval,
    cache.recurrentTrackInterval = some interval → 0 < interval) {r : WaitingReq R}
    (hbudget : chunkExhausted a r.dpRank = false) (hfill : r.fillIds = req.fillIds)
    (hextend : r.extendInputLen = (r.fillIds.length : Int) - r.prefixIndices.length) :
    (∀ part, (admitLoaded cache a r).1.canRunList r.dpRank = a.canRunList r.dpRank ++ [part] →
        Scheduled cache req part) ↔
      (1 ≤ r.extendInputLen ∨
        inputBudgetSpent a (ceilPagedTokens a.pageSize r.extendInputLen) = true) := by
  have hcapped := capAtBoundary_capped hinterval hextend
  unfold admitLoaded
  dsimp only
  generalize capAtBoundary cache
    { r with lastMatchedPrefixLen := r.prefixIndices.length } = c at hcapped ⊢
  have hprefix : c.fillIds <+: req.fillIds := hfill ▸ hcapped.fillIds
  -- A request that is placed as it was cut.
  have hwhole (hunspent : ¬ inputBudgetSpent a (ceilPagedTokens a.pageSize c.extendInputLen) = true) :
      Scheduled cache req c ↔ (1 ≤ r.extendInputLen ∨
        inputBudgetSpent a (ceilPagedTokens a.pageSize r.extendInputLen) = true) := by
    rw [scheduled_iff hinterval hprefix fun h => hcapped.covers (hcapped.pos.mp h),
      and_iff_left hcapped.within, hcapped.pos]
    constructor
    · exact .inl
    · rintro (h | hspent)
      · exact h
      · by_contra hsmall
        rw [hcapped.same (not_le.mp hsmall)] at hunspent
        exact hunspent hspent
  by_cases hspent : inputBudgetSpent a (ceilPagedTokens a.pageSize c.extendInputLen) = true
  · rw [if_pos hspent]
    refine iff_of_true (not_placed _) ?_
    by_cases hsmall : r.extendInputLen < 1
    · rw [hcapped.same hsmall] at hspent
      exact .inr hspent
    · exact .inl (not_lt.mp hsmall)
  · rw [if_neg hspent, ← hcapped.dpRank]
    unfold chunkExhausted at hbudget
    cases hrem : a.remChunkTokensList with
    | none =>
      exact (placed_iff _).trans ((scheduled_lockParams_iff _).trans (hwhole hspent))
    | some rem =>
      rw [hrem, Option.any_some, decide_eq_false_iff_not, ← hcapped.dpRank] at hbudget
      dsimp only
      by_cases hfits : ceilPagedTokens a.pageSize c.extendInputLen ≤ rem c.dpRank
      · rw [if_pos hfits]
        exact (placed_iff _).trans ((scheduled_lockParams_iff _).trans (hwhole hspent))
      · rw [if_neg hfits]
        have hsome : 1 ≤ c.extendInputLen := by
          by_contra hsmall
          have hnone : ceilPagedTokens a.pageSize c.extendInputLen ≤ 0 :=
            ceilPagedTokens_nonpos (by omega)
          omega
        have hcovers := hcapped.covers (hcapped.pos.mp hsome)
        by_cases hshort : rem c.dpRank / (a.pageSize : Int) * a.pageSize ≤ 0
        · rw [if_pos hshort]
          exact iff_of_true (not_placed _) (.inl (hcapped.pos.mp hsome))
        · rw [if_neg hshort]
          refine iff_of_true ((placed_iff _).mpr ((scheduled_lockParams_iff _).mpr ?_))
            (.inl (hcapped.pos.mp hsome))
          have hbelow := lt_of_floor (not_le.mp hfits) (not_le.mp hshort)
          rw [scheduled_iff hinterval ((List.take_prefix _ _).trans hprefix)]
          · refine ⟨by dsimp only; omega, fun cap hcap => ?_⟩
            exact hbelow.le.trans (hcapped.within cap hcap)
          · intro _
            dsimp only
            rw [List.length_take, Nat.min_eq_left (by omega)]
            omega

theorem cached_schedules_iff (hinterval : ∀ interval,
    cache.recurrentTrackInterval = some interval → 0 < interval) (hready : Ready req)
    (hbudget : chunkExhausted a req.dpRank = false) :
    (∀ part, (addLocked cache (locked cache a req) req).1.canRunList req.dpRank =
        a.canRunList req.dpRank ++ [part] → Scheduled cache req part) ↔
      (noToken cache (locked cache a req) req = false →
        chunkTooShort (locked cache a req) req = false → LoadLeaves cache a req) := by
  have hloaded := loadBack_loaded cache a hready.extendInputLen
  unfold addLocked LoadLeaves
  dsimp only
  cases hnone : noToken cache (locked cache a req) req with
  | true =>
    rw [if_pos rfl]
    exact iff_of_true (not_placed _) fun h => by cases h
  | false =>
    rw [if_neg (by simp)]
    cases hshort : chunkTooShort (locked cache a req) req with
    | true =>
      rw [if_pos rfl]
      exact iff_of_true (not_placed _) fun _ h => by cases h
    | false =>
      rw [if_neg (by simp)]
      have hbudget' : chunkExhausted (loadBack cache (locked cache a req) req).1
          (loadBack cache (locked cache a req) req).2.dpRank = false := by
        unfold chunkExhausted at hbudget ⊢
        rw [hloaded.budgets, hloaded.dpRank]
        exact hbudget
      have hadmits := admitLoaded_schedules_iff hinterval hbudget' hloaded.fillIds
        hloaded.extendInputLen
      rw [hloaded.dpRank, hloaded.canRunList, hloaded.pageSize] at hadmits
      exact hadmits.trans ⟨fun h _ _ => h, fun h => h rfl rfl⟩

/-! ### Every call -/

theorem one_schedules_iff (hinterval : ∀ interval,
    cache.recurrentTrackInterval = some interval → 0 < interval) (hready : Ready req) :
    SchedulesWell cache a (.one req) ↔ CallSchedules cache a (.one req) := by
  unfold SchedulesWell afterCall CallSchedules AddCall.req
  simp only [Option.some.injEq, forall_eq']
  cases hbudget : chunkExhausted a req.dpRank with
  | true =>
    have hrefused : (addOneReq cache a req).1 = a := by
      unfold addOneReq
      rw [if_pos hbudget]
    rw [hrefused]
    exact iff_of_true (not_placed _) fun h => by cases h
  | false =>
    by_cases hpath : (req.ignoreEos && cache.disable a.tree) = true
    · have heos : addOneReq cache a req = addOneReqIgnoreEos cache a req := by
        unfold addOneReq
        rw [if_neg (by simp [hbudget]), if_pos hpath]
      rw [heos, if_pos hpath, eos_schedules_iff hinterval hready hbudget]
      exact ⟨fun h _ => h, fun h => h rfl⟩
    · rw [if_neg hpath]
      rw [Bool.not_eq_true] at hpath
      cases hearly : rejectsEarly cache a req with
      | some result =>
        have hrefused : (addOneReq cache a req).1 = a := by
          unfold addOneReq
          rw [if_neg (by simp [hbudget]), if_neg (by simp [hpath]), hearly]
        rw [hrefused]
        exact iff_of_true (not_placed _) fun _ h => by cases h
      | none =>
        rw [(addOneReq_cached hbudget hpath hearly).1]
        exact (cached_schedules_iff hinterval hready hbudget).trans
          ⟨fun h _ _ => h, fun h => h rfl rfl⟩

theorem schedulesWell_iff (hinterval : ∀ interval,
    cache.recurrentTrackInterval = some interval → 0 < interval) {call : AddCall R}
    (hready : Ready call.req) : SchedulesWell cache a call ↔ CallSchedules cache a call := by
  cases call with
  | chunked req => exact chunked_schedules_iff hinterval hready
  | one req => exact one_schedules_iff hinterval hready

/-- Over a sequence of calls, every request that is placed is scheduled exactly when
every call meets its condition. -/
theorem extends_scheduled_iff (cache : AdmissionCache τ R Λ) (hinterval : ∀ interval,
    cache.recurrentTrackInterval = some interval → 0 < interval) (a : PrefillAdder τ R)
    (calls : List (AddCall R)) (hready : ∀ call ∈ calls, Ready call.req) :
    (∀ before call b, before ++ [call] <+: calls → runCalls cache a before = some b →
        SchedulesWell cache b call) ↔
      ∀ before call b, before ++ [call] <+: calls → runCalls cache a before = some b →
        CallSchedules cache b call := by
  have hcalls {before : List (AddCall R)} {call : AddCall R} (h : before ++ [call] <+: calls) :
      Ready call.req := hready call (h.subset (by simp))
  constructor
  · intro h before call b hcall hrun
    exact (schedulesWell_iff hinterval (hcalls hcall)).mp (h before call b hcall hrun)
  · intro h before call b hcall hrun
    exact (schedulesWell_iff hinterval (hcalls hcall)).mpr (h before call b hcall hrun)

/-! Four running requests take the whole chunk budget of four tokens, and six tokens
of a chunked request are left. -/

def mixedAdder : PrefillAdder RadixCache Unit :=
  { tightAdder with
    remInputTokens := 996
    remChunkTokens := some 4
    remChunkTokensList := some fun _ => 0
    remTotalTokenOffset := fun _ => 4
    curRemTokenOffset := fun _ => 4 }

def chunkedReq : WaitingReq Unit :=
  { longReq with
    originInputLen := 10
    fillIds := List.range 10
    prefixIndices := [1, 2, 3, 4]
    extendInputLen := 6 }

theorem chunkedReq_ready : Ready chunkedReq := ⟨by decide, by decide⟩

/-- The chunked request is placed with nothing to extend. -/
theorem chunkedReq_placed_empty :
    (addChunkedReq radixAdmission mixedAdder chunkedReq).map
        (fun p => (p.1.canRunList 0).map WaitingReq.extendInputLen) = some [0] ∧
      ¬ ∀ before call b, before ++ [call] <+: [AddCall.chunked chunkedReq] →
        runCalls radixAdmission mixedAdder before = some b →
          SchedulesWell radixAdmission b call := by
  have hplaced : (addChunkedReq radixAdmission mixedAdder chunkedReq).map
      (fun p => (p.1.canRunList 0).map WaitingReq.extendInputLen) = some [0] := by
    decide +kernel
  refine ⟨hplaced, fun h => ?_⟩
  have hwell := h [] (.chunked chunkedReq) mixedAdder List.prefix_rfl rfl
  obtain ⟨p, hout, hlengths⟩ := Option.map_eq_some_iff.mp hplaced
  obtain ⟨part, hlist, hpart⟩ := List.map_eq_singleton_iff.mp hlengths
  have hscheduled := hwell p.1 (by rw [afterCall, hout, Option.map_some]) part hlist
  have := hscheduled.nonempty
  omega

def fiveLeft : WaitingReq Unit := { longReq with maxNewTokens := 5 }

theorem fiveLeft_scheduled :
    (addOneReq radixAdmission tightAdder fiveLeft).1.canRunList 0 = [fiveLeft] ∧
      ∀ before call b, before ++ [call] <+: [AddCall.one fiveLeft] →
        runCalls radixAdmission tightAdder before = some b →
          SchedulesWell radixAdmission b call := by
  refine ⟨by decide +kernel, ?_⟩
  apply (extends_scheduled_iff radixAdmission (fun _ h => by cases h) tightAdder _ ?_).mpr
  · rintro (_ | ⟨first, rest⟩) call b hcall hrun
    · obtain ⟨rfl, -⟩ := List.cons_prefix_cons.mp hcall
      cases hrun
      intro _ _ _
      exact ⟨fun h => absurd h (lt_irrefl _), fun cap h => by cases h⟩
    · have hlen := hcall.length_le
      simp at hlen
  · intro call hcall
    rw [List.mem_singleton.mp hcall]
    exact ⟨by decide, by decide⟩

end PrefillAdder
end SglJax.Managers
