import Mathlib.Data.List.MinMax
import Mathlib.Data.Prod.Lex
import Mathlib.Order.Lattice.Nat
import SglJax.Foundation.PyText

/-! The choice of a data-parallel rank for one request. -/
namespace SglJax.Managers

/-- What the router reads of a `TokenizedGenerateReqInput`; `ident` is the identity of the
object. -/
structure DpReq where
  ident : Nat
  inputIds : List Nat
  radixInputIds : List Nat
  extraKey : Option Text
  loraId : Option Text
  returnLogprob : Bool
  logprobStartLen : Option Int
  maxNewTokens : Option (Option Int)
  ignoreEos : Bool
  dpRank : Option Int
deriving DecidableEq, Repr

namespace DpRouting

def balanceAbs : Nat := 32

/-- `max_load > min_load * BALANCE_REL` with `BALANCE_REL = 1.1`; the nearest double is above
`1.1`, so that no rounding changes the comparison of integers. -/
def exceedsBalanceRel (maxLoad minLoad : Nat) : Bool := decide (11 * minLoad < 10 * maxLoad)

/-- `match_len / prompt_len > CACHE_THRESHOLD` with `CACHE_THRESHOLD = 0.5` -/
def exceedsCacheThreshold (matchLen promptLen : Nat) : Bool := decide (promptLen < 2 * matchLen)

def reqPrefixMatchKey (req : DpReq) : Option (List Nat) × Option Text :=
  if req.radixInputIds.isEmpty then (none, none)
  else
    let extraKey := match req.loraId with
      | none => req.extraKey
      | some loraId => some (req.extraKey.getD [] ++ loraId)
    let full : Int := (req.radixInputIds.length : Int) - 1
    let maxPrefixLen :=
      if req.returnLogprob then
        let start := match req.logprobStartLen with
          | none => full
          | some start => if start = -1 then full else start
        min full start
      else full
    let maxPrefixLen := max maxPrefixLen 0
    if maxPrefixLen = 0 then (none, none)
    else (some (req.radixInputIds.take maxPrefixLen.toNat), extraKey)

/-- The load of the ranks: requests, input tokens and output tokens of each. -/
structure Loads where
  requestCounts : List Nat
  inputTokens : List Nat
  outputTokens : List Nat
deriving DecidableEq, Repr

namespace Loads

variable (loads : Loads)

def count (rank : Nat) : Nat := loads.requestCounts.getD rank 0

def input (rank : Nat) : Nat := loads.inputTokens.getD rank 0

def output (rank : Nat) : Nat := loads.outputTokens.getD rank 0

def tokens (rank : Nat) : Nat := loads.input rank + loads.output rank

end Loads

/-- `(counts[r], token_counts[r], r)` -/
def loadKey (loads : Loads) (rank : Nat) : Nat ×ₗ Nat ×ₗ Nat :=
  toLex (loads.count rank, toLex (loads.tokens rank, rank))

def leastLoaded (loads : Loads) (ranks : List Nat) : Option Nat := ranks.argmin (loadKey loads)

/-- The larger of the two loads of a rank after it has taken the request, then their sum. -/
def score (loads : Loads) (itemInput itemOutput rank : Nat) : Nat ×ₗ Nat ×ₗ Nat :=
  let afterIn := loads.input rank + itemInput
  let afterOut := loads.output rank + itemOutput
  toLex (max afterIn afterOut, toLex (afterIn + afterOut, rank))

def pickShapeAwareDp (eligible : List Nat) (loads : Loads) (itemInput itemOutput : Nat) :
    Option Nat :=
  eligible.argmin (score loads itemInput itemOutput)

def maxLoad (loads : Loads) (eligible : List Nat) : Nat := (eligible.map loads.count).foldl max 0

/-- `min(loads)` for a list that is not empty. -/
def minLoad (loads : Loads) : List Nat → Nat
  | [] => 0
  | rank :: ranks => (ranks.map loads.count).foldl min (loads.count rank)

/-- The ranks whose cached prefix covers more than half of the prompt. -/
def holders (eligible : List Nat) (lookup : Nat → Nat) (promptLen : Nat) : List Nat :=
  if 0 < promptLen then eligible.filter fun rank => exceedsCacheThreshold (lookup rank) promptLen
  else []

def pickCacheAwareDp (eligible : List Nat) (loads : Loads) (lookup : Nat → Nat) (promptLen : Nat)
    (itemInput itemOutput : Nat) : Option Nat :=
  if eligible.isEmpty then none
  else if balanceAbs < maxLoad loads eligible - minLoad loads eligible ∧
      exceedsBalanceRel (maxLoad loads eligible) (minLoad loads eligible) = true then
    leastLoaded loads eligible
  else if (holders eligible lookup promptLen).isEmpty then
    pickShapeAwareDp eligible loads itemInput itemOutput
  else leastLoaded loads (holders eligible lookup promptLen)

/-- `max(matches.values(), default=0)` -/
def bestMatch (lookup : Nat → Nat) (probed : List Nat) : Nat := (probed.map lookup).foldl max 0

def pickForceCacheAwareDp (eligible : List Nat) (loads : Loads) (lookup : Nat → Nat)
    (probed : List Nat) (promptLen : Nat) (itemInput itemOutput : Nat) : Option Nat :=
  if eligible.isEmpty then none
  else if 0 < promptLen ∧ 0 < bestMatch lookup probed then
    leastLoaded loads (eligible.filter fun rank => lookup rank = bestMatch lookup probed)
  else pickShapeAwareDp eligible loads itemInput itemOutput

/-! ### What a choice promises -/

section choice

variable {eligible : List Nat} {loads : Loads} {lookup : Nat → Nat} {probed : List Nat}
  {promptLen itemInput itemOutput rank : Nat}

theorem leastLoaded_spec (h : leastLoaded loads eligible = some rank) :
    rank ∈ eligible ∧ ∀ r ∈ eligible, loads.count rank ≤ loads.count r := by
  refine ⟨List.argmin_mem h, fun r hr => ?_⟩
  have hle := List.le_of_mem_argmin hr h
  rcases Prod.Lex.le_iff.mp hle with hlt | ⟨heq, -⟩
  · exact le_of_lt hlt
  · exact le_of_eq heq

theorem pickShapeAwareDp_spec
    (h : pickShapeAwareDp eligible loads itemInput itemOutput = some rank) :
    rank ∈ eligible ∧ ∀ r ∈ eligible,
      max (loads.input rank + itemInput) (loads.output rank + itemOutput) ≤
        max (loads.input r + itemInput) (loads.output r + itemOutput) := by
  refine ⟨List.argmin_mem h, fun r hr => ?_⟩
  have hle := List.le_of_mem_argmin hr h
  rcases Prod.Lex.le_iff.mp hle with hlt | ⟨heq, -⟩
  · exact le_of_lt hlt
  · exact le_of_eq heq

theorem le_foldl_max (l : List Nat) (start : Nat) :
    start ≤ l.foldl max start ∧ ∀ n ∈ l, n ≤ l.foldl max start := by
  induction l generalizing start with
  | nil => simp
  | cons m l ih =>
    obtain ⟨hstart, hall⟩ := ih (max start m)
    rw [List.foldl_cons]
    refine ⟨(le_max_left start m).trans hstart, fun n hn => ?_⟩
    rcases List.mem_cons.mp hn with rfl | hn
    · exact (le_max_right start n).trans hstart
    · exact hall n hn

theorem foldl_min_le (l : List Nat) (start : Nat) :
    l.foldl min start ≤ start ∧ ∀ n ∈ l, l.foldl min start ≤ n := by
  induction l generalizing start with
  | nil => simp
  | cons m l ih =>
    obtain ⟨hstart, hall⟩ := ih (min start m)
    rw [List.foldl_cons]
    refine ⟨hstart.trans (min_le_left start m), fun n hn => ?_⟩
    rcases List.mem_cons.mp hn with rfl | hn
    · exact hstart.trans (min_le_right start n)
    · exact hall n hn

theorem count_le_maxLoad (loads : Loads) (h : rank ∈ eligible) :
    loads.count rank ≤ maxLoad loads eligible :=
  (le_foldl_max _ 0).2 _ (List.mem_map_of_mem h)

theorem minLoad_le_count (loads : Loads) (h : rank ∈ eligible) :
    minLoad loads eligible ≤ loads.count rank := by
  cases eligible with
  | nil => exact absurd h List.not_mem_nil
  | cons first rest =>
    obtain ⟨hfirst, hrest⟩ := foldl_min_le (rest.map loads.count) (loads.count first)
    rcases List.mem_cons.mp h with rfl | h
    · exact hfirst
    · exact hrest _ (List.mem_map_of_mem h)

theorem le_bestMatch (lookup : Nat → Nat) {r : Nat} (h : r ∈ probed) :
    lookup r ≤ bestMatch lookup probed :=
  (le_foldl_max _ 0).2 _ (List.mem_map_of_mem h)

theorem mem_of_mem_holders (h : rank ∈ holders eligible lookup promptLen) : rank ∈ eligible := by
  unfold holders at h
  split at h
  next => exact (List.mem_filter.mp h).1
  next => exact absurd h List.not_mem_nil

/-- How far affinity to a cache may raise the requests of a rank above those of another. -/
theorem pickCacheAwareDp_spec
    (h : pickCacheAwareDp eligible loads lookup promptLen itemInput itemOutput = some rank) :
    rank ∈ eligible ∧ ∀ r ∈ eligible,
      loads.count rank ≤ max (loads.count r + balanceAbs) (11 * loads.count r / 10) := by
  unfold pickCacheAwareDp at h
  split at h
  next => contradiction
  next hne =>
    split at h
    next hskew =>
      obtain ⟨hmem, hle⟩ := leastLoaded_spec h
      exact ⟨hmem, fun r hr => (hle r hr).trans ((Nat.le_add_right _ _).trans (le_max_left _ _))⟩
    next hskew =>
      have hmem : rank ∈ eligible := by
        split at h
        next => exact (pickShapeAwareDp_spec h).1
        next => exact mem_of_mem_holders (leastLoaded_spec h).1
      refine ⟨hmem, fun r hr => ?_⟩
      have hmax := count_le_maxLoad loads hmem
      have hmin := minLoad_le_count loads hr
      unfold exceedsBalanceRel at hskew
      rw [decide_eq_true_iff] at hskew
      omega

/-- Affinity is strict: among ranks with a cached prefix only one with the longest is chosen. -/
theorem pickForceCacheAwareDp_spec
    (h : pickForceCacheAwareDp eligible loads lookup probed promptLen itemInput itemOutput =
      some rank) :
    rank ∈ eligible ∧ (0 < promptLen → ∀ r ∈ probed, lookup r ≤ lookup rank) := by
  unfold pickForceCacheAwareDp at h
  split at h
  next => contradiction
  next =>
    split at h
    next =>
      have hmem := (leastLoaded_spec h).1
      rw [List.mem_filter, decide_eq_true_iff] at hmem
      exact ⟨hmem.1, fun _ r hr => hmem.2 ▸ le_bestMatch lookup hr⟩
    next hmiss =>
      refine ⟨(pickShapeAwareDp_spec h).1, fun hprompt r hr => ?_⟩
      have hbest := le_bestMatch lookup hr
      have hzero : ¬ 0 < bestMatch lookup probed := fun hpos => hmiss ⟨hprompt, hpos⟩
      omega

/-- Without affinity to keep, a rank that is not full is always found. -/
theorem pick_isSome (loads : Loads) (lookup : Nat → Nat) (promptLen itemInput itemOutput : Nat)
    (hne : eligible ≠ []) :
    (leastLoaded loads eligible).isSome = true ∧
      (pickShapeAwareDp eligible loads itemInput itemOutput).isSome = true ∧
      (pickCacheAwareDp eligible loads lookup promptLen itemInput itemOutput).isSome = true := by
  have hargmin : ∀ (key : Nat → Nat ×ₗ Nat ×ₗ Nat) (l : List Nat), l ≠ [] →
      (l.argmin key).isSome = true := by
    intro key l hl
    rw [← Option.not_isNone, Bool.not_eq_true', Bool.eq_false_iff, ne_eq, Option.isNone_iff_eq_none,
      List.argmin_eq_none]
    exact hl
  refine ⟨hargmin _ _ hne, hargmin _ _ hne, ?_⟩
  unfold pickCacheAwareDp
  rw [if_neg (by rwa [List.isEmpty_iff])]
  split
  next => exact hargmin _ _ hne
  next =>
    split
    next => exact hargmin _ _ hne
    next hholders =>
      apply hargmin
      rwa [List.isEmpty_iff] at hholders

end choice

end DpRouting

end SglJax.Managers
