import SglJax.Foundation.ListScheduling
import SglJax.Foundation.TopK

/-! The lanes of an encoder: items are spread over them by descending length. -/
namespace SglJax.Multimodal

open Foundation

/-- The lanes, each with the indices of its items in the order in which they were placed. With
no lane at all `min` raises an error, which the callers exclude. -/
def balanceLanes (itemLengths : List Nat) (numLanes : Nat) : List (List Nat) :=
  (listSchedule (fun i => itemLengths.getD i 0) numLanes
    (ranking itemLengths.length fun i => itemLengths.getD i 0)).lanes

variable (itemLengths : List Nat) {numLanes : Nat}

theorem balanceLanes_scheduled (hlanes : 0 < numLanes) :
    Scheduled (fun i => itemLengths.getD i 0) numLanes
      (ranking itemLengths.length fun i => itemLengths.getD i 0)
      (listSchedule (fun i => itemLengths.getD i 0) numLanes
        (ranking itemLengths.length fun i => itemLengths.getD i 0)) := by
  apply listSchedule_scheduled hlanes
  refine (pairwise_ranking _ _).imp fun h => ?_
  rcases h with h | ⟨h, -⟩
  · exact h.le
  · exact h.symm.le

theorem length_balanceLanes (hlanes : 0 < numLanes) :
    (balanceLanes itemLengths numLanes).length = numLanes :=
  (balanceLanes_scheduled itemLengths hlanes).count

/-- Every item is in one lane. -/
theorem balanceLanes_perm (hlanes : 0 < numLanes) :
    (balanceLanes itemLengths numLanes).flatten.Perm (List.range itemLengths.length) :=
  (balanceLanes_scheduled itemLengths hlanes).perm.trans (List.perm_insertionSort _ _)

def laneLength (lane : List Nat) : Nat := work (fun i => itemLengths.getD i 0) lane

/-- Every item is in one lane, none would be in a shorter lane after a move, and no lane is
longer than `2n / (n + 1)` times what any other assignment to `n` lanes reaches. -/
structure Balanced (numLanes : Nat) (lanes : List (List Nat)) : Prop where
  count : lanes.length = numLanes
  perm : lanes.flatten.Perm (List.range itemLengths.length)
  stable : ∀ lane ∈ lanes, ∀ other ∈ lanes, ∀ i ∈ lane,
    laneLength itemLengths lane ≤ laneLength itemLengths other + itemLengths.getD i 0
  bound : ∀ lane ∈ lanes, ∀ (assignment : Nat → Nat) (longest : Nat),
    (∀ i < itemLengths.length, assignment i < numLanes) →
    (∀ l < numLanes, laneLength itemLengths
      ((List.range itemLengths.length).filter fun i => assignment i = l) ≤ longest) →
    (numLanes + 1) * laneLength itemLengths lane ≤ 2 * numLanes * longest

theorem balanceLanes_balanced (hlanes : 0 < numLanes) :
    Balanced itemLengths numLanes (balanceLanes itemLengths numLanes) where
  count := length_balanceLanes itemLengths hlanes
  perm := balanceLanes_perm itemLengths hlanes
  stable := (balanceLanes_scheduled itemLengths hlanes).stable
  bound := by
    intro lane hlane assignment longest hassigned hlongest
    apply (balanceLanes_scheduled itemLengths hlanes).load_bound hlanes assignment _ _ hlane
    · exact fun i hi => hassigned i (mem_ranking.mp hi)
    · intro l hl
      refine le_of_eq_of_le ?_ (hlongest l hl)
      exact work_perm _ ((List.perm_insertionSort _ _).filter _)

/-- Five items on three lanes: the short ones share a lane. -/
theorem fiveItems_balanced : balanceLanes [4, 1, 9, 2, 7] 3 = [[2], [4], [0, 3, 1]] ∧
    Balanced [4, 1, 9, 2, 7] 3 (balanceLanes [4, 1, 9, 2, 7] 3) :=
  ⟨by decide, balanceLanes_balanced [4, 1, 9, 2, 7] (by decide)⟩

end SglJax.Multimodal
