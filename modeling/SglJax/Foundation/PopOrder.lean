import Mathlib.Data.List.Perm.Basic

/-! Priority queues whose order is left open. A queue is a list of identities;
popping takes out one of them. Results about a loop that pops hold for every
order, in particular for least-recently-used. -/
namespace SglJax.Foundation

structure PopOrder where
  pop : List Nat → Option (Nat × List Nat)
  pop_perm : ∀ {queue rest : List Nat} {x : Nat}, pop queue = some (x, rest) →
    queue.Perm (x :: rest)
  pop_none : ∀ {queue : List Nat}, pop queue = none → queue = []

namespace PopOrder

theorem mem_of_pop (order : PopOrder) {queue rest : List Nat} {x : Nat}
    (h : order.pop queue = some (x, rest)) : x ∈ queue :=
  (order.pop_perm h).mem_iff.mpr (by simp)

theorem mem_of_mem_rest (order : PopOrder) {queue rest : List Nat} {x y : Nat}
    (h : order.pop queue = some (x, rest)) (hy : y ∈ rest) : y ∈ queue :=
  (order.pop_perm h).mem_iff.mpr (by simp [hy])

end PopOrder
end SglJax.Foundation
