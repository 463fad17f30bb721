import Mathlib.Data.List.Basic
import Mathlib.Tactic.Common

/-! A list is determined by the order in which any two of its members stand. -/
namespace SglJax.Foundation

variable {α : Type} [DecidableEq α]

/-- The occurrences of two values, in order. -/
def pairOrder (a b : α) (l : List α) : List α :=
  l.filter fun x => x = a ∨ x = b

theorem pairOrder_cons_of_mem {a b x : α} {l : List α} (h : x = a ∨ x = b) :
    pairOrder a b (x :: l) = x :: pairOrder a b l := by
  unfold pairOrder
  rw [List.filter_cons_of_pos (by simpa using h)]

theorem pairOrder_cons_of_not {a b x : α} {l : List α} (h : ¬ (x = a ∨ x = b)) :
    pairOrder a b (x :: l) = pairOrder a b l := by
  unfold pairOrder
  rw [List.filter_cons_of_neg (by simpa using h)]

theorem eq_of_pairOrder {l l' : List α}
    (h : ∀ a b, (a ∈ l ∨ a ∈ l') → (b ∈ l ∨ b ∈ l') → pairOrder a b l = pairOrder a b l') :
    l = l' := by
  induction l generalizing l' with
  | nil =>
    cases l' with
    | nil => rfl
    | cons y u =>
      have hy := h y y (.inr List.mem_cons_self) (.inr List.mem_cons_self)
      rw [pairOrder_cons_of_mem (.inl rfl)] at hy
      simp [pairOrder] at hy
  | cons x t ih =>
    cases l' with
    | nil =>
      have hx := h x x (.inl List.mem_cons_self) (.inl List.mem_cons_self)
      rw [pairOrder_cons_of_mem (.inl rfl)] at hx
      simp [pairOrder] at hx
    | cons y u =>
      have hxy := h x y (.inl List.mem_cons_self) (.inr List.mem_cons_self)
      rw [pairOrder_cons_of_mem (.inl rfl), pairOrder_cons_of_mem (.inr rfl)] at hxy
      have hhead : x = y := (List.cons.inj hxy).1
      subst hhead
      congr 1
      apply ih
      intro a b ha hb
      have hab := h a b (ha.imp (List.mem_cons_of_mem _) (List.mem_cons_of_mem _))
        (hb.imp (List.mem_cons_of_mem _) (List.mem_cons_of_mem _))
      by_cases hx : x = a ∨ x = b
      · rw [pairOrder_cons_of_mem hx, pairOrder_cons_of_mem hx] at hab
        exact (List.cons.inj hab).2
      · rw [pairOrder_cons_of_not hx, pairOrder_cons_of_not hx] at hab
        exact hab

/-- Filtering by a property that both values have does not change their order. -/
theorem pairOrder_filter {p : α → Bool} {a b : α} (ha : p a = true) (hb : p b = true)
    (l : List α) : pairOrder a b (l.filter p) = pairOrder a b l := by
  unfold pairOrder
  rw [List.filter_filter]
  apply List.filter_congr
  intro x _
  by_cases hx : x = a ∨ x = b
  · have hp : p x = true := by
      rcases hx with rfl | rfl
      · exact ha
      · exact hb
    simp [hp]
  · simp [hx]

end SglJax.Foundation
