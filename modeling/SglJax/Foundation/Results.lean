import Mathlib.Tactic.Common

/-! When a fallible computation built from others ends in a given result. -/
namespace SglJax

variable {ε δ α β : Type}

theorem map_eq_ok {x : Except ε α} {f : α → β} {y : β} :
    x.map f = .ok y ↔ ∃ v, x = .ok v ∧ f v = y := by
  cases x <;> simp [Except.map]

theorem mapError_eq_ok {x : Except ε α} {f : ε → δ} {y : α} :
    x.mapError f = .ok y ↔ x = .ok y := by
  cases x <;> simp [Except.mapError]

theorem bind_eq_ok {x : Except ε α} {g : α → Except ε β} {b : β} :
    x >>= g = .ok b ↔ ∃ a, x = .ok a ∧ g a = .ok b := by
  cases x <;> simp [bind, Except.bind]

theorem ok_bind (a : α) (g : α → Except ε β) : (Except.ok a >>= g) = g a := rfl

theorem bind_eq_error {x : Except ε α} {g : α → Except ε β} {e : ε} :
    x >>= g = .error e ↔ x = .error e ∨ ∃ a, x = .ok a ∧ g a = .error e := by
  cases x <;> simp [bind, Except.bind]

theorem mapM_eq_ok {f : α → Except ε β} {g : α → β} {xs : List α}
    (h : ∀ x ∈ xs, f x = .ok (g x)) : xs.mapM f = .ok (xs.map g) := by
  induction xs with
  | nil => rfl
  | cons x xs ih =>
    rw [List.mapM_cons, h x List.mem_cons_self, ih fun y hy => h y (List.mem_cons_of_mem x hy)]
    rfl

end SglJax
