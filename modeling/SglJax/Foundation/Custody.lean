import Mathlib.Data.List.Nodup
import Mathlib.Logic.Function.Basic
import Mathlib.Tactic.Common

/-! Items of a fixed scope that are taken on one by one and given back: which are
still out, which are retained in a table shared with others, how often each was
given back. -/
namespace SglJax.Foundation

variable {α : Type}

/-- Of the items in `scope`, those in `taken` were taken on so far and those in `out`
are not given back yet. -/
structure Custody (scope taken out : List α) (retained : α → Bool) (given : α → Nat) :
    Prop where
  inScope : ∀ x ∈ taken, x ∈ scope
  onceTaken : ∀ x ∈ out, x ∈ taken
  distinct : out.Nodup
  kept : ∀ x ∈ out, retained x = true ∧ given x = 0
  returned : ∀ x ∈ taken, x ∉ out → retained x = false ∧ given x = 1
  untouched : ∀ x ∈ scope, x ∉ taken → retained x = false ∧ given x = 0

namespace Custody

variable {scope taken out rest : List α} {retained retained' : α → Bool} {given given' : α → Nat}

theorem start (h : ∀ x ∈ scope, retained x = false ∧ given x = 0) :
    Custody scope [] [] retained given := by
  constructor <;> simp_all

theorem takeOn [DecidableEq α] (h : Custody scope taken out retained given) {x : α} (hx : x ∈ scope)
    (hnew : x ∉ taken) :
    Custody scope (taken ++ [x]) (out ++ [x]) (Function.update retained x true) given where
  inScope := by
    intro y hy
    rcases List.mem_append.mp hy with hy | hy
    · exact h.inScope y hy
    · rw [List.mem_singleton.mp hy]
      exact hx
  onceTaken := by
    intro y hy
    rcases List.mem_append.mp hy with hy | hy
    · exact List.mem_append_left _ (h.onceTaken y hy)
    · exact List.mem_append_right _ hy
  distinct := by
    apply List.Nodup.append h.distinct (List.nodup_singleton x)
    intro y hy hyx
    rw [List.mem_singleton.mp hyx] at hy
    exact hnew (h.onceTaken x hy)
  kept := by
    intro y hy
    by_cases hyx : y = x
    · subst hyx
      exact ⟨Function.update_self .., (h.untouched y hx hnew).2⟩
    · have hold : y ∈ out := by simpa [hyx] using hy
      rw [Function.update_of_ne hyx]
      exact h.kept y hold
  returned := by
    intro y hy hout
    have hyx : y ≠ x := by
      intro heq
      subst heq
      simp at hout
    rw [Function.update_of_ne hyx]
    apply h.returned y
    · simpa [hyx] using hy
    · simpa [hyx] using hout
  untouched := by
    intro y hy hold
    have hyx : y ≠ x := by
      intro heq
      subst heq
      simp at hold
    rw [Function.update_of_ne hyx]
    apply h.untouched y hy
    simpa [hyx] using hold

theorem giveBack [DecidableEq α] {x : α} (h : Custody scope taken (x :: rest) retained given) :
    Custody scope taken rest (Function.update retained x false)
      (Function.update given x (given x + 1)) where
  inScope := h.inScope
  onceTaken := fun y hy => h.onceTaken y (List.mem_cons_of_mem x hy)
  distinct := h.distinct.of_cons
  kept := by
    intro y hy
    have hyx : y ≠ x := by
      intro heq
      subst heq
      exact (List.nodup_cons.mp h.distinct).1 hy
    rw [Function.update_of_ne hyx, Function.update_of_ne hyx]
    exact h.kept y (List.mem_cons_of_mem x hy)
  returned := by
    intro y hy hout
    by_cases hyx : y = x
    · subst hyx
      rw [Function.update_self, Function.update_self, (h.kept y List.mem_cons_self).2]
      exact ⟨rfl, rfl⟩
    · rw [Function.update_of_ne hyx, Function.update_of_ne hyx]
      apply h.returned y hy
      simpa [hyx] using hout
  untouched := by
    intro y hy hold
    have hyx : y ≠ x := by
      intro heq
      subst heq
      exact hold (h.onceTaken y List.mem_cons_self)
    rw [Function.update_of_ne hyx, Function.update_of_ne hyx]
    exact h.untouched y hy hold

/-- Only the shared table's entries for the scope matter. -/
theorem congr (h : Custody scope taken out retained given)
    (hretained : ∀ x ∈ scope, retained' x = retained x)
    (hgiven : ∀ x ∈ scope, given' x = given x) : Custody scope taken out retained' given' where
  inScope := h.inScope
  onceTaken := h.onceTaken
  distinct := h.distinct
  kept := by
    intro x hx
    have hscope := h.inScope x (h.onceTaken x hx)
    rw [hretained x hscope, hgiven x hscope]
    exact h.kept x hx
  returned := by
    intro x hx hout
    have hscope := h.inScope x hx
    rw [hretained x hscope, hgiven x hscope]
    exact h.returned x hx hout
  untouched := by
    intro x hx hold
    rw [hretained x hx, hgiven x hx]
    exact h.untouched x hx hold

end Custody

end SglJax.Foundation
