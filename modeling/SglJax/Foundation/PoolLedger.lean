import Mathlib

/-! Items of a pool that are free or held. A holder has one item (`Assigned`) or a
list of items (`Ledger`). -/
namespace SglJax.Foundation

variable {α ρ : Type}

/-- Every item of the scope is free or has exactly one holder. -/
structure Assigned (scope free : List α) (holds : ρ → Option α) : Prop where
  nodup : free.Nodup
  free_mem : ∀ x ∈ free, x ∈ scope
  held_mem : ∀ r x, holds r = some x → x ∈ scope ∧ x ∉ free
  single : ∀ r r' x, holds r = some x → holds r' = some x → r = r'
  cover : ∀ x ∈ scope, x ∈ free ∨ ∃ r, holds r = some x

namespace Assigned

variable {scope free free' : List α} {holds : ρ → Option α}

theorem start (h : scope.Nodup) : Assigned scope scope fun _ : ρ => none where
  nodup := h
  free_mem := fun _ hx => hx
  held_mem := fun _ _ hr => by cases hr
  single := fun _ _ _ hr => by cases hr
  cover := fun _ hx => .inl hx

variable [DecidableEq ρ]

/-- A holder without an item takes the first free one. -/
theorem take {x : α} {r : ρ} (h : Assigned scope (x :: free) holds) (hr : holds r = none) :
    Assigned scope free (Function.update holds r (some x)) := by
  obtain ⟨hx, hnodup⟩ := List.nodup_cons.mp h.nodup
  have hcases {q : ρ} {y : α} (hq : Function.update holds r (some x) q = some y) :
      (q = r ∧ y = x) ∨ (q ≠ r ∧ holds q = some y) := by
    by_cases hqr : q = r
    · subst hqr
      rw [Function.update_self] at hq
      exact .inl ⟨rfl, (Option.some.inj hq).symm⟩
    · rw [Function.update_of_ne hqr] at hq
      exact .inr ⟨hqr, hq⟩
  refine ⟨hnodup, fun y hy => h.free_mem y (List.mem_cons_of_mem _ hy), ?_, ?_, ?_⟩
  · intro q y hq
    rcases hcases hq with ⟨-, rfl⟩ | ⟨-, hold⟩
    · exact ⟨h.free_mem _ List.mem_cons_self, hx⟩
    · obtain ⟨hmem, hfree⟩ := h.held_mem q y hold
      exact ⟨hmem, fun hy => hfree (List.mem_cons_of_mem _ hy)⟩
  · intro q q' y hq hq'
    rcases hcases hq with ⟨rfl, rfl⟩ | ⟨-, hold⟩ <;> rcases hcases hq' with ⟨rfl, hy⟩ | ⟨-, hold'⟩
    · rfl
    · exact absurd List.mem_cons_self (h.held_mem q' _ hold').2
    · exact absurd List.mem_cons_self (hy ▸ (h.held_mem q _ hold).2)
    · exact h.single q q' y hold hold'
  · intro y hy
    rcases h.cover y hy with hfree | ⟨q, hq⟩
    · rcases List.mem_cons.mp hfree with rfl | hfree
      · exact .inr ⟨r, Function.update_self ..⟩
      · exact .inl hfree
    · refine .inr ⟨q, ?_⟩
      rw [Function.update_of_ne]
      · exact hq
      · rintro rfl
        rw [hr] at hq
        cases hq

/-- A holder gives its item back. -/
theorem give {x : α} {r : ρ} (h : Assigned scope free holds) (hr : holds r = some x) :
    Assigned scope (free ++ [x]) (Function.update holds r none) := by
  have hx := h.held_mem r x hr
  have hcases {q : ρ} {y : α} (hq : Function.update holds r none q = some y) :
      q ≠ r ∧ holds q = some y := by
    have hqr : q ≠ r := by
      rintro rfl
      rw [Function.update_self] at hq
      cases hq
    rw [Function.update_of_ne hqr] at hq
    exact ⟨hqr, hq⟩
  refine ⟨?_, ?_, ?_, ?_, ?_⟩
  · refine List.Nodup.append h.nodup (List.nodup_singleton x) ?_
    intro y hy hyx
    rw [List.mem_singleton.mp hyx] at hy
    exact hx.2 hy
  · intro y hy
    rcases List.mem_append.mp hy with hy | hy
    · exact h.free_mem y hy
    · rw [List.mem_singleton.mp hy]
      exact hx.1
  · intro q y hq
    obtain ⟨hne, hold⟩ := hcases hq
    obtain ⟨hmem, hfree⟩ := h.held_mem q y hold
    refine ⟨hmem, fun hy => ?_⟩
    rcases List.mem_append.mp hy with hy | hy
    · exact hfree hy
    · rw [List.mem_singleton.mp hy] at hold
      exact hne (h.single q r x hold hr)
  · intro q q' y hq hq'
    exact h.single q q' y (hcases hq).2 (hcases hq').2
  · intro y hy
    rcases h.cover y hy with hfree | ⟨q, hq⟩
    · exact .inl (List.mem_append_left _ hfree)
    · by_cases hqr : q = r
      · subst hqr
        rw [hr] at hq
        cases hq
        exact .inl (List.mem_append_right _ List.mem_cons_self)
      · exact .inr ⟨q, by rw [Function.update_of_ne hqr]; exact hq⟩

omit [DecidableEq ρ] in
/-- The holders fix the free items. -/
theorem perm (h : Assigned scope free holds) (h' : Assigned scope free' holds) :
    free.Perm free' := by
  refine (List.perm_ext_iff_of_nodup h.nodup h'.nodup).mpr fun x => ?_
  have hone {f f' : List α} (hf : Assigned scope f holds) (hf' : Assigned scope f' holds)
      (hx : x ∈ f) : x ∈ f' := by
    rcases hf'.cover x (hf.free_mem x hx) with hmem | ⟨r, hr⟩
    · exact hmem
    · exact absurd hx (hf.held_mem r x hr).2
  exact ⟨hone h h', hone h' h⟩

end Assigned

variable [DecidableEq α]

/-- Every item of the scope is counted once among the free items and the items of the
first `n` holders, and nothing else is. -/
structure Ledger (scope free : List α) (held : Nat → List α) (n : Nat) : Prop where
  nodup : scope.Nodup
  balanced : ∀ x, free.count x + ∑ i ∈ Finset.range n, (held i).count x = scope.count x

namespace Ledger

variable {scope free free' : List α} {held held' : Nat → List α} {n i : Nat}

theorem start (h : scope.Nodup) (hheld : ∀ i < n, held i = []) : Ledger scope scope held n := by
  refine ⟨h, fun x => ?_⟩
  have hnone : ∑ i ∈ Finset.range n, (held i).count x = 0 :=
    Finset.sum_eq_zero fun i hi => by rw [hheld i (Finset.mem_range.mp hi), List.count_nil]
  rw [hnone, Nat.add_zero]

/-- The sum over the holders when one of them changes. -/
theorem sum_update (held : Nat → List α) (hi : i < n) (xs : List α) (x : α) :
    ∑ j ∈ Finset.range n, (Function.update held i xs j).count x + (held i).count x =
      ∑ j ∈ Finset.range n, (held j).count x + xs.count x := by
  have hmem := Finset.mem_range.mpr hi
  rw [← Finset.add_sum_erase _ _ hmem, ← Finset.add_sum_erase _ (fun j => (held j).count x) hmem,
    Function.update_self]
  have hrest : ∑ j ∈ (Finset.range n).erase i, (Function.update held i xs j).count x =
      ∑ j ∈ (Finset.range n).erase i, (held j).count x :=
    Finset.sum_congr rfl fun j hj => by rw [Function.update_of_ne (Finset.ne_of_mem_erase hj)]
  rw [hrest]
  omega

/-- Free items go to a holder. -/
theorem take (h : Ledger scope free held n) (hi : i < n) {xs : List α}
    (hfree : free.Perm (xs ++ free')) :
    Ledger scope free' (Function.update held i (held i ++ xs)) n := by
  refine ⟨h.nodup, fun x => ?_⟩
  have hsum := sum_update held hi (held i ++ xs) x
  have hbalanced := h.balanced x
  rw [hfree.count_eq x, List.count_append] at hbalanced
  rw [List.count_append] at hsum
  omega

/-- A holder gives all its items back. -/
theorem give (h : Ledger scope free held n) (hi : i < n)
    (hfree : free'.Perm (held i ++ free)) :
    Ledger scope free' (Function.update held i []) n := by
  refine ⟨h.nodup, fun x => ?_⟩
  have hsum := sum_update held hi [] x
  have hbalanced := h.balanced x
  rw [hfree.count_eq x, List.count_append]
  rw [List.count_nil] at hsum
  omega

theorem congr (h : Ledger scope free held n) (hfree : free.Perm free')
    (hheld : ∀ i < n, held i = held' i) : Ledger scope free' held' n := by
  refine ⟨h.nodup, fun x => ?_⟩
  rw [← h.balanced x, hfree.count_eq x]
  congr 1
  exact Finset.sum_congr rfl fun i hi => by rw [hheld i (Finset.mem_range.mp hi)]

theorem count_le (h : Ledger scope free held n) (hi : i < n) (x : α) :
    free.count x + (held i).count x ≤ 1 := by
  have hone := List.nodup_iff_count_le_one.mp h.nodup x
  have hbalanced := h.balanced x
  have hterm := Finset.single_le_sum (f := fun j => (held j).count x)
    (fun _ _ => Nat.zero_le _) (Finset.mem_range.mpr hi)
  omega

theorem held_mem (h : Ledger scope free held n) (hi : i < n) {x : α} (hx : x ∈ held i) :
    x ∈ scope := by
  have hbalanced := h.balanced x
  have hterm := Finset.single_le_sum (f := fun j => (held j).count x)
    (fun _ _ => Nat.zero_le _) (Finset.mem_range.mpr hi)
  have := List.count_pos_iff.mpr hx
  exact List.count_pos_iff.mp (by omega)

theorem nodup_held (h : Ledger scope free held n) (hi : i < n) : (held i).Nodup :=
  List.nodup_iff_count_le_one.mpr fun x => by
    have := h.count_le hi x
    omega

theorem not_mem_free (h : Ledger scope free held n) (hi : i < n) {x : α} (hx : x ∈ held i) :
    x ∉ free := by
  intro hfree
  have := h.count_le hi x
  have := List.count_pos_iff.mpr hx
  have := List.count_pos_iff.mpr hfree
  omega

/-- Two holders have nothing in common. -/
theorem single (h : Ledger scope free held n) {j : Nat} (hi : i < n) (hj : j < n) {x : α}
    (hx : x ∈ held i) (hx' : x ∈ held j) : i = j := by
  by_contra hne
  have hone := List.nodup_iff_count_le_one.mp h.nodup x
  have hbalanced := h.balanced x
  have hpair := Finset.sum_le_sum_of_subset (f := fun k => (held k).count x)
    (show {i, j} ⊆ Finset.range n by
      intro k hk
      rcases Finset.mem_insert.mp hk with rfl | hk
      · exact Finset.mem_range.mpr hi
      · rw [Finset.mem_singleton.mp hk]
        exact Finset.mem_range.mpr hj)
  rw [Finset.sum_pair hne] at hpair
  have := List.count_pos_iff.mpr hx
  have := List.count_pos_iff.mpr hx'
  omega

theorem cover (h : Ledger scope free held n) {x : α} (hx : x ∈ scope) :
    x ∈ free ∨ ∃ i < n, x ∈ held i := by
  by_contra hnone
  push Not at hnone
  have hbalanced := h.balanced x
  have hsum : ∑ i ∈ Finset.range n, (held i).count x = 0 :=
    Finset.sum_eq_zero fun i hi =>
      List.count_eq_zero.mpr (hnone.2 i (Finset.mem_range.mp hi))
  rw [List.count_eq_zero.mpr hnone.1, hsum] at hbalanced
  have := List.count_pos_iff.mpr hx
  omega

/-- When every place has an owner of its own, an item of the scope is free or some one
owner's. -/
theorem existsUnique {ρ : Type} (h : Ledger scope free held n) (place : ρ → Option Nat)
    (holds : ρ → α → Prop)
    (hholds : ∀ r x, holds r x ↔ ∃ i < n, place r = some i ∧ x ∈ held i)
    (howner : ∀ i x, x ∈ held i → ∃ r, place r = some i)
    (hplace : ∀ r r' i, place r = some i → place r' = some i → r = r') {x : α}
    (hx : x ∈ scope) : ∃! r : Option ρ, r.elim (x ∈ free) fun r => holds r x := by
  rcases h.cover hx with hfree | ⟨i, hi, hmem⟩
  · refine ⟨none, hfree, ?_⟩
    rintro (_ | r) hr
    · rfl
    · obtain ⟨i, hi, -, hmem⟩ := (hholds r x).mp hr
      exact absurd hfree (h.not_mem_free hi hmem)
  · obtain ⟨r, hr⟩ := howner i x hmem
    refine ⟨some r, (hholds r x).mpr ⟨i, hi, hr, hmem⟩, ?_⟩
    rintro (_ | r') hr'
    · exact absurd hr' (h.not_mem_free hi hmem)
    · obtain ⟨j, hj, hplace', hmem'⟩ := (hholds r' x).mp hr'
      rw [h.single hj hi hmem' hmem] at hplace'
      rw [hplace r' r i hplace' hr]

/-- The holders fix the free items. -/
theorem perm (h : Ledger scope free held n) (h' : Ledger scope free' held' n)
    (hheld : ∀ i < n, held i = held' i) : free.Perm free' := by
  rw [List.perm_iff_count]
  intro x
  have hbalanced := h.balanced x
  have hsum : ∑ i ∈ Finset.range n, (held i).count x = ∑ i ∈ Finset.range n, (held' i).count x :=
    Finset.sum_congr rfl fun i hi => by rw [hheld i (Finset.mem_range.mp hi)]
  rw [hsum, ← h'.balanced x] at hbalanced
  exact Nat.add_right_cancel hbalanced

end Ledger

end SglJax.Foundation
