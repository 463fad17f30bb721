import Mathlib.Logic.Relation
import Mathlib.Data.List.Basic

/-! Trees whose nodes are numbers, given by the parent of each node, and the lists that
link the children of a node. -/
namespace SglJax

/-- Every parent is a smaller number. -/
structure ParentTree where
  parent : Nat → Option Nat
  parent_lt : ∀ {t u}, parent t = some u → u < t

namespace ParentTree

variable (T : ParentTree)

def depth (t : Nat) : Nat :=
  match h : T.parent t with
  | none => 0
  | some u => depth u + 1
termination_by t
decreasing_by exact T.parent_lt h

variable {T} {t u p : Nat}

theorem depth_of_none (h : T.parent t = none) : T.depth t = 0 := by
  rw [depth]
  split
  · rfl
  · rename_i heq
    rw [h] at heq
    cases heq

theorem depth_of_some (h : T.parent t = some p) : T.depth t = T.depth p + 1 := by
  rw [depth]
  split
  · rename_i heq
    rw [h] at heq
    cases heq
  · rename_i heq
    rw [h] at heq
    rw [Option.some.inj heq]

theorem depth_le (T : ParentTree) (t : Nat) : T.depth t ≤ t := by
  induction t using Nat.strongRecOn with
  | ind t ih =>
    cases h : T.parent t with
    | none =>
      rw [depth_of_none h]
      exact Nat.zero_le _
    | some p =>
      have hlt := T.parent_lt h
      rw [depth_of_some h]
      exact Nat.lt_of_le_of_lt (ih p hlt) hlt

/-- `u` is the node `t` or one of its ancestors. -/
def Above (T : ParentTree) (u t : Nat) : Prop :=
  Relation.ReflTransGen (fun t p => T.parent t = some p) t u

theorem Above.refl (T : ParentTree) (t : Nat) : T.Above t t := Relation.ReflTransGen.refl

theorem above_of_none (h : T.parent t = none) : T.Above u t ↔ u = t := by
  constructor
  · intro habove
    rcases Relation.ReflTransGen.cases_head habove with rfl | ⟨p, hp, -⟩
    · rfl
    · rw [h] at hp
      cases hp
  · rintro rfl
    exact Above.refl T u

theorem above_of_some (h : T.parent t = some p) : T.Above u t ↔ u = t ∨ T.Above u p := by
  constructor
  · intro habove
    rcases Relation.ReflTransGen.cases_head habove with rfl | ⟨q, hq, hrest⟩
    · exact .inl rfl
    · rw [h] at hq
      rw [Option.some.inj hq]
      exact .inr hrest
  · rintro (rfl | hp)
    · exact Above.refl T u
    · exact Relation.ReflTransGen.head h hp

theorem Above.le (h : T.Above u t) : u ≤ t := by
  induction h with
  | refl => exact Nat.le_refl _
  | tail _ hparent ih => exact Nat.le_trans (Nat.le_of_lt (T.parent_lt hparent)) ih

theorem Above.trans {v : Nat} (huv : T.Above u v) (hvt : T.Above v t) : T.Above u t :=
  Relation.ReflTransGen.trans hvt huv

/-- There is a node of every smaller depth above a node. -/
theorem exists_above (T : ParentTree) {d : Nat} (h : d ≤ T.depth t) :
    ∃ u, T.Above u t ∧ T.depth u = d := by
  induction t using Nat.strongRecOn with
  | ind t ih =>
    rcases Nat.lt_or_eq_of_le h with hlt | heq
    · cases hparent : T.parent t with
      | none =>
        rw [depth_of_none hparent] at hlt
        omega
      | some p =>
        rw [depth_of_some hparent] at hlt
        obtain ⟨u, hu, hdepth⟩ := ih p (T.parent_lt hparent) (by omega)
        exact ⟨u, (above_of_some hparent).mpr (.inr hu), hdepth⟩
    · exact ⟨t, Above.refl T t, heq.symm⟩

theorem Above.depth_le (h : T.Above u t) : T.depth u ≤ T.depth t := by
  induction h with
  | refl => exact Nat.le_refl _
  | tail _ hparent ih =>
    rw [depth_of_some hparent] at ih
    omega

/-- The nodes from the root to a node. -/
def path (T : ParentTree) (t : Nat) : List Nat :=
  match h : T.parent t with
  | none => [t]
  | some p => path T p ++ [t]
termination_by t
decreasing_by exact T.parent_lt h

theorem path_of_none (h : T.parent t = none) : T.path t = [t] := by
  rw [path]
  split
  · rfl
  · rename_i heq
    rw [h] at heq
    cases heq

theorem path_of_some (h : T.parent t = some p) : T.path t = T.path p ++ [t] := by
  rw [path]
  split
  · rename_i heq
    rw [h] at heq
    cases heq
  · rename_i heq
    rw [h] at heq
    rw [Option.some.inj heq]

end ParentTree

/-- The list that `next` links from a first node on. -/
inductive Linked (next : Nat → Option Nat) : Option Nat → List Nat → Prop where
  | nil : Linked next none []
  | cons {u : Nat} {rest : List Nat} : Linked next (next u) rest → Linked next (some u) (u :: rest)

/-- A link outside a list can be changed. -/
theorem Linked.congr {next next' : Nat → Option Nat} {first : Option Nat} {nodes : List Nat}
    (h : Linked next first nodes) (heq : ∀ u ∈ nodes, next' u = next u) :
    Linked next' first nodes := by
  induction h with
  | nil => exact .nil
  | cons _ ih =>
    refine .cons ?_
    rw [heq _ List.mem_cons_self]
    exact ih fun u hu => heq u (List.mem_cons_of_mem _ hu)

end SglJax
