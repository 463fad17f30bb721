import Mathlib.Algebra.BigOperators.Group.List.Basic
import Mathlib.Algebra.GroupWithZero.Nat
import Mathlib.Data.List.Count
import Mathlib.Tactic.Common
import SglJax.Foundation.SliceWrites
import SglJax.Foundation.TopK

/-! Rows in groups. A stable sort by the group puts the rows of a group next to each other,
and how many rows the groups have says where each of them begins. -/
namespace SglJax.Foundation

/-- `jnp.argsort(keys, stable=True)` -/
def argsort (keys : List Nat) : List Nat :=
  ranking keys.length fun i => OrderDual.toDual (keys.getD i 0)

/-- `jnp.bincount(keys, length=n)` -/
def bincount (n : Nat) (keys : List Nat) : List Nat := (List.range n).map keys.count

/-- Row `r` is in group `g`. -/
def InGroup (groupSizes : List Nat) (g r : Nat) : Prop :=
  g < groupSizes.length ∧ (groupSizes.take g).sum ≤ r ∧ r < (groupSizes.take (g + 1)).sum

variable {keys : List Nat}

theorem argsort_perm (keys : List Nat) : (argsort keys).Perm (List.range keys.length) :=
  List.perm_insertionSort _ _

@[simp] theorem length_argsort (keys : List Nat) : (argsort keys).length = keys.length := by
  rw [(argsort_perm keys).length_eq, List.length_range]

theorem mem_argsort {i : Nat} : i ∈ argsort keys ↔ i < keys.length := by
  rw [(argsort_perm keys).mem_iff, List.mem_range]

theorem nodup_argsort (keys : List Nat) : (argsort keys).Nodup :=
  (argsort_perm keys).nodup_iff.mpr List.nodup_range

/-- The keys in ascending order. -/
def sortedKeys (keys : List Nat) : List Nat := (argsort keys).map fun i => keys.getD i 0

theorem sortedKeys_perm (keys : List Nat) : (sortedKeys keys).Perm keys := by
  refine ((argsort_perm keys).map _).trans (.of_eq ?_)
  apply List.ext_getElem?
  intro i
  rw [List.getElem?_map]
  by_cases h : i < keys.length
  · rw [List.getElem?_range h, Option.map_some, List.getD_eq_getElem?_getD,
      List.getElem?_eq_getElem h, Option.getD_some]
  · rw [List.getElem?_eq_none (by simpa using h), List.getElem?_eq_none (by simpa using h)]
    rfl

theorem sortedKeys_sorted (keys : List Nat) : (sortedKeys keys).Pairwise (· ≤ ·) := by
  refine List.pairwise_map.mpr ((pairwise_ranking _ _).imp fun h => ?_)
  rcases h with h | ⟨h, -⟩
  · exact le_of_lt (OrderDual.toDual_lt_toDual.mp h)
  · exact (OrderDual.toDual_inj.mp h).le

/-- In an ascending list the values below a bound come first. -/
theorem lt_countP_iff {l : List Nat} (h : l.Pairwise (· ≤ ·)) {i v : Nat} (hi : l[i]? = some v)
    (bound : Nat) : i < l.countP (· < bound) ↔ v < bound := by
  induction l generalizing i with
  | nil => simp at hi
  | cons w l ih =>
    obtain ⟨hle, hsorted⟩ := List.pairwise_cons.mp h
    cases i with
    | zero =>
      cases hi
      by_cases hv : v < bound
      · simp [hv]
      · have hnone : l.countP (· < bound) = 0 := by
          apply List.countP_eq_zero.mpr
          intro u hu
          have := hle u hu
          simp only [decide_eq_true_eq]
          omega
        simp [hv, hnone]
    | succ i =>
      rw [List.countP_cons]
      have hrest := ih hsorted hi
      have hwv := hle v (List.mem_of_getElem? hi)
      by_cases hw : w < bound
      · rw [if_pos (by simpa using hw), Nat.add_lt_add_iff_right]
        exact hrest
      · rw [if_neg (by simpa using hw), Nat.add_zero]
        constructor
        · intro hlt
          exact hrest.mp (by omega)
        · omega

/-- The rows of the groups before `g`. -/
theorem sum_take_bincount (keys : List Nat) {n g : Nat} (hg : g ≤ n) :
    ((bincount n keys).take g).sum = keys.countP (· < g) := by
  rw [bincount, ← List.map_take, List.take_range, Nat.min_eq_left hg]
  clear hg
  induction g with
  | zero => simp
  | succ g ih =>
    rw [List.range_succ, List.map_append, List.sum_append, ih, List.map_singleton,
      List.sum_singleton, List.count_eq_countP]
    clear ih
    induction keys with
    | nil => rfl
    | cons key keys ih =>
      simp only [List.countP_cons, beq_iff_eq, decide_eq_true_eq]
      have hcases : (if key < g + 1 then 1 else 0) =
          (if key < g then 1 else 0) + if key = g then 1 else 0 := by
        split_ifs <;> omega
      omega

theorem length_bincount (n : Nat) (keys : List Nat) : (bincount n keys).length = n := by
  simp [bincount]

/-- A row stands in the group of its key. -/
theorem inGroup_argsort {n i slot key : Nat} (hi : (argsort keys)[i]? = some slot)
    (hkey : keys[slot]? = some key) (hn : key < n) : InGroup (bincount n keys) key i := by
  have hget : (sortedKeys keys)[i]? = some key := by
    rw [sortedKeys, List.getElem?_map, hi, Option.map_some, List.getD_eq_getElem?_getD, hkey,
      Option.getD_some]
  have hiff := lt_countP_iff (sortedKeys_sorted keys) hget
  simp only [(sortedKeys_perm keys).countP_eq] at hiff
  refine ⟨by rwa [length_bincount], ?_, ?_⟩
  · rw [sum_take_bincount keys hn.le]
    exact Nat.le_of_not_lt fun hlt => absurd ((hiff key).mp hlt) (Nat.lt_irrefl key)
  · rw [sum_take_bincount keys hn]
    exact (hiff (key + 1)).mpr (Nat.lt_succ_self key)

theorem sum_take_le (sizes : List Nat) {a b : Nat} (h : a ≤ b) :
    (sizes.take a).sum ≤ (sizes.take b).sum := by
  obtain ⟨c, rfl⟩ := Nat.exists_eq_add_of_le h
  rw [List.take_add, List.sum_append]
  exact Nat.le_add_right _ _

/-- A row is in one group at most. -/
theorem InGroup.unique {sizes : List Nat} {g g' r : Nat} (h : InGroup sizes g r)
    (h' : InGroup sizes g' r) : g = g' := by
  rcases Nat.lt_trichotomy g g' with hlt | rfl | hlt
  · have := sum_take_le sizes (show g + 1 ≤ g' from hlt)
    have := h.2.2
    have := h'.2.1
    omega
  · rfl
  · have := sum_take_le sizes (show g' + 1 ≤ g from hlt)
    have := h'.2.2
    have := h.2.1
    omega

/-- `jnp.zeros(n).at[order].set(jnp.arange(n))` -/
def positions (order : List Nat) : List Nat :=
  scatterDrop (List.replicate order.length 0)
    ((order.map Int.ofNat).zip (List.range order.length))

@[simp] theorem length_positions (order : List Nat) : (positions order).length = order.length := by
  simp [positions]

/-- Where a value stands in an order without repetitions. -/
theorem getElem?_positions {order : List Nat} (hnodup : order.Nodup) {i slot : Nat}
    (hi : order[i]? = some slot) (hslot : slot < order.length) :
    (positions order)[slot]? = some i := by
  have hlt := (List.getElem?_eq_some_iff.mp hi).1
  have hmem (w : Int × Nat) : w ∈ (order.map Int.ofNat).zip (List.range order.length) ↔
      ∃ s, order[w.2]? = some s ∧ w.1 = (s : Int) := by
    rw [List.mem_iff_getElem?]
    constructor
    · rintro ⟨j, hj⟩
      obtain ⟨hplace, hindex⟩ := List.getElem?_zip_eq_some.mp hj
      obtain ⟨s, hs, hws⟩ := Option.map_eq_some_iff.mp ((List.getElem?_map ..).symm.trans hplace)
      have hlen : j < order.length := by simpa using (List.getElem?_eq_some_iff.mp hindex).1
      rw [List.getElem?_range hlen] at hindex
      exact ⟨s, Option.some.inj hindex ▸ hs, hws.symm⟩
    · rintro ⟨s, hs, hws⟩
      have hj := (List.getElem?_eq_some_iff.mp hs).1
      refine ⟨w.2, List.getElem?_zip_eq_some.mpr ⟨?_, List.getElem?_range hj⟩⟩
      rw [List.getElem?_map, hs, hws]
      rfl
  apply getElem?_scatterDrop
  · intro w hw hplace
    obtain ⟨s, hs, heq⟩ := (hmem w).mp hw
    rw [heq, Int.natCast_inj] at hplace
    rw [hplace] at hs
    exact (List.getElem?_inj (List.getElem?_eq_some_iff.mp hs).1 hnodup).mp (hs.trans hi.symm)
  · rwa [List.length_replicate]
  · exact .inr ⟨(slot, i), (hmem _).mpr ⟨slot, hi, rfl⟩, rfl⟩

end SglJax.Foundation
