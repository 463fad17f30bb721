import Mathlib.Algebra.BigOperators.Group.List.Basic
import Mathlib.Algebra.GroupWithZero.Nat
import Mathlib.Data.List.GetD
import Mathlib.Tactic.Common
import SglJax.Foundation.GroupedRows

/-! Sequences laid out one after the other. The ends of the sequences say where each of them
begins, and a search among the ends says whose a place is. -/
namespace SglJax.Foundation

/-- `jnp.cumsum` -/
def cumsum (sizes : List Nat) : List Nat :=
  (List.range sizes.length).map fun i => (sizes.take (i + 1)).sum

@[simp] theorem length_cumsum (sizes : List Nat) : (cumsum sizes).length = sizes.length := by
  simp [cumsum]

theorem cumsum_getD {sizes : List Nat} {g : Nat} (hpos : 0 < g) (hg : g ≤ sizes.length) :
    (cumsum sizes).getD (g - 1) 0 = (sizes.take g).sum := by
  have hlt : g - 1 < sizes.length := by omega
  rw [cumsum, List.getD_eq_getElem?_getD, List.getElem?_map, List.getElem?_range hlt,
    Option.map_some, Option.getD_some, Nat.sub_add_cancel hpos]

/-- `jnp.searchsorted(bounds, x, side="right")` -/
def searchsortedRight (bounds : List Nat) (x : Nat) : Nat := bounds.countP (· ≤ x)

/-- The offsets of `n` sequences, and where the last one ends. -/
structure Offsets (cu : List Nat) (n : Nat) : Prop where
  length : cu.length = n + 1
  start : cu.getD 0 0 = 0
  sorted : cu.Pairwise (· ≤ ·)

namespace Offsets

variable {cu : List Nat} {n : Nat} (h : Offsets cu n)
include h

theorem mono {i j : Nat} (hij : i ≤ j) (hj : j ≤ n) : cu.getD i 0 ≤ cu.getD j 0 := by
  have hlt : j < cu.length := by
    rw [h.length]
    omega
  rw [List.getD_eq_getElem _ _ (lt_of_le_of_lt hij hlt), List.getD_eq_getElem _ _ hlt]
  rcases Nat.lt_or_eq_of_le hij with hlt' | rfl
  · exact List.pairwise_iff_getElem.mp h.sorted i j _ _ hlt'
  · exact le_rfl

theorem getLastD : cu.getLastD 0 = cu.getD n 0 := by
  have hne : cu ≠ [] := by
    rintro rfl
    have := h.length
    simp at this
  rw [List.getLastD_eq_getLast?, List.getLast?_eq_getElem?, h.length, Nat.add_sub_cancel,
    List.getD_eq_getElem?_getD]

/-- The sequence of a place. -/
theorem searchsortedRight_eq {i t : Nat} (hi : i < n) (hle : cu.getD i 0 ≤ t)
    (hlt : t < cu.getD (i + 1) 0) : searchsortedRight cu.tail t = i := by
  have hsorted : cu.tail.Pairwise (· ≤ ·) := h.sorted.tail
  have hcount : searchsortedRight cu.tail t = cu.tail.countP (· < t + 1) := by
    unfold searchsortedRight
    simp only [Nat.lt_succ_iff]
  have hget {j : Nat} (hj : j < n) : cu.tail[j]? = some (cu.getD (j + 1) 0) := by
    have hlt : j + 1 < cu.length := by
      rw [h.length]
      omega
    rw [List.getElem?_tail, List.getD_eq_getElem _ _ hlt, List.getElem?_eq_getElem hlt]
  rw [hcount]
  apply le_antisymm
  · by_contra hgt
    have := (lt_countP_iff hsorted (hget hi) (t + 1)).mp (by omega)
    omega
  · rcases Nat.eq_zero_or_pos i with rfl | hpos
    · exact Nat.zero_le _
    · have hprev := hget (show i - 1 < n by omega)
      rw [Nat.sub_add_cancel hpos] at hprev
      have := (lt_countP_iff hsorted hprev (t + 1)).mpr (by omega)
      omega

theorem searchsortedRight_of_le {t : Nat} (hle : cu.getD n 0 ≤ t) :
    searchsortedRight cu.tail t = n := by
  have hlength : cu.tail.length = n := by rw [List.length_tail, h.length, Nat.add_sub_cancel]
  unfold searchsortedRight
  rw [List.countP_eq_length.mpr, hlength]
  intro v hv
  obtain ⟨i, hi⟩ := List.mem_iff_getElem?.mp hv
  have hlt := (List.getElem?_eq_some_iff.mp hi).1
  rw [List.getElem?_tail] at hi
  have hget : cu.getD (i + 1) 0 = v := by
    rw [List.getD_eq_getElem?_getD, hi, Option.getD_some]
  have hmono := h.mono (show i + 1 ≤ n by omega) le_rfl
  simp only [decide_eq_true_eq]
  omega

/-- Every place before the end is some sequence's. -/
theorem exists_segment {t : Nat} (ht : t < cu.getD n 0) :
    ∃ i < n, cu.getD i 0 ≤ t ∧ t < cu.getD (i + 1) 0 := by
  have hany : ∃ i, t < cu.getD i 0 := ⟨n, ht⟩
  have hfind := Nat.find_spec hany
  have hpos : 0 < Nat.find hany := by
    apply Nat.pos_of_ne_zero
    intro hzero
    rw [hzero, h.start] at hfind
    exact Nat.not_lt_zero t hfind
  have hle : Nat.find hany ≤ n := Nat.find_min' hany ht
  refine ⟨Nat.find hany - 1, by omega, ?_, by rwa [Nat.sub_add_cancel hpos]⟩
  exact Nat.le_of_not_lt (Nat.find_min hany (Nat.sub_lt hpos Nat.one_pos))

/-- The next place of a sequence is before or behind all others. -/
theorem others {i t : Nat} (hi : i < n) (hle : cu.getD i 0 ≤ t) (hlt : t < cu.getD (i + 1) 0)
    {j : Nat} (hj : j < n) (hji : j ≠ i) : t + 1 - cu.getD j 0 = t - cu.getD j 0 ∨
      cu.getD (j + 1) 0 - cu.getD j 0 ≤ t - cu.getD j 0 := by
  rcases Nat.lt_or_gt_of_ne hji with hlt' | hgt
  · right
    have := h.mono (show j + 1 ≤ i from hlt') hi.le
    omega
  · left
    have := h.mono (show i + 1 ≤ j from hgt) hj.le
    omega

end Offsets

theorem getD_offsets {sizes : List Nat} {i : Nat} (hi : i ≤ sizes.length) :
    (0 :: cumsum sizes).getD i 0 = (sizes.take i).sum := by
  cases i with
  | zero => rfl
  | succ i => exact cumsum_getD (Nat.succ_pos i) hi

/-- Sizes give offsets. -/
theorem offsets_cumsum (sizes : List Nat) : Offsets (0 :: cumsum sizes) sizes.length where
  length := by simp
  start := rfl
  sorted := by
    rw [List.pairwise_iff_getElem]
    intro i j hi hj hij
    rw [List.length_cons, length_cumsum] at hi hj
    rw [← List.getD_eq_getElem _ 0, ← List.getD_eq_getElem _ 0, getD_offsets (by omega),
      getD_offsets (by omega)]
    exact sum_take_le sizes hij.le

end SglJax.Foundation
