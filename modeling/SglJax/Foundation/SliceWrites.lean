import Mathlib.Data.List.Basic
import Mathlib.Data.List.Nodup
import Mathlib.Data.List.Pairwise
import Mathlib.Tactic.Common

/-! Writes to slices of a list, and writes to single places of it. Several writes may
name one place: what stands there in the end is known when they agree. -/
namespace SglJax.Foundation

variable {α : Type}

/-- `l[start : start + len(values)] = values` -/
def assign (l : List α) (start : Nat) (values : List α) : List α :=
  l.take start ++ values ++ l.drop (start + values.length)

/-- A slice with its new values. -/
structure SliceWrite (α : Type) where
  start : Nat
  values : List α

namespace SliceWrite

def Covers (w : SliceWrite α) (i : Nat) : Prop :=
  w.start ≤ i ∧ i < w.start + w.values.length

def Fits (n : Nat) (w : SliceWrite α) : Prop := w.start + w.values.length ≤ n

def Apart (w u : SliceWrite α) : Prop := ∀ i, ¬ (w.Covers i ∧ u.Covers i)

instance : Std.Symm (Apart (α := α)) := ⟨fun _ _ h i hi => h i hi.symm⟩

end SliceWrite

theorem length_assign {l values : List α} {start : Nat} (h : start + values.length ≤ l.length) :
    (assign l start values).length = l.length := by
  simp only [assign, List.length_append, List.length_take, List.length_drop]
  omega

theorem getElem?_assign_of_covers {l values : List α} {start i : Nat}
    (h : start + values.length ≤ l.length) (hstart : start ≤ i) (hi : i < start + values.length) :
    (assign l start values)[i]? = values[i - start]? := by
  have hlen : (l.take start).length = start := by
    rw [List.length_take]
    omega
  rw [assign, List.append_assoc, List.getElem?_append_right (by omega), hlen,
    List.getElem?_append_left (by omega)]

theorem getElem?_assign_of_not_covers {l values : List α} {start i : Nat}
    (h : start + values.length ≤ l.length) (hi : ¬ (start ≤ i ∧ i < start + values.length)) :
    (assign l start values)[i]? = l[i]? := by
  have hlen : (l.take start).length = start := by
    rw [List.length_take]
    omega
  rw [assign]
  by_cases hlt : i < start
  · rw [List.append_assoc, List.getElem?_append_left (by omega), List.getElem?_take_of_lt hlt]
  · rw [List.getElem?_append_right (by simp [hlen]; omega), List.getElem?_drop]
    congr 1
    simp only [List.length_append, hlen]
    omega

def assignAll (l : List α) (writes : List (SliceWrite α)) : List α :=
  writes.foldl (fun l w => assign l w.start w.values) l

@[simp] theorem assignAll_nil (l : List α) : assignAll l [] = l := rfl

theorem assignAll_cons (l : List α) (w : SliceWrite α) (writes : List (SliceWrite α)) :
    assignAll l (w :: writes) = assignAll (assign l w.start w.values) writes := rfl

theorem assignAll_append (l : List α) (writes more : List (SliceWrite α)) :
    assignAll l (writes ++ more) = assignAll (assignAll l writes) more :=
  List.foldl_append ..

theorem length_assignAll {l : List α} {writes : List (SliceWrite α)}
    (h : ∀ w ∈ writes, w.Fits l.length) : (assignAll l writes).length = l.length := by
  induction writes generalizing l with
  | nil => rfl
  | cons w writes ih =>
    have hlen := length_assign (h w List.mem_cons_self)
    rw [assignAll_cons, ih, hlen]
    intro v hv
    rw [hlen]
    exact h v (List.mem_cons_of_mem w hv)

/-- The writes that cover a place agree on it, and there is one, or it held the value before. -/
theorem getElem?_assignAll {l : List α} {writes : List (SliceWrite α)} {i : Nat} {v : α}
    (hfits : ∀ w ∈ writes, w.Fits l.length)
    (hagree : ∀ w ∈ writes, w.Covers i → w.values[i - w.start]? = some v)
    (h : l[i]? = some v ∨ ∃ w ∈ writes, w.Covers i) : (assignAll l writes)[i]? = some v := by
  induction writes generalizing l with
  | nil => simpa using h
  | cons w writes ih =>
    have hfit := hfits w List.mem_cons_self
    rw [assignAll_cons]
    apply ih
    · intro u hu
      rw [length_assign hfit]
      exact hfits u (List.mem_cons_of_mem w hu)
    · exact fun u hu => hagree u (List.mem_cons_of_mem w hu)
    · by_cases hw : w.Covers i
      · left
        rw [getElem?_assign_of_covers hfit hw.1 hw.2]
        exact hagree w List.mem_cons_self hw
      · rw [getElem?_assign_of_not_covers hfit hw]
        refine h.imp_right fun ⟨u, hu, hcovers⟩ => ?_
        rcases List.mem_cons.mp hu with rfl | hu
        · exact absurd hcovers hw
        · exact ⟨u, hu, hcovers⟩

/-- Slices that are pairwise apart agree. -/
theorem getElem?_assignAll_of_apart {l : List α} {writes : List (SliceWrite α)}
    (hfits : ∀ w ∈ writes, w.Fits l.length)
    (hapart : writes.Pairwise SliceWrite.Apart) {w : SliceWrite α} (hw : w ∈ writes) {i : Nat}
    (hi : w.Covers i) :
    (assignAll l writes)[i]? = w.values[i - w.start]? := by
  have hlt : i - w.start < w.values.length := by
    have := hi.1
    have := hi.2
    omega
  rw [List.getElem?_eq_getElem hlt]
  apply getElem?_assignAll hfits
  · intro u hu hui
    have heq : u = w := by
      by_contra hne
      exact hapart.forall hu hw hne i ⟨hui, hi⟩
    rw [heq, List.getElem?_eq_getElem hlt]
  · exact .inr ⟨w, hw, hi⟩

/-- `l.at[places].set(values, mode="drop")`, a negative place being dropped too. -/
def scatterDrop (l : List α) (writes : List (Int × α)) : List α :=
  writes.foldl (fun l w => if 0 ≤ w.1 then l.set w.1.toNat w.2 else l) l

theorem scatterDrop_cons (l : List α) (w : Int × α) (writes : List (Int × α)) :
    scatterDrop l (w :: writes) =
      scatterDrop (if 0 ≤ w.1 then l.set w.1.toNat w.2 else l) writes := rfl

@[simp] theorem length_scatterDrop (l : List α) (writes : List (Int × α)) :
    (scatterDrop l writes).length = l.length := by
  induction writes generalizing l with
  | nil => rfl
  | cons w writes ih =>
    rw [scatterDrop_cons, ih]
    split <;> simp

/-- The writes to a place agree on it, and there is one, or it held the value before. -/
theorem getElem?_scatterDrop {l : List α} {writes : List (Int × α)} {i : Nat} {v : α}
    (hagree : ∀ w ∈ writes, w.1 = (i : Int) → w.2 = v) (hi : i < l.length)
    (h : l[i]? = some v ∨ ∃ w ∈ writes, w.1 = (i : Int)) :
    (scatterDrop l writes)[i]? = some v := by
  induction writes generalizing l with
  | nil => simpa [scatterDrop] using h
  | cons w writes ih =>
    rw [scatterDrop_cons]
    apply ih (fun u hu => hagree u (List.mem_cons_of_mem w hu))
    · split <;> simpa using hi
    · by_cases hw : w.1 = (i : Int)
      · left
        rw [if_pos (by omega), hw, Int.toNat_natCast, List.getElem?_set_self hi,
          hagree w List.mem_cons_self hw]
      · rcases h with h | ⟨u, hu, hui⟩
        · left
          split
          · rw [List.getElem?_set_ne (by omega), h]
          · exact h
        · rcases List.mem_cons.mp hu with rfl | hu
          · exact absurd hui hw
          · exact .inr ⟨u, hu, hui⟩

section Rows

variable {rows : List (List α)} {width : Nat}

theorem length_flatten_of_width (h : ∀ row ∈ rows, row.length = width) :
    rows.flatten.length = rows.length * width := by
  induction rows with
  | nil => simp
  | cons row rows ih =>
    rw [List.flatten_cons, List.length_append, h row List.mem_cons_self,
      ih fun r hr => h r (List.mem_cons_of_mem row hr), List.length_cons, Nat.succ_mul,
      Nat.add_comm]

/-- Row-major order. -/
theorem getElem?_flatten_of_width (h : ∀ row ∈ rows, row.length = width) {i j : Nat}
    {row : List α} (hrow : rows[i]? = some row) (hj : j < width) :
    rows.flatten[i * width + j]? = row[j]? := by
  induction rows generalizing i with
  | nil => simp at hrow
  | cons first rows ih =>
    have hfirst := h first List.mem_cons_self
    rw [List.flatten_cons]
    cases i with
    | zero =>
      cases hrow
      rw [List.getElem?_append_left (by omega)]
      simp
    | succ i =>
      have hindex : (i + 1) * width + j = width + (i * width + j) := by
        rw [Nat.succ_mul]
        omega
      rw [hindex, ← hfirst, List.getElem?_append_right (Nat.le_add_right _ _),
        Nat.add_sub_cancel_left, hfirst]
      exact ih (fun r hr => h r (List.mem_cons_of_mem first hr)) hrow

end Rows

end SglJax.Foundation
