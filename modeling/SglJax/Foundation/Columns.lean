import Mathlib.Data.List.Forall2
import Mathlib.Data.List.Induction
import Mathlib.Tactic.Common

/-! Tables kept as one list of rows and several optional columns beside it. The
rows can be picked by a list of positions, joined and changed in place; a column
that is treated the same way stays beside its rows. -/
namespace SglJax.Foundation

variable {α β γ ε : Type}

/-- The entries of `col` at the positions `idx`, in that order. -/
def gather (col : List α) (idx : List Nat) : Option (List α) :=
  idx.mapM (col[·]?)

/-- The same entries, without those that are out of range. -/
def picked (col : List α) (idx : List Nat) : List α :=
  idx.filterMap (col[·]?)

theorem gather_of_lt {col : List α} {idx : List Nat} (h : ∀ i ∈ idx, i < col.length) :
    gather col idx = some (picked col idx) := by
  induction idx with
  | nil => rfl
  | cons i idx ih =>
    have hi : i < col.length := h i (by simp)
    have hrest := ih (fun j hj => h j (by simp [hj]))
    unfold gather at hrest ⊢
    simp [picked, hrest, hi]

theorem picked_of_gather {col c : List α} {idx : List Nat} (h : gather col idx = some c) :
    c = picked col idx := by
  induction idx generalizing c with
  | nil =>
    cases h
    rfl
  | cons i idx ih =>
    unfold gather at ih h
    simp only [List.mapM_cons, Option.bind_eq_bind, Option.bind_eq_some_iff] at h
    obtain ⟨x, hx, rest, hrest, heq⟩ := h
    cases heq
    simp [picked, hx, ih hrest]

@[simp] theorem picked_nil_rows (idx : List Nat) : picked ([] : List α) idx = [] := by
  simp [picked]

@[simp] theorem picked_nil (col : List α) : picked col [] = [] := rfl

theorem mem_of_mem_picked {col : List α} {idx : List Nat} {x : α} (h : x ∈ picked col idx) :
    x ∈ col := by
  simp only [picked, List.mem_filterMap] at h
  obtain ⟨i, -, hi⟩ := h
  exact List.mem_of_getElem? hi

theorem picked_ne_nil {col : List α} {idx : List Nat} (h : ∀ i ∈ idx, i < col.length)
    (hne : idx ≠ []) : picked col idx ≠ [] := by
  cases idx with
  | nil => contradiction
  | cons i idx => simp [picked, h i (by simp)]

theorem picked_range (col : List α) : picked col (List.range col.length) = col := by
  induction col using List.reverseRecOn with
  | nil => rfl
  | append_singleton col x ih =>
    have hold : picked (col ++ [x]) (List.range col.length) = picked col (List.range col.length) := by
      apply List.filterMap_congr
      intro i hi
      exact List.getElem?_append_left (List.mem_range.mp hi)
    rw [List.length_append, List.length_singleton, List.range_succ]
    unfold picked at hold ih ⊢
    simp [List.filterMap_append, hold, ih]

theorem picked_perm {col : List α} {idx : List Nat}
    (h : idx.Perm (List.range col.length)) : (picked col idx).Perm col := by
  have hperm := h.filterMap (col[·]?)
  exact hperm.trans (List.Perm.of_eq (picked_range col))

theorem picked_map (f : α → β) (col : List α) (idx : List Nat) :
    picked (col.map f) idx = (picked col idx).map f := by
  simp [picked, List.map_filterMap]
/-- `col`, where it is there, has one entry for each row, and `R` relates them. -/
def Beside (R : α → β → Prop) (rows : List α) (col : Option (List β)) : Prop :=
  ∀ c, col = some c → List.Forall₂ R rows c

namespace Beside

variable {R : α → β → Prop}

@[simp] theorem absent (rows : List α) : Beside R rows none := by
  intro c h
  cases h

@[simp] theorem some_iff {rows : List α} {c : List β} :
    Beside R rows (some c) ↔ List.Forall₂ R rows c := by
  simp [Beside]

theorem length_eq {rows : List α} {c : List β} (h : Beside R rows (some c)) :
    c.length = rows.length :=
  (List.Forall₂.length_eq (h c rfl)).symm

/-- A column computed from the rows. -/
theorem of_map {rows : List α} {f : α → β} (h : ∀ r ∈ rows, R r (f r)) :
    Beside R rows (some (rows.map f)) := by
  rw [some_iff, List.forall₂_map_right_iff, List.forall₂_same]
  exact h

/-- A column read off rows that all have an entry. -/
theorem of_filterMap {rows : List α} {f : α → Option β} (h : ∀ r ∈ rows, (f r).isSome) :
    Beside (fun r x => f r = some x) rows (some (rows.filterMap f)) := by
  rw [some_iff]
  induction rows with
  | nil => exact .nil
  | cons r rows ih =>
    obtain ⟨x, hx⟩ := Option.isSome_iff_exists.mp (h r (by simp))
    rw [List.filterMap_cons_some hx]
    exact .cons hx (ih (fun r' hr' => h r' (by simp [hr'])))

/-- The rows and the entries of a column are changed together. -/
theorem map {S : γ → ε → Prop} {rows : List α} {c : List β} {f : α → γ} {g : β → ε}
    (h : Beside R rows (some c)) (hfg : ∀ r x, R r x → S (f r) (g x)) :
    Beside S (rows.map f) (some (c.map g)) := by
  rw [some_iff] at h ⊢
  rw [List.forall₂_map_left_iff, List.forall₂_map_right_iff]
  exact h.imp hfg

/-- The rows are replaced by rows that keep their entries. -/
theorem rows {S : γ → β → Prop} {rows : List α} {rows' : List γ} {col : Option (List β)}
    (h : Beside R rows col) (hrows : List.Forall₂ (fun r r' => ∀ x, R r x → S r' x) rows rows') :
    Beside S rows' col := by
  intro c hc
  have hcol := h c hc
  clear h hc
  induction hrows generalizing c with
  | nil =>
    cases hcol
    exact .nil
  | cons hrow _ ih =>
    cases hcol with
    | cons hentry hrest => exact .cons (hrow _ hentry) (ih _ hrest)

theorem map_rows {S : γ → β → Prop} {rows : List α} {col : Option (List β)} {f : α → γ}
    (h : Beside R rows col) (hf : ∀ r x, R r x → S (f r) x) : Beside S (rows.map f) col := by
  apply h.rows
  rw [List.forall₂_map_right_iff, List.forall₂_same]
  intro r _
  exact hf r

theorem append {rows more : List α} {c d : List β} (h : Beside R rows (some c))
    (hmore : Beside R more (some d)) : Beside R (rows ++ more) (some (c ++ d)) := by
  rw [some_iff] at h hmore ⊢
  exact List.rel_append h hmore

/-- Rows that all accept one default entry. -/
theorem replicate {rows : List α} {x : β} (h : ∀ r ∈ rows, R r x) :
    Beside R rows (some (List.replicate rows.length x)) := by
  have hmap : rows.map (fun _ => x) = List.replicate rows.length x := by simp
  rw [← hmap]
  exact of_map h

theorem picked {rows : List α} {col : List β} (h : Beside R rows (some col)) (idx : List Nat) :
    Beside R (picked rows idx) (some (picked col idx)) := by
  rw [some_iff] at h ⊢
  induction idx with
  | nil => exact List.Forall₂.nil
  | cons i idx ih =>
    have hlen := h.length_eq
    by_cases hi : i < rows.length
    · have hc : i < col.length := hlen ▸ hi
      have hrel : R rows[i] col[i] := (List.forall₂_iff_get.mp h).2 i hi hc
      simp only [Foundation.picked, List.filterMap_cons, List.getElem?_eq_getElem hi,
        List.getElem?_eq_getElem hc]
      exact List.Forall₂.cons hrel ih
    · have hc : ¬ i < col.length := hlen ▸ hi
      rw [Nat.not_lt] at hi hc
      simp only [Foundation.picked, List.filterMap_cons, List.getElem?_eq_none hi,
        List.getElem?_eq_none hc]
      exact ih

theorem picked? {rows : List α} {col : Option (List β)} (h : Beside R rows col)
    (idx : List Nat) : Beside R (Foundation.picked rows idx) (col.map (Foundation.picked · idx)) := by
  cases col with
  | none => exact absent _
  | some c => exact h.picked idx

end Beside

end SglJax.Foundation
