import Mathlib.Data.List.Basic
import Mathlib.Data.List.Nodup
import Mathlib.Tactic.Common

/-! A list of keys with values in which no key stands twice: a dictionary in the order
of insertion. -/
namespace SglJax.Foundation

variable {κ ν : Type} [DecidableEq κ]

theorem lookup_cons_of_ne {l : List (κ × ν)} {key other : κ} {u : ν} (h : key ≠ other) :
    ((other, u) :: l).lookup key = l.lookup key := by
  rw [List.lookup_cons, beq_false_of_ne h]

theorem lookup_eq_some_iff {l : List (κ × ν)} (h : (l.map Prod.fst).Nodup) {key : κ} {v : ν} :
    l.lookup key = some v ↔ (key, v) ∈ l := by
  induction l with
  | nil => simp
  | cons e l ih =>
    obtain ⟨other, u⟩ := e
    rw [List.map_cons, List.nodup_cons] at h
    by_cases hkey : key = other
    · subst hkey
      have habsent : (key, v) ∉ l := fun hmem =>
        h.1 (List.mem_map.mpr ⟨_, hmem, rfl⟩)
      simp [habsent, eq_comm]
    · rw [lookup_cons_of_ne hkey, ih h.2]
      simp [hkey]

theorem lookup_eq_none_iff {l : List (κ × ν)} {key : κ} :
    l.lookup key = none ↔ key ∉ l.map Prod.fst := by
  induction l with
  | nil => simp
  | cons e l ih =>
    obtain ⟨other, u⟩ := e
    by_cases hkey : key = other
    · subst hkey
      simp
    · rw [lookup_cons_of_ne hkey, ih, List.map_cons, List.mem_cons, not_or]
      simp [hkey]

/-- `dict.pop(key, None)`, the rest of the dictionary. -/
def eraseKey (l : List (κ × ν)) (key : κ) : List (κ × ν) := l.filter fun e => e.1 ≠ key

theorem mem_eraseKey {l : List (κ × ν)} {key : κ} {e : κ × ν} :
    e ∈ eraseKey l key ↔ e ∈ l ∧ e.1 ≠ key := by
  simp [eraseKey]

theorem eraseKey_of_lookup_none {l : List (κ × ν)} {key : κ} (h : l.lookup key = none) :
    eraseKey l key = l := by
  rw [lookup_eq_none_iff] at h
  apply List.filter_eq_self.mpr
  intro e he
  simpa using fun heq : e.1 = key => h (heq ▸ List.mem_map_of_mem he)

theorem keys_eraseKey (l : List (κ × ν)) (key : κ) :
    (eraseKey l key).map Prod.fst = (l.map Prod.fst).filter fun other => other ≠ key := by
  induction l with
  | nil => rfl
  | cons e l ih =>
    by_cases hkey : e.1 = key
    · simpa [eraseKey, hkey] using ih
    · simpa [eraseKey, hkey] using ih

theorem nodup_keys_eraseKey {l : List (κ × ν)} (h : (l.map Prod.fst).Nodup) (key : κ) :
    ((eraseKey l key).map Prod.fst).Nodup := by
  rw [keys_eraseKey]
  exact h.filter _

omit [DecidableEq κ] in
/-- A key that is absent goes to the end. -/
theorem nodup_keys_concat {l : List (κ × ν)} (h : (l.map Prod.fst).Nodup) {key : κ}
    (hkey : key ∉ l.map Prod.fst) (v : ν) : ((l ++ [(key, v)]).map Prod.fst).Nodup := by
  rw [List.map_append, List.map_singleton, ← List.concat_eq_append]
  exact h.concat hkey

theorem not_mem_keys_eraseKey (l : List (κ × ν)) (key : κ) :
    key ∉ (eraseKey l key).map Prod.fst := by
  simp [keys_eraseKey]

/-- Taking a key out and putting it at the end only moves it. -/
theorem perm_eraseKey_concat {l : List (κ × ν)} (h : (l.map Prod.fst).Nodup) {key : κ} {v : ν}
    (hv : l.lookup key = some v) : (eraseKey l key ++ [(key, v)]).Perm l := by
  induction l with
  | nil => simp at hv
  | cons e l ih =>
    obtain ⟨other, u⟩ := e
    rw [List.map_cons, List.nodup_cons] at h
    by_cases hkey : key = other
    · subst hkey
      have hu : v = u := by simpa [List.lookup_cons, eq_comm] using hv
      have hrest : eraseKey l key = l := eraseKey_of_lookup_none (lookup_eq_none_iff.mpr h.1)
      have hcons : eraseKey ((key, u) :: l) key = eraseKey l key := by simp [eraseKey]
      rw [hcons, hrest, hu]
      exact List.perm_append_comm
    · rw [lookup_cons_of_ne hkey] at hv
      have hcons : eraseKey ((other, u) :: l) key = (other, u) :: eraseKey l key := by
        simp [eraseKey, Ne.symm hkey]
      rw [hcons, List.cons_append]
      exact (ih h.2 hv).cons _

/-- `dict[key] = v`: the key keeps its place, a new one goes to the end. -/
def setKey (l : List (κ × ν)) (key : κ) (v : ν) : List (κ × ν) :=
  if key ∈ l.map Prod.fst then l.map fun e => if e.1 = key then (key, v) else e
  else l ++ [(key, v)]

theorem lookup_map_update (l : List (κ × ν)) (key other : κ) (v : ν) :
    (l.map fun e => if e.1 = key then (key, v) else e).lookup other =
      if other = key then (if key ∈ l.map Prod.fst then some v else none)
      else l.lookup other := by
  induction l with
  | nil => simp
  | cons e l ih =>
    obtain ⟨first, u⟩ := e
    rw [List.map_cons]
    by_cases hfirst : first = key
    · rw [if_pos hfirst]
      by_cases hother : other = key
      · simp [hother, hfirst]
      · rw [lookup_cons_of_ne hother, ih, if_neg hother, if_neg hother,
          lookup_cons_of_ne (hfirst ▸ hother)]
    · rw [if_neg hfirst]
      by_cases hsame : other = first
      · have hother : other ≠ key := hsame ▸ hfirst
        rw [if_neg hother, hsame, List.lookup_cons_self, List.lookup_cons_self]
      · have hiff : key ∈ ((first, u) :: l).map Prod.fst ↔ key ∈ l.map Prod.fst := by
          simp [Ne.symm hfirst]
        rw [lookup_cons_of_ne hsame, ih, lookup_cons_of_ne hsame]
        simp only [hiff]

theorem lookup_concat (l : List (κ × ν)) (key other : κ) (v : ν) :
    (l ++ [(key, v)]).lookup other =
      (l.lookup other).or (if other = key then some v else none) := by
  induction l with
  | nil =>
    by_cases hother : other = key
    · simp [hother]
    · rw [List.nil_append, lookup_cons_of_ne hother, if_neg hother]
      simp
  | cons e l ih =>
    obtain ⟨first, u⟩ := e
    rw [List.cons_append]
    by_cases hsame : other = first
    · rw [hsame, List.lookup_cons_self, List.lookup_cons_self, Option.some_or]
    · rw [lookup_cons_of_ne hsame, lookup_cons_of_ne hsame, ih]

theorem lookup_setKey (l : List (κ × ν)) (key other : κ) (v : ν) :
    (setKey l key v).lookup other = if other = key then some v else l.lookup other := by
  unfold setKey
  by_cases hkey : key ∈ l.map Prod.fst
  · rw [if_pos hkey, lookup_map_update, if_pos hkey]
  · rw [if_neg hkey, lookup_concat]
    by_cases hother : other = key
    · rw [if_pos hother, if_pos hother, hother, lookup_eq_none_iff.mpr hkey, Option.none_or]
    · rw [if_neg hother, if_neg hother, Option.or_none]

theorem mem_keys_setKey {l : List (κ × ν)} {key other : κ} {v : ν} :
    other ∈ (setKey l key v).map Prod.fst ↔ other = key ∨ other ∈ l.map Prod.fst := by
  have hlookup := lookup_setKey l key other v
  rw [← not_iff_not, ← lookup_eq_none_iff, hlookup, not_or, ← lookup_eq_none_iff]
  by_cases hother : other = key <;> simp [hother]

end SglJax.Foundation
