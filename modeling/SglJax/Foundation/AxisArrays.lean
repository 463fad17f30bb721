import Mathlib.Data.List.Nodup
import Mathlib.Data.List.Forall2
import Mathlib.Data.Finset.Card
import Mathlib.Data.Finset.Range
import Mathlib.Logic.Function.Basic
import Mathlib.Tactic.Common

/-! Arrays along one axis, as numpy has them: they are indexed by integers, a negative
one counts from the end, and they are gathered and scattered by arrays of indices.
`tab n f` is the array of length `n` with `f i` at place `i`. -/
namespace SglJax.Foundation

variable {α : Type}

/-- Errors of an array operation. -/
inductive ArrayError where
  | assertion
  | index
  | value
  | zeroDivision
  | type
  | key
  | notImplemented
deriving DecidableEq, Repr

def tab (n : Nat) (f : Nat → α) : List α :=
  (List.range n).map f

@[simp] theorem length_tab (n : Nat) (f : Nat → α) : (tab n f).length = n := by
  simp [tab]

theorem getElem?_tab {n i : Nat} (h : i < n) (f : Nat → α) : (tab n f)[i]? = some (f i) := by
  simp [tab, h]

theorem getD_tab {n i : Nat} (h : i < n) (f : Nat → α) (d : α) : (tab n f).getD i d = f i := by
  rw [List.getD, getElem?_tab h]
  rfl

theorem tab_congr {n : Nat} {f g : Nat → α} (h : ∀ i < n, f i = g i) : tab n f = tab n g := by
  unfold tab
  apply List.map_congr_left
  intro i hi
  exact h i (List.mem_range.1 hi)

theorem eq_tab (l : List α) (d : α) : l = tab l.length fun i => l.getD i d := by
  apply List.ext_getElem?
  intro i
  by_cases h : i < l.length
  · rw [getElem?_tab h, List.getD, List.getElem?_eq_getElem h]
    rfl
  · rw [List.getElem?_eq_none (by omega), List.getElem?_eq_none (by simpa using h)]

theorem set_tab (n i : Nat) (f : Nat → α) (v : α) :
    (tab n f).set i v = tab n (Function.update f i v) := by
  apply List.ext_getElem?
  intro j
  rw [List.getElem?_set]
  by_cases hj : j < n
  · rw [getElem?_tab hj, getElem?_tab hj, length_tab]
    by_cases hij : i = j
    · subst hij
      simp [hj]
    · simp [hij, Function.update_of_ne (Ne.symm hij)]
  · have hnone : ∀ g : Nat → α, (tab n g)[j]? = none := fun g =>
      List.getElem?_eq_none (by simpa using hj)
    rw [hnone, hnone, length_tab]
    simp only [ite_eq_right_iff]
    intro hij hlt
    omega

theorem replicate_eq_tab (n : Nat) (v : α) : List.replicate n v = tab n fun _ => v := by
  simp [tab, List.map_const']

theorem map_tab {β : Type} (g : α → β) (n : Nat) (f : Nat → α) :
    (tab n f).map g = tab n (g ∘ f) := by
  simp [tab]

theorem zipWith_tab {β γ : Type} (g : α → β → γ) (n : Nat) (f : Nat → α) (f' : Nat → β) :
    List.zipWith g (tab n f) (tab n f') = tab n fun i => g (f i) (f' i) := by
  unfold tab
  rw [List.zipWith_map, List.zipWith_self]

theorem set_tab_natCast (n i : Nat) (f : Nat → Nat) (v : Nat) :
    (tab n fun j => (f j : Int)).set i (v : Int) =
      tab n fun j => ((Function.update f i v j : Nat) : Int) := by
  rw [set_tab]
  apply tab_congr
  intro j hj
  by_cases hij : j = i
  · rw [hij, Function.update_self, Function.update_self]
  · rw [Function.update_of_ne hij, Function.update_of_ne hij]

/-- `np.arange` -/
def arange (n : Nat) : List Int :=
  tab n fun i => (i : Int)

/-- The place that an index names on an axis of length `n`. -/
def axisIndex (n : Nat) (i : Int) : Except ArrayError Nat :=
  if 0 ≤ i ∧ i < n then .ok i.toNat
  else if -n ≤ i ∧ i < 0 then .ok (i + n).toNat
  else .error .index

theorem axisIndex_natCast {n i : Nat} (h : i < n) : axisIndex n (i : Int) = .ok i := by
  unfold axisIndex
  rw [if_pos (by omega)]
  simp

/-- The element at an index. -/
def item (l : List α) (i : Int) : Except ArrayError α := do
  let place ← axisIndex l.length i
  match l[place]? with
  | some v => .ok v
  | none => .error .index

theorem item_tab {n i : Nat} (h : i < n) (f : Nat → α) : item (tab n f) (i : Int) = .ok (f i) := by
  unfold item
  rw [length_tab, axisIndex_natCast h]
  show (match (tab n f)[i]? with | some v => Except.ok v | none => .error ArrayError.index) = _
  rw [getElem?_tab h]

/-- `np.take_along_axis` on the last axis. -/
def takeAlongAxis (l : List α) (indices : List Int) : Except ArrayError (List α) :=
  indices.mapM (item l)

theorem mapM_ok {β γ : Type} {xs : List β} {f : β → Except ArrayError γ} {g : β → γ}
    (h : ∀ x ∈ xs, f x = .ok (g x)) : xs.mapM f = .ok (xs.map g) := by
  induction xs with
  | nil => rfl
  | cons x xs ih =>
    rw [List.mapM_cons, h x (by simp), ih fun y hy => h y (by simp [hy])]
    rfl

theorem mapM_tab {β : Type} {n : Nat} {f : α → Except ArrayError β} {rows : Nat → α}
    {out : Nat → β} (h : ∀ i < n, f (rows i) = .ok (out i)) :
    (tab n rows).mapM f = .ok (tab n out) := by
  unfold tab
  rw [List.mapM_map]
  exact mapM_ok fun i hi => h i (List.mem_range.1 hi)

theorem mapM_forall₂ {β γ : Type} {xs : List β} {f : β → Except ArrayError γ}
    {R : β → γ → Prop} (h : ∀ x ∈ xs, ∃ y, f x = .ok y ∧ R x y) :
    ∃ ys, xs.mapM f = .ok ys ∧ List.Forall₂ R xs ys := by
  induction xs with
  | nil => exact ⟨[], rfl, .nil⟩
  | cons x xs ih =>
    obtain ⟨y, hy, hR⟩ := h x (by simp)
    obtain ⟨ys, hys, hall⟩ := ih fun z hz => h z (by simp [hz])
    refine ⟨y :: ys, ?_, .cons hR hall⟩
    rw [List.mapM_cons, hy, hys]
    rfl

theorem takeAlongAxis_tab {n m : Nat} {f : Nat → α} {g : Nat → Nat} (h : ∀ i < m, g i < n) :
    takeAlongAxis (tab n f) (tab m fun i => (g i : Int)) = .ok (tab m (f ∘ g)) := by
  have hitem : ∀ i ∈ List.range m, (item (tab n f) ∘ fun j => (g j : Int)) i = .ok (f (g i)) :=
    fun i hi => item_tab (h i (List.mem_range.1 hi)) f
  unfold takeAlongAxis tab
  rw [List.mapM_map]
  exact mapM_ok hitem

/-- An assignment to the element at an index. -/
def put (l : List α) (write : Int × α) : Except ArrayError (List α) :=
  (axisIndex l.length write.1).map fun place => l.set place write.2

theorem put_tab {n i : Nat} (h : i < n) (f : Nat → α) (v : α) :
    put (tab n f) ((i : Int), v) = .ok (tab n (Function.update f i v)) := by
  unfold put
  rw [length_tab, axisIndex_natCast h, ← set_tab]
  rfl

/-- `np.put_along_axis` on the last axis: the writes are made in order. -/
def putAlongAxis (l : List α) (indices : List Int) (values : List α) :
    Except ArrayError (List α) :=
  (indices.zip values).foldlM put l

/-- Writing `v i` at place `g i` for the first `m` numbers, in order. -/
def scattered (f : Nat → α) (g : Nat → Nat) (v : Nat → α) : Nat → Nat → α
  | 0 => f
  | m + 1 => Function.update (scattered f g v m) (g m) (v m)

theorem zip_tab {β : Type} (m : Nat) (f : Nat → α) (g : Nat → β) :
    (tab m f).zip (tab m g) = tab m fun i => (f i, g i) := by
  unfold tab
  rw [List.zip_map']

theorem putAlongAxis_tab {n m : Nat} {f : Nat → α} {g : Nat → Nat} {v : Nat → α}
    (h : ∀ i < m, g i < n) :
    putAlongAxis (tab n f) (tab m fun i => (g i : Int)) (tab m v) =
      .ok (tab n (scattered f g v m)) := by
  unfold putAlongAxis
  rw [zip_tab]
  induction m with
  | zero => rfl
  | succ m ih =>
    have hlast : tab (m + 1) (fun i => ((g i : Int), v i)) =
        tab m (fun i => ((g i : Int), v i)) ++ [((g m : Int), v m)] := by
      simp [tab, List.range_succ]
    rw [hlast, List.foldlM_append, ih fun i hi => h i (by omega)]
    show (put (tab n (scattered f g v m)) ((g m : Int), v m) >>= pure) = _
    rw [put_tab (h m (by omega))]
    rfl

/-- The last write to a place stays. -/
theorem scattered_of_inj {f : Nat → α} {g : Nat → Nat} {v : Nat → α} {m i : Nat} (hi : i < m)
    (hinj : ∀ a < m, ∀ b < m, g a = g b → a = b) : scattered f g v m (g i) = v i := by
  induction m with
  | zero => omega
  | succ m ih =>
    show Function.update (scattered f g v m) (g m) (v m) (g i) = v i
    by_cases him : i = m
    · rw [him, Function.update_self]
    · have hne : g i ≠ g m := fun heq => him (hinj i hi m (by omega) heq)
      rw [Function.update_of_ne hne]
      exact ih (by omega) fun a ha b hb => hinj a (by omega) b (by omega)

/-- A place that no write names keeps what it had. -/
theorem scattered_of_not_mem {f : Nat → α} {g : Nat → Nat} {v : Nat → α} {m j : Nat}
    (h : ∀ i < m, g i ≠ j) : scattered f g v m j = f j := by
  induction m with
  | zero => rfl
  | succ m ih =>
    show Function.update (scattered f g v m) (g m) (v m) j = f j
    rw [Function.update_of_ne (Ne.symm (h m (by omega)))]
    exact ih fun i hi => h i (by omega)

/-- `reshape` of an array with `n * m` elements to `n` rows. -/
def reshape (n m : Nat) (l : List α) : List (List α) :=
  tab n fun i => (l.drop (i * m)).take m

theorem take_drop_tab {n a m : Nat} (h : a + m ≤ n) (f : Nat → α) :
    ((tab n f).drop a).take m = tab m fun j => f (a + j) := by
  apply List.ext_getElem?
  intro j
  by_cases hj : j < m
  · rw [List.getElem?_take_of_lt hj, List.getElem?_drop, getElem?_tab (by omega), getElem?_tab hj]
  · rw [List.getElem?_eq_none (by simp; omega), List.getElem?_eq_none (by simpa using hj)]

theorem reshape_tab (n m : Nat) (f : Nat → α) :
    reshape n m (tab (n * m) f) = tab n fun i => tab m fun j => f (i * m + j) := by
  apply tab_congr
  intro i hi
  apply take_drop_tab
  calc i * m + m = (i + 1) * m := by rw [Nat.succ_mul]
    _ ≤ n * m := Nat.mul_le_mul_right m hi

/-- Rows of one length, one after the other. -/
theorem flatten_tab {n m : Nat} (hm : 0 < m) (f : Nat → Nat → α) :
    (tab n fun i => tab m (f i)).flatten = tab (n * m) fun k => f (k / m) (k % m) := by
  induction n with
  | zero => simp [tab]
  | succ n ih =>
    have hlast : (tab (n + 1) fun i => tab m (f i)) =
        (tab n fun i => tab m (f i)) ++ [tab m (f n)] := by
      simp [tab, List.range_succ]
    rw [hlast, List.flatten_append, ih, List.flatten_singleton]
    apply List.ext_getElem?
    intro k
    by_cases hk : k < n * m
    · rw [List.getElem?_append_left (by simpa using hk), getElem?_tab hk, getElem?_tab]
      rw [Nat.succ_mul]
      omega
    · rw [List.getElem?_append_right (by simpa using hk), length_tab]
      by_cases hlt : k - n * m < m
      · have hdiv : k / m = n := by
          apply Nat.div_eq_of_lt_le
          · omega
          · rw [Nat.succ_mul]
            omega
        have hmod : k % m = k - n * m := by
          have hsplit := Nat.div_add_mod k m
          rw [hdiv, Nat.mul_comm] at hsplit
          omega
        rw [getElem?_tab hlt, getElem?_tab (by rw [Nat.succ_mul]; omega), hdiv, hmod]
      · rw [List.getElem?_eq_none (by simpa using hlt),
          List.getElem?_eq_none (by rw [length_tab, Nat.succ_mul]; omega)]

/-- The numbers below `n`, put in another order. -/
structure Permutes (n : Nat) (σ : Nat → Nat) : Prop where
  maps : ∀ i < n, σ i < n
  inj : ∀ i < n, ∀ j < n, σ i = σ j → i = j

namespace Permutes

variable {n : Nat} {σ τ : Nat → Nat}

theorem surj (h : Permutes n σ) {j : Nat} (hj : j < n) : ∃ i < n, σ i = j := by
  have hmaps : ∀ i ∈ Finset.range n, σ i ∈ Finset.range n := fun i hi => by
    rw [Finset.mem_range] at hi ⊢
    exact h.maps i hi
  have hinj : ∀ i ∈ Finset.range n, ∀ j ∈ Finset.range n, σ i = σ j → i = j := fun i hi j hj =>
    h.inj i (Finset.mem_range.1 hi) j (Finset.mem_range.1 hj)
  have hfull := Finset.surjOn_of_injOn_of_card_le σ hmaps hinj (le_refl _)
  obtain ⟨i, hi, heq⟩ := hfull (Finset.mem_coe.2 (Finset.mem_range.2 hj))
  exact ⟨i, Finset.mem_range.1 (Finset.mem_coe.1 hi), heq⟩

/-- Scattering the numbers along a permutation gives its inverse. -/
theorem inverse (h : Permutes n σ) (f : Nat → Int) :
    ∃ τ, Permutes n τ ∧ (∀ i < n, τ (σ i) = i) ∧ (∀ j < n, σ (τ j) = j) ∧
      ∀ j < n, scattered f σ (fun i => (i : Int)) n j = (τ j : Int) := by
  have hleft : ∀ i < n, scattered f σ (fun i => (i : Int)) n (σ i) = (i : Int) := fun i hi =>
    scattered_of_inj (v := fun i => (i : Int)) hi h.inj
  have hboth : ∀ j < n, ∃ i < n, σ i = j ∧
      scattered f σ (fun i => (i : Int)) n j = (i : Int) := fun j hj => by
    obtain ⟨i, hi, rfl⟩ := h.surj hj
    exact ⟨i, hi, rfl, hleft i hi⟩
  choose! τ hτ using hboth
  refine ⟨τ, ⟨fun j hj => (hτ j hj).1, fun i hi j hj heq => ?_⟩, fun i hi => ?_,
    fun j hj => (hτ j hj).2.1, fun j hj => (hτ j hj).2.2⟩
  · calc i = σ (τ i) := (hτ i hi).2.1.symm
      _ = σ (τ j) := by rw [heq]
      _ = j := (hτ j hj).2.1
  · have hlt := h.maps i hi
    exact h.inj _ (hτ _ hlt).1 i hi (hτ _ hlt).2.1

/-- Blocks of `m` numbers put in another order. -/
theorem blocks {m : Nat} (h : Permutes n σ) (hm : 0 < m) :
    Permutes (n * m) fun e => σ (e / m) * m + e % m := by
  have hblock : ∀ e < n * m, e / m < n := fun e he => by
    rw [Nat.mul_comm] at he
    exact Nat.div_lt_of_lt_mul he
  constructor
  · intro e he
    calc σ (e / m) * m + e % m < σ (e / m) * m + m := by
          have hmod := Nat.mod_lt e hm
          omega
      _ = (σ (e / m) + 1) * m := by rw [Nat.succ_mul]
      _ ≤ n * m := Nat.mul_le_mul_right m (h.maps _ (hblock e he))
  · intro e he e' he' heq
    have hdiv := congrArg (· / m) heq
    have hmod := congrArg (· % m) heq
    simp only [Nat.mul_comm _ m, Nat.mul_add_div hm, Nat.mul_add_mod, Nat.mod_mod,
      Nat.div_eq_of_lt (Nat.mod_lt _ hm), Nat.add_zero] at hdiv hmod
    have hsame := h.inj _ (hblock e he) _ (hblock e' he') hdiv
    rw [← Nat.div_add_mod e m, ← Nat.div_add_mod e' m, hsame, hmod]

end Permutes

end SglJax.Foundation
