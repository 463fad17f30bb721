import Mathlib

/-! Drawing from a probability vector with two coins. Some candidates are tried in
order, one coin against the running sum of their probabilities; when all of them fail,
the second coin draws from what the candidates left. -/
namespace SglJax.Foundation.ResidualSampling

open MeasureTheory Set

section Mass

variable {K : Type} [Field K]

/-- The mass of the first `n` entries. -/
def mass (w : Nat → K) (n : Nat) : K := ((List.range n).map w).sum

/-- What the candidates leave. -/
def residual (q : Nat → K) (xs : List Nat) (x : Nat) : K := if x ∈ xs then 0 else q x

theorem mass_congr {w w' : Nat → K} {n : Nat} (h : ∀ i < n, w i = w' i) : mass w n = mass w' n := by
  unfold mass
  rw [List.map_congr_left fun i hi => h i (List.mem_range.mp hi)]

theorem mass_succ (w : Nat → K) (n : Nat) : mass w (n + 1) = mass w n + w n := by
  rw [mass, List.range_succ, List.map_append, List.sum_append, List.map_singleton,
    List.sum_singleton, mass]

theorem residual_of_mem {q : Nat → K} {xs : List Nat} {x : Nat} (h : x ∈ xs) :
    residual q xs x = 0 := if_pos h

theorem residual_of_not_mem {q : Nat → K} {xs : List Nat} {x : Nat} (h : x ∉ xs) :
    residual q xs x = q x := if_neg h

/-- The candidates and what they leave are the whole mass. -/
theorem mass_residual (q : Nat → K) {xs : List Nat} (hnodup : xs.Nodup) {n : Nat}
    (hxs : ∀ x ∈ xs, x < n) : (xs.map q).sum + mass (residual q xs) n = mass q n := by
  induction xs with
  | nil =>
    have hsame : residual q [] = q := funext fun x => residual_of_not_mem (by simp)
    rw [hsame, List.map_nil, List.sum_nil, zero_add]
  | cons x xs ih =>
    obtain ⟨hx, hnodup⟩ := List.nodup_cons.mp hnodup
    rw [List.map_cons, List.sum_cons, ← ih hnodup fun y hy => hxs y (List.mem_cons_of_mem _ hy)]
    have hlt := hxs x List.mem_cons_self
    -- Only the entry of the new candidate is taken out.
    have htaken (m : Nat) : mass (residual q xs) m =
        (if x < m then q x else 0) + mass (residual q (x :: xs)) m := by
      induction m with
      | zero => simp [mass]
      | succ m ihm =>
        rw [mass_succ, mass_succ, ihm]
        rcases eq_or_ne m x with rfl | hne
        · rw [residual_of_not_mem hx, residual_of_mem List.mem_cons_self, if_neg (lt_irrefl m),
            if_pos (Nat.lt_succ_self m)]
          ring
        · have hsame : residual q (x :: xs) m = residual q xs m := by
            simp only [residual, List.mem_cons, or_iff_right hne]
          have hplace : x < m + 1 ↔ x < m := by omega
          rw [hsame]
          simp only [hplace]
          ring
    rw [htaken n, if_pos hlt]
    ring

end Mass

section Draw

variable {K : Type} [Field K] [LinearOrder K]

/-- The first entry at which the running sum exceeds `u`, or the entry 0. -/
def firstAbove (w : Nat → K) (u : K) (n : Nat) : Nat :=
  ((List.range n).find? fun i => decide (u < mass w (i + 1))).getD 0

/-- The first candidate at which the running sum reaches the coin. -/
def tryInOrder (q : Nat → K) (coin : K) : K → List Nat → Option Nat
  | _, [] => none
  | acc, x :: xs => if coin ≤ acc + q x then some x else tryInOrder q coin (acc + q x) xs

/-- The entry that two coins draw. -/
def draw (q : Nat → K) (n : Nat) (xs : List Nat) (coin final : K) : Nat :=
  match tryInOrder q coin 0 xs with
  | some x => x
  | none => firstAbove (residual q xs) (final * mass (residual q xs) n) n

/-- A probability vector over the first `n` entries. -/
structure IsProb (q : Nat → K) (n : Nat) : Prop where
  nonneg : ∀ i < n, 0 ≤ q i
  total : mass q n = 1

theorem firstAbove_congr {w w' : Nat → K} {n : Nat} (h : ∀ i < n, w i = w' i) (u : K) :
    firstAbove w u n = firstAbove w' u n := by
  have hmass (i : Nat) (hi : i ∈ List.range n) :
      decide (u < mass w (i + 1)) = decide (u < mass w' (i + 1)) := by
    have hlt := List.mem_range.mp hi
    rw [mass_congr fun j hj => h j (by omega)]
  unfold firstAbove
  congr 1
  exact List.find?_congr hmass

theorem mem_of_tryInOrder {q : Nat → K} {coin acc : K} {xs : List Nat} {x : Nat}
    (h : tryInOrder q coin acc xs = some x) : x ∈ xs := by
  induction xs generalizing acc with
  | nil => cases h
  | cons y xs ih =>
    rw [tryInOrder] at h
    split at h
    · cases h
      exact List.mem_cons_self
    · exact List.mem_cons_of_mem _ (ih h)

variable [IsStrictOrderedRing K]

theorem mass_mono {w : Nat → K} {n : Nat} (hw : ∀ i < n, 0 ≤ w i) {i j : Nat} (hij : i ≤ j)
    (hj : j ≤ n) : mass w i ≤ mass w j := by
  induction j, hij using Nat.le_induction with
  | base => exact le_rfl
  | succ j hij ih =>
    rw [mass_succ]
    exact (ih (by omega)).trans (le_add_of_nonneg_right (hw j (by omega)))

theorem mass_nonneg {w : Nat → K} {n : Nat} (hw : ∀ i < n, 0 ≤ w i) {i : Nat} (hi : i ≤ n) :
    0 ≤ mass w i := mass_mono hw (Nat.zero_le i) hi

/-- Below the total, the entry is the one whose step of the running sum contains `u`. -/
theorem firstAbove_eq_iff {w : Nat → K} {n : Nat} (hw : ∀ i < n, 0 ≤ w i) {u : K}
    (hu : u < mass w n) (hpos : 0 ≤ u) {x : Nat} (hx : x < n) :
    firstAbove w u n = x ↔ mass w x ≤ u ∧ u < mass w (x + 1) := by
  have hsome : ∃ i, (List.range n).find? (fun i => decide (u < mass w (i + 1))) = some i := by
    rw [← Option.isSome_iff_exists, List.find?_isSome]
    refine ⟨n - 1, List.mem_range.mpr (by omega), decide_eq_true ?_⟩
    rw [Nat.sub_add_cancel (by omega)]
    exact hu
  obtain ⟨i, hi⟩ := hsome
  rw [firstAbove, hi, Option.getD_some]
  rw [List.find?_range_eq_some] at hi
  obtain ⟨habove, hmem, hbefore⟩ := hi
  rw [decide_eq_true_eq] at habove
  have hin := List.mem_range.mp hmem
  have hstep : mass w i ≤ u := by
    cases i with
    | zero => exact hpos
    | succ i =>
      have := hbefore i (Nat.lt_succ_self i)
      simpa using this
  constructor
  · rintro rfl
    exact ⟨hstep, habove⟩
  · rintro ⟨hle, hlt⟩
    -- The steps of two entries do not overlap.
    rcases Nat.lt_trichotomy i x with h | h | h
    · exact absurd (habove.trans_le (mass_mono hw h (by omega))) (not_lt.mpr hle)
    · exact h
    · exact absurd (hlt.trans_le (mass_mono hw h (by omega))) (not_lt.mpr hstep)

theorem tryInOrder_eq_none_iff {q : Nat → K} {coin : K} {xs : List Nat} (hq : ∀ x ∈ xs, 0 ≤ q x)
    {acc : K} (hacc : acc < coin) :
    tryInOrder q coin acc xs = none ↔ acc + (xs.map q).sum < coin := by
  induction xs generalizing acc with
  | nil => simpa [tryInOrder] using hacc
  | cons x xs ih =>
    rw [tryInOrder, List.map_cons, List.sum_cons, ← add_assoc]
    have hrest : ∀ y ∈ xs, 0 ≤ q y := fun y hy => hq y (List.mem_cons_of_mem _ hy)
    split
    · rename_i hle
      have hsum : 0 ≤ (xs.map q).sum := List.sum_nonneg (by simpa using hrest)
      exact iff_of_false (by simp) (not_lt.mpr (hle.trans (le_add_of_nonneg_right hsum)))
    · rename_i hlt
      exact ih hrest (not_le.mp hlt)

theorem tryInOrder_eq_some_iff {q : Nat → K} {coin : K} {before after : List Nat} {x : Nat}
    (hq : ∀ y ∈ before, 0 ≤ q y) (hbefore : x ∉ before) (hafter : x ∉ after) {acc : K}
    (hacc : acc < coin) :
    tryInOrder q coin acc (before ++ x :: after) = some x ↔
      acc + (before.map q).sum < coin ∧ coin ≤ acc + (before.map q).sum + q x := by
  induction before generalizing acc with
  | nil =>
    rw [List.nil_append, tryInOrder, List.map_nil, List.sum_nil, add_zero]
    split
    · rename_i hle
      exact iff_of_true rfl ⟨hacc, hle⟩
    · rename_i hlt
      exact iff_of_false (fun h => hafter (mem_of_tryInOrder h)) fun h => hlt h.2
  | cons y before ih =>
    rw [List.mem_cons, not_or] at hbefore
    have hrest : ∀ z ∈ before, 0 ≤ q z := fun z hz => hq z (List.mem_cons_of_mem _ hz)
    rw [List.cons_append, tryInOrder, List.map_cons, List.sum_cons, ← add_assoc]
    split
    · rename_i hle
      have hsum : 0 ≤ (before.map q).sum := List.sum_nonneg (by simpa using hrest)
      refine iff_of_false ?_ fun h => ?_
      · rintro ⟨⟩
        exact hbefore.1 rfl
      · exact absurd h.1 (not_lt.mpr (hle.trans (le_add_of_nonneg_right hsum)))
    · rename_i hlt
      exact ih hrest hbefore.2 (not_le.mp hlt)

theorem residual_nonneg {q : Nat → K} {n : Nat} (hq : ∀ i < n, 0 ≤ q i) (xs : List Nat) :
    ∀ i < n, 0 ≤ residual q xs i := by
  intro i hi
  unfold residual
  split
  · exact le_rfl
  · exact hq i hi

end Draw

/-! ### Areas -/

/-- The entry of a weight is drawn by its share of the coins. -/
theorem volume_firstAbove {w : Nat → ℝ} {n : Nat} (hw : ∀ i < n, 0 ≤ w i) (htotal : 0 < mass w n)
    {x : Nat} (hx : x < n) :
    volume {f ∈ Ico (0 : ℝ) 1 | firstAbove w (f * mass w n) n = x} =
      ENNReal.ofReal (w x / mass w n) := by
  have hset : {f ∈ Ico (0 : ℝ) 1 | firstAbove w (f * mass w n) n = x} =
      Ico (mass w x / mass w n) (mass w (x + 1) / mass w n) := by
    ext f
    have hlow : 0 ≤ mass w x / mass w n := div_nonneg (mass_nonneg hw hx.le) htotal.le
    have hhigh : mass w (x + 1) / mass w n ≤ 1 := (div_le_one htotal).mpr (mass_mono hw hx le_rfl)
    rw [mem_ofPred_eq, mem_Ico, mem_Ico, div_le_iff₀ htotal, lt_div_iff₀ htotal]
    constructor
    · rintro ⟨⟨hf, hf'⟩, hdraw⟩
      have hbelow : f * mass w n < mass w n := by nlinarith
      exact (firstAbove_eq_iff hw hbelow (mul_nonneg hf htotal.le) hx).mp hdraw
    · rintro ⟨hle, hlt⟩
      have hf : 0 ≤ f := hlow.trans ((div_le_iff₀ htotal).mpr hle)
      have hf' : f < 1 := ((lt_div_iff₀ htotal).mpr hlt).trans_le hhigh
      refine ⟨⟨hf, hf'⟩, ?_⟩
      exact (firstAbove_eq_iff hw (by nlinarith) (mul_nonneg hf htotal.le) hx).mpr ⟨hle, hlt⟩
  rw [hset, Real.volume_Ico, mass_succ, add_div, add_sub_cancel_left]

/-- The unit square without two of its edges. -/
theorem square_ae_eq : (Icc (0 : ℝ) 1 ×ˢ Icc (0 : ℝ) 1 : Set (ℝ × ℝ)) =ᵐ[volume]
    (Ioc (0 : ℝ) 1 ×ˢ Ico (0 : ℝ) 1 : Set (ℝ × ℝ)) := by
  rw [Measure.volume_eq_prod]
  exact Measure.set_prod_ae_eq Ioc_ae_eq_Icc.symm Ico_ae_eq_Icc.symm

/-- Only the square without the edges counts. -/
theorem volume_square (A : Set (ℝ × ℝ)) :
    volume (Icc (0 : ℝ) 1 ×ˢ Icc (0 : ℝ) 1 ∩ A) = volume (Ioc (0 : ℝ) 1 ×ˢ Ico (0 : ℝ) 1 ∩ A) :=
  measure_congr (square_ae_eq.inter (ae_eq_refl A))

theorem volume_prod_set (A B : Set ℝ) : volume (A ×ˢ B) = volume A * volume B := by
  rw [Measure.volume_eq_prod, Measure.prod_prod]

/-- Every entry is drawn on an area of its probability. -/
theorem volume_draw {q : Nat → ℝ} {n : Nat} (hq : IsProb q n) {xs : List Nat} (hnodup : xs.Nodup)
    (hxs : ∀ x ∈ xs, x < n) {x : Nat} (hx : x < n) :
    volume (Icc (0 : ℝ) 1 ×ˢ Icc (0 : ℝ) 1 ∩ {p : ℝ × ℝ | draw q n xs p.1 p.2 = x}) =
      ENNReal.ofReal (q x) := by
  have hmass := mass_residual q hnodup hxs
  have hleft := mass_nonneg (residual_nonneg hq.nonneg xs) le_rfl
  have hsums (ys : List Nat) (hys : ∀ y ∈ ys, y ∈ xs) : ∀ y ∈ ys, 0 ≤ q y :=
    fun y hy => hq.nonneg y (hxs y (hys y hy))
  rw [hq.total] at hmass
  rw [volume_square]
  by_cases hmem : x ∈ xs
  · -- A candidate has the coins between its running sums.
    obtain ⟨before, after, rfl⟩ := List.append_of_mem hmem
    have hparts := List.nodup_append.mp hnodup
    have hbefore : x ∉ before := fun h => hparts.2.2 x h x List.mem_cons_self rfl
    have hafter : x ∉ after := (List.nodup_cons.mp hparts.2.1).1
    have hq' := hsums before fun y hy => List.mem_append_left _ hy
    have hsumBefore : 0 ≤ (before.map q).sum := List.sum_nonneg (by simpa using hq')
    have hsumAfter : 0 ≤ (after.map q).sum :=
      List.sum_nonneg (by
        simpa using hsums after fun y hy => List.mem_append_right _ (List.mem_cons_of_mem _ hy))
    have hsum : ((before ++ x :: after).map q).sum =
        (before.map q).sum + q x + (after.map q).sum := by
      rw [List.map_append, List.sum_append, List.map_cons, List.sum_cons, add_assoc]
    have hset : (Ioc (0 : ℝ) 1 ×ˢ Ico (0 : ℝ) 1 : Set (ℝ × ℝ)) ∩
        {p | draw q n (before ++ x :: after) p.1 p.2 = x} =
          Ioc (before.map q).sum ((before.map q).sum + q x) ×ˢ Ico (0 : ℝ) 1 := by
      ext ⟨c, f⟩
      have htry (hc : 0 < c) := tryInOrder_eq_some_iff hq' hbefore hafter hc
      simp only [mem_inter_iff, mem_prod, mem_ofPred_eq]
      constructor
      · rintro ⟨⟨hc, hf⟩, hdraw⟩
        refine ⟨?_, hf⟩
        unfold draw at hdraw
        split at hdraw
        · rename_i y hy
          subst hdraw
          rw [htry hc.1, zero_add] at hy
          exact hy
        · rename_i hnone
          rw [tryInOrder_eq_none_iff (hsums _ fun y hy => hy) hc.1, zero_add] at hnone
          have hpos : 0 < mass (residual q (before ++ x :: after)) n := by
            have := hc.2
            linarith
          have hsteps := (firstAbove_eq_iff (residual_nonneg hq.nonneg _)
            (mul_lt_of_lt_one_left hpos hf.2) (mul_nonneg hf.1 hpos.le) hx).mp hdraw
          rw [mass_succ, residual_of_mem hmem, add_zero] at hsteps
          exact absurd hsteps.2 (not_lt.mpr hsteps.1)
      · rintro ⟨hc, hf⟩
        have hpos : 0 < c := hsumBefore.trans_lt hc.1
        refine ⟨⟨⟨hpos, ?_⟩, hf⟩, ?_⟩
        · have := hc.2
          linarith
        · have hsome := (htry hpos).mpr (by rw [zero_add]; exact hc)
          rw [draw, hsome]
    rw [hset, volume_prod_set, Real.volume_Ioc, Real.volume_Ico, add_sub_cancel_left, sub_zero,
      ENNReal.ofReal_one, mul_one]
  · -- The others share the coins above the sum of the candidates.
    have hset : (Ioc (0 : ℝ) 1 ×ˢ Ico (0 : ℝ) 1 : Set (ℝ × ℝ)) ∩ {p | draw q n xs p.1 p.2 = x} =
        Ioc (xs.map q).sum 1 ×ˢ
          {f ∈ Ico (0 : ℝ) 1 | firstAbove (residual q xs) (f * mass (residual q xs) n) n = x} := by
      have hsumNonneg : 0 ≤ (xs.map q).sum :=
        List.sum_nonneg (by simpa using hsums xs fun y hy => hy)
      ext ⟨c, f⟩
      have htry (hc : 0 < c) := tryInOrder_eq_none_iff (hsums xs fun y hy => hy) hc
      simp only [mem_inter_iff, mem_prod, mem_ofPred_eq]
      constructor
      · rintro ⟨⟨hc, hf⟩, hdraw⟩
        unfold draw at hdraw
        split at hdraw
        · rename_i y hy
          exact absurd (hdraw ▸ mem_of_tryInOrder hy) hmem
        · rename_i hnone
          rw [htry hc.1, zero_add] at hnone
          exact ⟨⟨hnone, hc.2⟩, hf, hdraw⟩
      · rintro ⟨hc, hf, hdraw⟩
        have hpos : 0 < c := hsumNonneg.trans_lt hc.1
        refine ⟨⟨⟨hpos, hc.2⟩, hf⟩, ?_⟩
        have hnone := (htry hpos).mpr (by rw [zero_add]; exact hc.1)
        rw [draw, hnone]
        exact hdraw
    have hshare : residual q xs x ≤ mass (residual q xs) n := by
      have hstep := mass_mono (residual_nonneg hq.nonneg xs) hx le_rfl
      have hbelow := mass_nonneg (residual_nonneg hq.nonneg xs) hx.le
      rw [mass_succ] at hstep
      linarith
    rw [residual_of_not_mem hmem] at hshare
    have hrest : 1 - (xs.map q).sum = mass (residual q xs) n := by linarith
    rw [hset, volume_prod_set, Real.volume_Ioc, hrest]
    rcases hleft.eq_or_lt with hzero | hpos
    · have hnone : q x = 0 := le_antisymm (hshare.trans hzero.ge) (hq.nonneg x hx)
      rw [← hzero, hnone, ENNReal.ofReal_zero, zero_mul]
    · rw [volume_firstAbove (residual_nonneg hq.nonneg xs) hpos hx, residual_of_not_mem hmem,
        ← ENNReal.ofReal_mul hpos.le, mul_div_cancel₀ _ hpos.ne']

end SglJax.Foundation.ResidualSampling
