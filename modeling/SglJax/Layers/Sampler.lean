import SglJax.Layers.LogitMasks
import Mathlib.Data.List.FinRange

/-! The filters before a token is drawn: top-p, top-k and min-p one after the other, each on the
logits that the one before has left. -/
namespace SglJax.Layers
open SglJax.Foundation

variable {β : Type} {vocab : Nat}

/-- Rejected logits get this value, `-1e12`. -/
def maskFillValue : Binary32 := 0xd368d4a5#32

/-- What the sampler takes from the array library. -/
structure SamplerOps (vocab : Nat) extends RowOps vocab where
  divide : Binary32 → Binary32 → Binary32
  add : Binary32 → Binary32 → Binary32
  log : Binary32 → Binary32

/-- `jnp.max` along a row. -/
def rowMax (row : Fin vocab → Binary32) : Binary32 :=
  (List.finRange vocab).foldl (fun m j => if Binary32.lt m (row j) then row j else m)
    Binary32.negInf

def minPThreshold (ops : SamplerOps vocab) (inputs : Fin vocab → Binary32) (minP : Binary32) :
    Binary32 :=
  ops.add (rowMax inputs) (ops.log minP)

def applyMinPFilter (ops : SamplerOps vocab) (inputs : β → Fin vocab → Binary32)
    (minPs : β → Binary32) : β → Fin vocab → Binary32 :=
  fun b i => if Binary32.lt (inputs b i) (minPThreshold ops (inputs b) (minPs b)) then maskFillValue
    else inputs b i

/-- The sampling parameters of a batch that the filters read. -/
structure SamplingParams (β : Type) where
  temperatures : β → Binary32
  topKs : β → Int
  topPs : β → Binary32
  minPs : β → Binary32
  needMinPSampling : Bool

/-- `top_k_top_p_min_p_sampling_from_probs_jax_with_mask` up to the draw. -/
def filteredLogits (ops : SamplerOps vocab) (logits : β → Fin vocab → Binary32)
    (params : SamplingParams β) : β → Fin vocab → Binary32 :=
  let logits := fun b i => ops.divide (logits b i) (params.temperatures b)
  let logits := toppMask ops.toRowOps logits params.topPs maskFillValue
  let logits := topkMask logits params.topKs maskFillValue
  if params.needMinPSampling then applyMinPFilter ops logits params.minPs else logits

/-! ### The largest entry of a row -/

theorem foldl_max {row : Fin vocab → Binary32} (hrow : ∀ j, Binary32.isNaN (row j) = false)
    (l : List (Fin vocab)) (m : Binary32) (hm : Binary32.isNaN m = false) :
    let r := l.foldl (fun m j => if Binary32.lt m (row j) then row j else m) m
    Binary32.isNaN r = false ∧ Binary32.place m ≤ Binary32.place r ∧
      (∀ j ∈ l, Binary32.place (row j) ≤ Binary32.place r) ∧ (r = m ∨ ∃ j ∈ l, r = row j) := by
  induction l generalizing m with
  | nil => exact ⟨hm, le_refl _, fun j hj => absurd hj List.not_mem_nil, .inl rfl⟩
  | cons i l ih =>
    have hnext : Binary32.isNaN (if Binary32.lt m (row i) then row i else m) = false := by
      split
      · exact hrow i
      · exact hm
    obtain ⟨hn, hle, hall, hmem⟩ := ih _ hnext
    have hgrow : Binary32.place m ≤ Binary32.place (if Binary32.lt m (row i) then row i else m) ∧
        Binary32.place (row i) ≤ Binary32.place (if Binary32.lt m (row i) then row i else m) := by
      have hlt := Binary32.lt_iff hm (hrow i)
      split
      next h => have := hlt.mp h; omega
      next h => rw [hlt] at h; omega
    rw [List.foldl_cons]
    refine ⟨hn, hgrow.1.trans hle, ?_, ?_⟩
    · intro j hj
      rcases List.mem_cons.mp hj with rfl | hj
      · exact hgrow.2.trans hle
      · exact hall j hj
    · rcases hmem with heq | ⟨j, hj, heq⟩
      · by_cases h : Binary32.lt m (row i) = true
        · exact .inr ⟨i, List.mem_cons_self, by rw [heq, if_pos h]⟩
        · exact .inl (by rw [heq, if_neg h])
      · exact .inr ⟨j, List.mem_cons_of_mem i hj, heq⟩

/-- The maximum of a row is one of its entries and not below any of them. -/
theorem rowMax_spec {row : Fin vocab → Binary32} (hrow : ∀ j, Binary32.isNaN (row j) = false)
    (i : Fin vocab) : (∀ j, Binary32.place (row j) ≤ Binary32.place (rowMax row)) ∧
      ∃ j, Binary32.place (rowMax row) = Binary32.place (row j) := by
  obtain ⟨-, -, hall, hmem⟩ := foldl_max hrow (List.finRange vocab) Binary32.negInf (by decide)
  have hle := fun j => hall j (List.mem_finRange j)
  refine ⟨hle, ?_⟩
  rcases hmem with heq | ⟨j, -, heq⟩
  · refine ⟨i, ?_⟩
    have hlow := (Binary32.place_bounds (hrow i)).1
    have hi := hle i
    rw [heq, Binary32.place_negInf] at hi
    unfold rowMax
    rw [heq, Binary32.place_negInf]
    omega
  · exact ⟨j, congrArg Binary32.place heq⟩

/-- Two running maxima agree, or both are still below `top`. -/
def Together (top : Int) (m m' : Binary32) : Prop :=
  m' = m ∨ Binary32.place m < top ∧ Binary32.place m' < top

/-- The maximum stays when its entries stay and all others stay below it. -/
theorem rowMax_congr {row row' : Fin vocab → Binary32} {top : Fin vocab}
    (hrow : ∀ j, Binary32.isNaN (row j) = false) (hrow' : ∀ j, Binary32.isNaN (row' j) = false)
    (htop : ∀ j, Binary32.place (row j) ≤ Binary32.place (row top))
    (hstay : ∀ j, Binary32.place (row j) = Binary32.place (row top) → row' j = row j)
    (hbelow : ∀ j, Binary32.place (row j) < Binary32.place (row top) →
      Binary32.place (row' j) < Binary32.place (row top)) :
    rowMax row' = rowMax row := by
  have hfold : ∀ (l : List (Fin vocab)) (m m' : Binary32), Binary32.isNaN m = false →
      Binary32.isNaN m' = false → Binary32.place m ≤ Binary32.place (row top) →
      Together (Binary32.place (row top)) m m' →
      Together (Binary32.place (row top))
        (l.foldl (fun m j => if Binary32.lt m (row j) then row j else m) m)
        (l.foldl (fun m j => if Binary32.lt m (row' j) then row' j else m) m') := by
    intro l
    induction l with
    | nil => exact fun m m' _ _ _ h => h
    | cons j l ih =>
      intro m m' hm hm' hle htog
      have hj := htop j
      rw [List.foldl_cons, List.foldl_cons]
      apply ih
      · split
        · exact hrow j
        · exact hm
      · split
        · exact hrow' j
        · exact hm'
      · split <;> omega
      · have hlt := Binary32.lt_iff hm (hrow j)
        have hlt' := Binary32.lt_iff hm' (hrow' j)
        rcases lt_or_eq_of_le hj with hlow | heq
        · have hlow' := hbelow j hlow
          rcases htog with rfl | ⟨hmlow, hmlow'⟩
          · rcases lt_or_eq_of_le hle with hmlow | hmtop
            · right
              split <;> split <;> exact ⟨by assumption, by assumption⟩
            · left
              rw [if_neg (by rw [hlt']; omega), if_neg (by rw [hlt]; omega)]
          · right
            split <;> split <;> exact ⟨by assumption, by assumption⟩
        · rw [hstay j heq] at hlt' ⊢
          left
          rcases htog with rfl | ⟨hmlow, hmlow'⟩
          · rfl
          · rw [if_pos (hlt.mpr (by omega)), if_pos (hlt'.mpr (by omega))]
  have hlow := (Binary32.place_bounds (hrow top)).1
  rcases hfold (List.finRange vocab) Binary32.negInf Binary32.negInf (by decide) (by decide)
    (by rw [Binary32.place_negInf]; exact hlow) (.inl rfl) with heq | ⟨hbelow, -⟩
  · exact heq
  · have hle := (rowMax_spec hrow top).1 top
    exact absurd (hle.trans_lt hbelow) (lt_irrefl _)

/-! ### What survives all filters -/

/-- The tokens that are more likely than `i` have less than `p` of the mass. -/
def inNucleus (ops : SamplerOps vocab) (z : Fin vocab → Binary32) (p : Binary32) (i : Fin vocab) :
    Bool :=
  Binary32.lt (mass ops.toRowOps (ops.softmax z) fun j =>
    Binary32.lt (ops.softmax z i) (ops.softmax z j)) p

/-- Fewer than `k` tokens of the nucleus have larger logits than `i`. -/
def amongTopK (ops : SamplerOps vocab) (z : Fin vocab → Binary32) (p : Binary32) (k : Int)
    (i : Fin vocab) : Bool :=
  decide (((Finset.univ.filter fun j =>
    inNucleus ops z p j = true ∧ Binary32.lt (z i) (z j) = true).card : Int) < k)

/-- Token `i` of row `b` is not rejected, for the scaled logits `z` of the row. -/
def survives (ops : SamplerOps vocab) (params : SamplingParams β) (z : Fin vocab → Binary32)
    (b : β) (i : Fin vocab) : Bool :=
  Binary32.isFinite (z i) && inNucleus ops z (params.topPs b) i &&
    amongTopK ops z (params.topPs b) (params.topKs b) i &&
    (!params.needMinPSampling || !Binary32.lt (z i) (minPThreshold ops z (params.minPs b)))

/-- A row of scaled logits as the sampler gets them: a masked token is at minus infinity, the
others are finite and above the value of rejected ones. The library rounds without changing
the order. -/
structure RowServed (ops : SamplerOps vocab) (params : SamplingParams β)
    (z : Fin vocab → Binary32) (b : β) : Prop where
  entries : ∀ j, z j = Binary32.negInf ∨
    Binary32.isFinite (z j) = true ∧ Binary32.lt maskFillValue (z j) = true
  some_finite : ∃ j, Binary32.isFinite (z j) = true
  probs : Probabilities ops.toRowOps (ops.softmax z)
  softmax_mono : ∀ i j, Binary32.le (z i) (z j) = true →
    Binary32.le (ops.softmax z i) (ops.softmax z j) = true
  top_p : Binary32.lt (mass ops.toRowOps (ops.softmax z) fun _ => false) (params.topPs b) = true
  top_k : 1 ≤ params.topKs b
  min_p : ∀ m, Binary32.isFinite m = true →
    Binary32.le (ops.add m (ops.log (params.minPs b))) m = true

section served

variable {ops : SamplerOps vocab} {params : SamplingParams β} {z : Fin vocab → Binary32} {b : β}
  {i : Fin vocab}

theorem RowServed.isNaN (h : RowServed ops params z b) (j : Fin vocab) :
    Binary32.isNaN (z j) = false := by
  rcases h.entries j with hinf | ⟨hfin, -⟩
  · rw [hinf]
    decide
  · exact Binary32.isNaN_of_isFinite hfin

theorem RowServed.fill_lt (h : RowServed ops params z b) {j : Fin vocab}
    (hj : Binary32.isFinite (z j) = true) :
    Binary32.place maskFillValue < Binary32.place (z j) := by
  rcases h.entries j with hinf | ⟨hfin, hlt⟩
  · rw [hinf] at hj
    exact absurd hj (by decide)
  · exact (Binary32.lt_iff (by decide) (h.isNaN j)).mp hlt

theorem RowServed.le_iff (h : RowServed ops params z b) (i j : Fin vocab) :
    Binary32.le (z i) (z j) = true ↔ Binary32.place (z i) ≤ Binary32.place (z j) :=
  Binary32.le_iff (h.isNaN i) (h.isNaN j)

theorem RowServed.lt_iff (h : RowServed ops params z b) (i j : Fin vocab) :
    Binary32.lt (z i) (z j) = true ↔ Binary32.place (z i) < Binary32.place (z j) :=
  Binary32.lt_iff (h.isNaN i) (h.isNaN j)

theorem RowServed.isFinite_top (h : RowServed ops params z b)
    (htop : ∀ j, Binary32.place (z j) ≤ Binary32.place (z i)) :
    Binary32.isFinite (z i) = true := by
  rcases h.entries i with hinf | ⟨hfin, -⟩
  · obtain ⟨j, hj⟩ := h.some_finite
    have hle := htop j
    have hplace := (Binary32.isFinite_iff_place (z j)).mp hj
    rw [hinf, Binary32.place_negInf] at hle
    omega
  · exact hfin

theorem RowServed.top_inNucleus (h : RowServed ops params z b)
    (htop : ∀ j, Binary32.place (z j) ≤ Binary32.place (z i)) :
    inNucleus ops z (params.topPs b) i = true := by
  unfold inNucleus
  have hnone : (fun j => Binary32.lt (ops.softmax z i) (ops.softmax z j)) = fun _ => false := by
    funext j
    have hle := h.softmax_mono j i ((h.le_iff j i).mpr (htop j))
    obtain ⟨hj, hi⟩ := Binary32.not_isNaN_of_le hle
    rw [Binary32.le_iff hj hi] at hle
    rw [← Bool.not_eq_true, Binary32.lt_iff hi hj]
    omega
  rw [hnone]
  exact h.top_p

theorem RowServed.top_amongTopK (h : RowServed ops params z b)
    (htop : ∀ j, Binary32.place (z j) ≤ Binary32.place (z i)) :
    amongTopK ops z (params.topPs b) (params.topKs b) i = true := by
  unfold amongTopK
  have hempty : (Finset.univ.filter fun j => inNucleus ops z (params.topPs b) j = true ∧
      Binary32.lt (z i) (z j) = true) = ∅ := by
    rw [Finset.filter_eq_empty_iff]
    rintro j - ⟨-, hlt⟩
    rw [h.lt_iff] at hlt
    have := htop j
    omega
  have hk := h.top_k
  rw [hempty, decide_eq_true_iff, Finset.card_empty]
  omega

theorem RowServed.top_above (h : RowServed ops params z b)
    (htop : ∀ j, Binary32.place (z j) ≤ Binary32.place (z i)) :
    Binary32.lt (z i) (minPThreshold ops z (params.minPs b)) = false := by
  obtain ⟨hall, j, hj⟩ := rowMax_spec h.isNaN i
  have hfin : Binary32.isFinite (rowMax z) = true := by
    have hi := (Binary32.isFinite_iff_place (z i)).mp (h.isFinite_top htop)
    have hge := hall i
    have hle := htop j
    rw [Binary32.isFinite_iff_place]
    omega
  have hle := h.min_p (rowMax z) hfin
  obtain ⟨hthr, hmax⟩ := Binary32.not_isNaN_of_le hle
  rw [Binary32.le_iff hthr hmax] at hle
  have hjtop := htop j
  unfold minPThreshold
  rw [← Bool.not_eq_true, Binary32.lt_iff (h.isNaN i) hthr]
  omega

/-- A token with the largest logit of its row is never rejected. -/
theorem RowServed.top_survives (h : RowServed ops params z b)
    (htop : ∀ j, Binary32.place (z j) ≤ Binary32.place (z i)) :
    survives ops params z b i = true := by
  unfold survives
  rw [h.isFinite_top htop, h.top_inNucleus htop, h.top_amongTopK htop, h.top_above htop]
  simp

/-! ### The three stages -/

/-- The logits that top-p and top-k leave. -/
def ranked (ops : SamplerOps vocab) (params : SamplingParams β) (z : Fin vocab → Binary32) (b : β)
    (i : Fin vocab) : Bool :=
  Binary32.isFinite (z i) && inNucleus ops z (params.topPs b) i &&
    amongTopK ops z (params.topPs b) (params.topKs b) i

theorem RowServed.isNaN_masked (h : RowServed ops params z b) (kept : Fin vocab → Bool)
    (j : Fin vocab) : Binary32.isNaN (if kept j = true then z j else maskFillValue) = false := by
  split
  · exact h.isNaN j
  · decide

/-- Larger than a kept logit after top-p are the larger logits of the nucleus. -/
theorem RowServed.countGt_masked (h : RowServed ops params z b) (p : Binary32)
    (hfin : Binary32.isFinite (z i) = true) :
    countGt (fun j => if inNucleus ops z p j = true then z j else maskFillValue) (z i) =
      (Finset.univ.filter fun j =>
        inNucleus ops z p j = true ∧ Binary32.lt (z i) (z j) = true).card := by
  have hfill := h.fill_lt hfin
  unfold countGt
  apply congrArg Finset.card
  apply Finset.filter_congr
  intro j _
  dsimp only
  cases hj : inNucleus ops z p j with
  | true => simp
  | false =>
    rw [if_neg Bool.false_ne_true, Binary32.lt_iff (h.isNaN i) (by decide)]
    simp only [Bool.false_eq_true, false_and, iff_false]
    omega

theorem RowServed.topk_apply (h : RowServed ops params z b) (y : β → Fin vocab → Binary32)
    (hy : y b = fun j => if inNucleus ops z (params.topPs b) j = true then z j else maskFillValue) :
    topkMask y params.topKs maskFillValue b i =
      if ranked ops params z b i = true then z i else maskFillValue := by
  have hrow : ∀ j, Binary32.isNaN (y b j) = false := by
    intro j
    rw [hy]
    exact h.isNaN_masked _ j
  rw [topkMask_apply y _ _ b i hrow h.top_k, hy]
  unfold ranked amongTopK
  cases hi : inNucleus ops z (params.topPs b) i with
  | false => simp [hi]
  | true =>
    simp only [hi, if_true]
    rcases h.entries i with hinf | ⟨hfin, -⟩
    · rw [hinf, if_neg (by simp), show Binary32.isFinite Binary32.negInf = false by decide]
      simp
    · have hne : z i ≠ Binary32.negInf := by
        intro hinf
        rw [hinf] at hfin
        exact absurd hfin (by decide)
      rw [h.countGt_masked _ hfin, hfin]
      simp [hne]

/-- Largest logits keep their value through top-p and top-k. -/
theorem RowServed.rowMax_ranked (h : RowServed ops params z b) :
    rowMax (fun j => if ranked ops params z b j = true then z j else maskFillValue) = rowMax z := by
  obtain ⟨first, hfirst⟩ := h.some_finite
  obtain ⟨top, -, hmax⟩ := Finset.exists_max_image Finset.univ (fun j => Binary32.place (z j))
    ⟨first, Finset.mem_univ first⟩
  have htop : ∀ j, Binary32.place (z j) ≤ Binary32.place (z top) :=
    fun j => hmax j (Finset.mem_univ j)
  apply rowMax_congr h.isNaN (h.isNaN_masked _) htop
  · intro j hj
    have htopj : ∀ l, Binary32.place (z l) ≤ Binary32.place (z j) := fun l => hj ▸ htop l
    have hkept : ranked ops params z b j = true := by
      unfold ranked
      rw [h.isFinite_top htopj, h.top_inNucleus htopj, h.top_amongTopK htopj]
      rfl
    rw [if_pos hkept]
  · intro j hj
    have hfill := h.fill_lt (h.isFinite_top htop)
    split <;> omega

end served

/-- The scaled logits. -/
def scaledLogits (ops : SamplerOps vocab) (logits : β → Fin vocab → Binary32)
    (params : SamplingParams β) (b : β) (i : Fin vocab) : Binary32 :=
  ops.divide (logits b i) (params.temperatures b)

/-- The logits that are drawn from: a token survives top-p, top-k and min-p exactly when it is in
the nucleus of the scaled row, fewer than `k` of the nucleus are larger, and it is not below the
min-p threshold of the whole row; the most likely tokens always survive. -/
theorem filteredLogits_survive (ops : SamplerOps vocab) (logits : β → Fin vocab → Binary32)
    (params : SamplingParams β) (b : β)
    (h : RowServed ops params (scaledLogits ops logits params b) b) :
    (∀ i, filteredLogits ops logits params b i =
      if survives ops params (scaledLogits ops logits params b) b i = true then
        scaledLogits ops logits params b i
      else maskFillValue) ∧
    ∀ i, (∀ j, Binary32.le (scaledLogits ops logits params b j)
        (scaledLogits ops logits params b i) = true) →
      survives ops params (scaledLogits ops logits params b) b i = true := by
  constructor
  · intro i
    have htopp : toppMask ops.toRowOps (scaledLogits ops logits params) params.topPs maskFillValue b =
        fun j => if inNucleus ops (scaledLogits ops logits params b) (params.topPs b) j = true then
          scaledLogits ops logits params b j else maskFillValue := by
      funext j
      exact toppMask_apply _ _ _ _ b j h.probs h.top_p
    have hrow : topkMask (toppMask ops.toRowOps (scaledLogits ops logits params) params.topPs
        maskFillValue) params.topKs maskFillValue b = fun j =>
          if ranked ops params (scaledLogits ops logits params b) b j = true then
            scaledLogits ops logits params b j else maskFillValue := by
      funext j
      exact h.topk_apply _ htopp
    have hfilter : filteredLogits ops logits params = if params.needMinPSampling then
        applyMinPFilter ops (topkMask (toppMask ops.toRowOps (scaledLogits ops logits params)
          params.topPs maskFillValue) params.topKs maskFillValue) params.minPs
        else topkMask (toppMask ops.toRowOps (scaledLogits ops logits params) params.topPs
          maskFillValue) params.topKs maskFillValue := rfl
    have hsurvives : ∀ z, survives ops params z b i = (ranked ops params z b i &&
      (!params.needMinPSampling ||
        !Binary32.lt (z i) (minPThreshold ops z (params.minPs b)))) := fun z => rfl
    rw [hfilter, hsurvives]
    cases params.needMinPSampling with
    | false =>
      rw [if_neg Bool.false_ne_true, hrow]
      simp
    | true =>
      rw [if_pos rfl]
      unfold applyMinPFilter minPThreshold
      rw [hrow, h.rowMax_ranked]
      dsimp only
      generalize ops.add _ _ = threshold
      by_cases hranked : ranked ops params (scaledLogits ops logits params b) b i = true
      · by_cases hlt : Binary32.lt (scaledLogits ops logits params b i) threshold = true
        · simp [hranked, hlt]
        · simp [hranked, hlt]
      · simp [hranked]
  · intro i htop
    exact h.top_survives fun j => (h.le_iff j i).mp (htop j)

/-- Two tokens of which the grammar has masked the second; the likelihoods are one and zero. -/
def maskedRow (_ : Unit) (i : Fin 2) : Binary32 := if i = 0 then 0x3f800000#32 else Binary32.negInf

def maskedOps : SamplerOps 2 where
  softmax _ i := if i = 0 then 0x3f800000#32 else Binary32.zero
  sum row := row 0
  divide x _ := x
  add _ y := y
  log _ := Binary32.negInf

def maskedParams : SamplingParams Unit where
  temperatures _ := 0x3f800000#32
  topKs _ := 2
  topPs _ := 0x3f800000#32
  minPs _ := Binary32.zero
  needMinPSampling := true

theorem maskedRow_served :
    RowServed maskedOps maskedParams (scaledLogits maskedOps maskedRow maskedParams ()) () where
  entries := by decide
  some_finite := ⟨0, by decide⟩
  probs := ⟨by decide, by decide⟩
  softmax_mono := by decide
  top_p := by decide
  top_k := by decide
  min_p := by
    intro m hm
    have hplace := (Binary32.isFinite_iff_place m).mp hm
    change Binary32.le Binary32.negInf m = true
    rw [Binary32.le_iff (by decide) (Binary32.isNaN_of_isFinite hm), Binary32.place_negInf]
    omega

theorem maskedRow_filtered : filteredLogits maskedOps maskedRow maskedParams () 0 = 0x3f800000#32 ∧
    filteredLogits maskedOps maskedRow maskedParams () 1 = maskFillValue := by
  have h := (filteredLogits_survive maskedOps maskedRow maskedParams () maskedRow_served).1
  rw [h 0, h 1]
  decide

end SglJax.Layers
