import SglJax.Speculative.DraftLists
import Mathlib.Algebra.Order.Ring.Basic
import Mathlib.Data.List.GetD
import Mathlib.Tactic.Ring

/-! The candidates that are selected for the tree contain what they extend: an extension
is no more likely than the sequence it extends, and comes behind it in the lists. -/
namespace SglJax.Speculative

variable {R : Type}

section Lists

variable [Mul R] [LinearOrder R] (draft : Nat → DraftOutput R) (topk : Nat) (empty : DraftState R)

/-- The candidate that is the `j`-th sequence kept by step `i`. -/
def kept : Nat → Nat → Nat
  | 0, j => j
  | i + 1, j =>
    topk + i * topk ^ 2 +
      (topkCsIndex (draft (i + 1)) (draftForward draft topk empty (i + 1)).scores topk).getD j 0

/-- The candidate that a candidate extends. The candidates of the first step extend the
verified token. -/
def parentOf (c : Nat) : Option Nat :=
  if c < topk then none
  else some (kept draft topk empty ((c - topk) / topk ^ 2) ((c - topk) % topk ^ 2 / topk))

variable {draft topk empty} {steps i j : Nat}

/-- The three slices of a step lie behind those of the steps before. -/
theorem row_lt {n : Nat} (hi : i < n) (hj : j < topk) : 1 + i * topk + j < 1 + n * topk := by
  have hle : (i + 1) * topk ≤ n * topk := Nat.mul_le_mul_right _ hi
  rw [Nat.add_mul] at hle
  omega

theorem scoreList_zero (h : 0 < steps) :
    (draftForward draft topk empty steps).lists.scoreList 0 = (draft 0).topkP 0 := by
  induction steps with
  | zero => omega
  | succ n ih =>
    unfold draftForward updateEagleLists
    dsimp only
    split
    · rename_i hn
      rw [hn]
      rfl
    · rename_i hn
      rw [← ih (by omega)]
      exact setSlice_of_lt (by omega)

theorem scoreList_succ (h : i + 1 < steps) (hj : j < topk) :
    (draftForward draft topk empty steps).lists.scoreList (1 + i * topk + j) =
      expandScores (draft (i + 1)) (draftForward draft topk empty (i + 1)).scores j := by
  induction steps with
  | zero => omega
  | succ n ih =>
    rw [draftForward]
    unfold updateEagleLists
    dsimp only
    rw [if_neg (by omega)]
    dsimp only
    by_cases hn : n = i + 1
    · subst hn
      rw [Nat.add_sub_cancel, setSlice_add hj]
      unfold selectedAt selectTopKTokens
      rw [if_neg (by omega)]
      rfl
    · rw [setSlice_of_lt (row_lt (by omega) hj)]
      exact ih (by omega)

theorem parentsList_zero (h : 0 < steps) (hj : j ≤ topk) :
    (draftForward draft topk empty steps).lists.parentsList j = (j : Int) - 1 := by
  induction steps with
  | zero => omega
  | succ n ih =>
    rw [draftForward]
    unfold updateEagleLists
    dsimp only
    split
    · rename_i hn
      rw [hn]
      dsimp only
      rw [← Nat.zero_add j, setSlice_add (by omega)]
      unfold selectedAt selectTopKTokens
      rw [if_pos rfl, Nat.zero_add]
      rfl
    · rw [← ih (by omega)]
      exact setSlice_of_lt (by omega)

theorem parentsList_succ (h : i + 1 < steps) (hj : j < topk) :
    (draftForward draft topk empty steps).lists.parentsList (topk + 1 + i * topk + j) =
      kept draft topk empty (i + 1) j := by
  induction steps with
  | zero => omega
  | succ n ih =>
    rw [draftForward]
    unfold updateEagleLists
    dsimp only
    rw [if_neg (by omega)]
    dsimp only
    by_cases hn : n = i + 1
    · subst hn
      rw [Nat.add_sub_cancel, setSlice_add hj]
      unfold selectedAt selectTopKTokens
      rw [if_neg (by omega)]
      unfold selectTopKTokensStepGreater0 kept
      dsimp only
      rw [Nat.add_sub_cancel]
      push_cast
      ring
    · have hrow : 1 + i * topk + j < 1 + (n - 1) * topk := row_lt (by omega) hj
      rw [setSlice_of_lt (by omega)]
      exact ih (by omega)

theorem csIndex_lt (output : DraftOutput R) (scores : Nat → R) (hj : j < topk) :
    (topkCsIndex output scores topk).getD j 0 < topk * topk := by
  have hlength : (topkCsIndex output scores topk).length = topk :=
    length_topK (Nat.le_mul_of_pos_left _ (by omega))
  rw [List.getD_eq_getElem _ _ (by omega)]
  exact lt_of_mem_topK (List.getElem_mem _)

theorem kept_lt (hj : j < topk) : kept draft topk empty i j < topk + i * topk ^ 2 := by
  cases i with
  | zero =>
    rw [kept]
    omega
  | succ i =>
    have hcs := csIndex_lt (draft (i + 1)) (draftForward draft topk empty (i + 1)).scores hj
    rw [kept, Nat.add_mul, Nat.one_mul]
    rw [← Nat.pow_two] at hcs
    omega

/-! ### Coordinates -/

theorem candidateCount_eq (topk steps : Nat) :
    candidateCount topk steps = topk + (steps - 1) * topk ^ 2 := by
  unfold candidateCount
  ring

theorem div_topk {q : Nat} (htopk : 0 < topk) :
    (topk + i * topk ^ 2 + q) / topk = 1 + i * topk + q / topk := by
  have heq : topk + i * topk ^ 2 + q = q + (1 + i * topk) * topk := by ring
  rw [heq, Nat.add_mul_div_right _ _ htopk, Nat.add_comm]

theorem mod_topk {q : Nat} : (topk + i * topk ^ 2 + q) % topk = q % topk := by
  have heq : topk + i * topk ^ 2 + q = q + (1 + i * topk) * topk := by ring
  rw [heq, Nat.add_mul_mod_self_right]

/-- A candidate of a later step, by its step and its place in it. -/
theorem exists_coordinates {c : Nat} (htopk : 0 < topk) (hfirst : topk ≤ c)
    (hc : c < candidateCount topk steps) :
    ∃ i q, i + 1 < steps ∧ q < topk ^ 2 ∧ c = topk + i * topk ^ 2 + q := by
  have hsquare : 0 < topk ^ 2 := Nat.pow_pos htopk
  have hsplit := Nat.div_add_mod' (c - topk) (topk ^ 2)
  refine ⟨(c - topk) / topk ^ 2, (c - topk) % topk ^ 2, ?_, Nat.mod_lt _ hsquare, by omega⟩
  rw [candidateCount_eq] at hc
  have hlt : (c - topk) / topk ^ 2 < steps - 1 := by
    rw [Nat.div_lt_iff_lt_mul hsquare]
    omega
  exact Nat.add_lt_of_lt_sub hlt

theorem div_lt {q : Nat} (hq : q < topk ^ 2) : q / topk < topk := by
  rw [Nat.pow_two] at hq
  exact Nat.div_lt_of_lt_mul hq

theorem parentOf_first {c : Nat} (h : c < topk) : parentOf draft topk empty c = none := if_pos h

theorem parentOf_later {q : Nat} (hq : q < topk ^ 2) :
    parentOf draft topk empty (topk + i * topk ^ 2 + q) =
      some (kept draft topk empty i (q / topk)) := by
  have hsquare : 0 < topk ^ 2 := by omega
  have hsub : topk + i * topk ^ 2 + q - topk = q + i * topk ^ 2 := by omega
  unfold parentOf
  rw [if_neg (by omega), hsub, Nat.add_mul_div_right _ _ hsquare, Nat.add_mul_mod_self_right,
    Nat.div_eq_of_lt hq, Nat.mod_eq_of_lt hq, Nat.zero_add]

/-- The list of parents holds the candidate that is extended. -/
theorem parentsList_eq {q : Nat} (h : i + 1 < steps) (hq : q < topk ^ 2) :
    (draftForward draft topk empty steps).lists.parentsList
        ((topk + i * topk ^ 2 + q) / topk) =
      kept draft topk empty i (q / topk) := by
  have htopk : 0 < topk := Nat.pos_of_ne_zero (by rintro rfl; simp at hq)
  have hlt := div_lt hq
  rw [div_topk htopk]
  cases i with
  | zero =>
    rw [parentsList_zero (by omega) (by omega), kept]
    push_cast
    ring
  | succ i =>
    have hindex : 1 + (i + 1) * topk + q / topk = topk + 1 + i * topk + q / topk := by ring
    rw [hindex, parentsList_succ (by omega) hlt]

/-! ### Scores -/

theorem scoreTensor_first {c : Nat} (h : 0 < steps) (hc : c < topk) :
    scoreTensor (draftForward draft topk empty steps).lists topk c = (draft 0).topkP 0 c := by
  unfold scoreTensor
  rw [Nat.div_eq_of_lt hc, Nat.mod_eq_of_lt hc, scoreList_zero h]

theorem scoreTensor_later {q : Nat} (h : i + 1 < steps) (hq : q < topk ^ 2) :
    scoreTensor (draftForward draft topk empty steps).lists topk (topk + i * topk ^ 2 + q) =
      expandScores (draft (i + 1)) (draftForward draft topk empty (i + 1)).scores (q / topk)
        (q % topk) := by
  have htopk : 0 < topk := Nat.pos_of_ne_zero (by rintro rfl; simp at hq)
  unfold scoreTensor
  rw [div_topk htopk, mod_topk, scoreList_succ h (div_lt hq)]

/-- A kept sequence has the score it was kept with. -/
theorem scoreTensor_kept (h : i < steps) (hj : j < topk) :
    scoreTensor (draftForward draft topk empty steps).lists topk (kept draft topk empty i j) =
      (draftForward draft topk empty (i + 1)).scores j := by
  cases i with
  | zero =>
    rw [kept, scoreTensor_first h hj]
    rfl
  | succ i =>
    have hcs := csIndex_lt (draft (i + 1)) (draftForward draft topk empty (i + 1)).scores hj
    rw [kept, scoreTensor_later h (by rw [Nat.pow_two]; exact hcs)]
    rfl

end Lists

/-! ### Closure -/

section Closure

variable [Semiring R] [LinearOrder R] {draft : Nat → DraftOutput R}
  {topk : Nat} {empty : DraftState R} {steps i j : Nat}

/-- The draft model returns probabilities. -/
def Probabilities (draft : Nat → DraftOutput R) (topk : Nat) : Prop :=
  ∀ i j m, j < topk → m < topk → 0 ≤ (draft i).topkP j m ∧ (draft i).topkP j m ≤ 1

theorem scores_nonneg [IsStrictOrderedRing R] (h : Probabilities draft topk) (hj : j < topk) :
    0 ≤ (draftForward draft topk empty (i + 1)).scores j := by
  induction i generalizing j with
  | zero => exact (h 0 0 j (by omega) hj).1
  | succ i ih =>
    have hcs := csIndex_lt (draft (i + 1)) (draftForward draft topk empty (i + 1)).scores hj
    have hrow := Nat.div_lt_of_lt_mul hcs
    have hcol := Nat.mod_lt
      ((topkCsIndex (draft (i + 1)) (draftForward draft topk empty (i + 1)).scores topk).getD j 0)
      (show 0 < topk by omega)
    exact mul_nonneg (ih hrow) (h (i + 1) _ _ hrow hcol).1

/-- What a candidate extends is a candidate before it that is at least as likely. -/
theorem precedes_parent [IsStrictOrderedRing R] {c p : Nat} (h : Probabilities draft topk)
    (hc : c < candidateCount topk steps) (hp : parentOf draft topk empty c = some p) :
    p < c ∧ Precedes (scoreTensor (draftForward draft topk empty steps).lists topk) p c := by
  have hfirst : topk ≤ c := by
    by_contra hlt
    rw [parentOf_first (by omega)] at hp
    cases hp
  have htopk : 0 < topk := by
    apply Nat.pos_of_ne_zero
    rintro rfl
    simp [candidateCount] at hc
  obtain ⟨i, q, hi, hq, rfl⟩ := exists_coordinates htopk hfirst hc
  rw [parentOf_later hq] at hp
  obtain rfl := Option.some.inj hp
  have hrow := div_lt hq
  have hlt : kept draft topk empty i (q / topk) < topk + i * topk ^ 2 + q :=
    Nat.lt_of_lt_of_le (kept_lt hrow) (Nat.le_add_right _ _)
  refine ⟨hlt, ?_⟩
  have hle : scoreTensor (draftForward draft topk empty steps).lists topk
      (topk + i * topk ^ 2 + q) ≤ scoreTensor (draftForward draft topk empty steps).lists topk
        (kept draft topk empty i (q / topk)) := by
    rw [scoreTensor_later hi hq, scoreTensor_kept (by omega) hrow]
    exact mul_le_of_le_one_right (scores_nonneg h hrow) (h (i + 1) _ _ hrow (Nat.mod_lt _ htopk)).2
  rcases lt_or_eq_of_le hle with hscore | hscore
  · exact .inl hscore
  · exact .inr ⟨hscore.symm, hlt.le⟩

variable {verifiedId numVerifyTokens : Nat}

/-- The input for the tree after all steps. -/
def treeInput (draft : Nat → DraftOutput R) (topk : Nat) (empty : DraftState R)
    (verifiedId numVerifyTokens steps : Nat) : TreeInput :=
  buildTreeKernelEfficientPreprocess verifiedId (draftForward draft topk empty steps).lists topk
    numVerifyTokens steps

theorem mem_selectedIndex {c : Nat} :
    c ∈ (treeInput draft topk empty verifiedId numVerifyTokens steps).selectedIndex ↔
      c ∈ topK (numVerifyTokens - 1) (candidateCount topk steps)
        (scoreTensor (draftForward draft topk empty steps).lists topk) :=
  List.mem_insertionSort _

/-- The selected candidates contain what they extend. -/
theorem parentOf_mem_selectedIndex [IsStrictOrderedRing R] {c p : Nat}
    (h : Probabilities draft topk)
    (hc : c ∈ (treeInput draft topk empty verifiedId numVerifyTokens steps).selectedIndex)
    (hp : parentOf draft topk empty c = some p) :
    p ∈ (treeInput draft topk empty verifiedId numVerifyTokens steps).selectedIndex := by
  rw [mem_selectedIndex] at hc ⊢
  have hlt := lt_of_mem_topK hc
  obtain ⟨hpc, hprecedes⟩ := precedes_parent h hlt hp
  exact mem_topK_of_precedes hc hprecedes (hpc.trans hlt)

theorem length_selectedIndex (h : numVerifyTokens - 1 ≤ candidateCount topk steps) :
    (treeInput draft topk empty verifiedId numVerifyTokens steps).selectedIndex.length =
      numVerifyTokens - 1 := by
  unfold treeInput buildTreeKernelEfficientPreprocess
  dsimp only
  rw [List.length_insertionSort, length_topK h]

/-- The selected candidates are listed in their order, each once. -/
theorem sorted_selectedIndex :
    (treeInput draft topk empty verifiedId numVerifyTokens steps).selectedIndex.Pairwise
      (· < ·) := by
  unfold treeInput buildTreeKernelEfficientPreprocess
  dsimp only
  have hnodup := (List.perm_insertionSort (· ≤ ·) (topK (numVerifyTokens - 1)
    (candidateCount topk steps) (scoreTensor (draftForward draft topk empty steps).lists
      topk))).nodup_iff.mpr (nodup_topK _ _ _)
  have hsorted := List.pairwise_insertionSort (· ≤ ·) (topK (numVerifyTokens - 1)
    (candidateCount topk steps) (scoreTensor (draftForward draft topk empty steps).lists topk))
  exact (hsorted.and hnodup).imp fun h => lt_of_le_of_ne h.1 h.2

/-- Which candidate the lists give as the parent of a selected one. -/
theorem parentList_spec {c : Nat}
    (hc : c ∈ (treeInput draft topk empty verifiedId numVerifyTokens steps).selectedIndex) :
    (c / topk = 0 ∧ parentOf draft topk empty c = none) ∨
      (0 < c / topk ∧ ∃ p, parentOf draft topk empty c = some p ∧
        (treeInput draft topk empty verifiedId numVerifyTokens steps).parentList (c / topk) = p) := by
  rw [mem_selectedIndex] at hc
  have hlt := lt_of_mem_topK hc
  have htopk : 0 < topk := by
    apply Nat.pos_of_ne_zero
    rintro rfl
    simp [candidateCount] at hlt
  by_cases hfirst : c < topk
  · exact .inl ⟨Nat.div_eq_of_lt hfirst, parentOf_first hfirst⟩
  · obtain ⟨i, q, hi, hq, rfl⟩ := exists_coordinates htopk (by omega) hlt
    right
    rw [div_topk htopk]
    refine ⟨Nat.lt_of_lt_of_le Nat.zero_lt_one (by rw [Nat.add_assoc]; exact Nat.le_add_right _ _),
      _, parentOf_later hq, ?_⟩
    unfold treeInput buildTreeKernelEfficientPreprocess
    dsimp only
    rw [if_pos (by omega), ← div_topk htopk]
    exact parentsList_eq hi hq

end Closure

end SglJax.Speculative
