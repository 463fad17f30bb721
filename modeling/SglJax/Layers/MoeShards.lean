import Mathlib.Algebra.BigOperators.Fin
import SglJax.Foundation.Results
import SglJax.Layers.Moe

/-! What one shard of the layer of experts adds to a token. -/
namespace SglJax.Layers

open Lora (Mat)
open Foundation

variable {K : Type}

/-- The kernels do what they are documented to. Rows of groups that a shard does not have are
zero where that is asked for, and anything otherwise. -/
structure MoeKernels.Sound [CommRing K] (kernels : MoeKernels K) : Prop where
  length : ∀ {k n groups : Nat} (lhs : List (Fin k → K))
    (rhs : Fin groups → Matrix (Fin k) (Fin n) K) sizes offset zeroInitialize,
    sizes.sum = lhs.length → offset + groups ≤ sizes.length →
    (kernels.gmm lhs rhs sizes offset zeroInitialize).length = lhs.length
  visited : ∀ {k n groups : Nat} (lhs : List (Fin k → K))
    (rhs : Fin groups → Matrix (Fin k) (Fin n) K) sizes offset zeroInitialize,
    sizes.sum = lhs.length → offset + groups ≤ sizes.length →
    ∀ (g : Fin groups) (r : Nat) x, InGroup sizes (offset + g) r → lhs[r]? = some x →
    (kernels.gmm lhs rhs sizes offset zeroInitialize)[r]? = some (Matrix.vecMul x (rhs g))
  unvisited : ∀ {k n groups : Nat} (lhs : List (Fin k → K))
    (rhs : Fin groups → Matrix (Fin k) (Fin n) K) sizes offset,
    sizes.sum = lhs.length → offset + groups ≤ sizes.length →
    ∀ (g r : Nat), InGroup sizes g r → ¬ (offset ≤ g ∧ g < offset + groups) →
    (kernels.gmm lhs rhs sizes offset true)[r]? = some 0
  raggedGather_length : ∀ {k : Nat} (inputs : List (Fin k → K)) indices start stop,
    (kernels.raggedGather inputs indices start stop).length = indices.length
  raggedGather : ∀ {k : Nat} (inputs : List (Fin k → K)) (indices : List Nat) start stop
    (i j : Nat), start ≤ i → i < stop → indices[i]? = some j →
    (kernels.raggedGather inputs indices start stop)[i]? = some (inputs.getD j 0)
  raggedGatherReduce : ∀ {n : Nat} (rows : List (Fin n → K)) indices weights mask topK,
    kernels.raggedGatherReduce rows indices weights mask topK =
      (List.range (indices.length / topK)).map fun b => ((List.range topK).map fun k =>
        (mask.zipWith (fun valid weight => if valid then weight else 0) weights).getD
          (b * topK + k) 0 • rows.getD (indices.getD (b * topK + k) 0) 0).sum

section Gmm

variable {k n groups : Nat} {kernels : MoeKernels K} {lhs : List (Fin k → K)}
  {rhs : Fin groups → Matrix (Fin k) (Fin n) K} {sizes : List Nat} {offset : Nat}

theorem bumpLast_concat (pad last : Nat) (init : List Nat) :
    bumpLast pad (init ++ [last]) = init ++ [last + pad] := by
  unfold bumpLast
  rw [List.length_append, List.length_singleton, Nat.add_sub_cancel]
  induction init with
  | nil => rfl
  | cons size init ih => rw [List.cons_append, List.length_cons, List.modify_succ_cons, ih]; rfl

theorem inGroup_bumpLast {g r : Nat} (h : InGroup sizes g r) (pad : Nat) :
    InGroup (bumpLast pad sizes) g r := by
  obtain ⟨hg, hle, hlt⟩ := h
  obtain ⟨init, last, rfl⟩ : ∃ init last, sizes = init ++ [last] := by
    rcases List.eq_nil_or_concat' sizes with rfl | ⟨init, last, rfl⟩
    · exact absurd hg (Nat.not_lt_zero g)
    · exact ⟨init, last, rfl⟩
  rw [List.length_append, List.length_singleton] at hg
  rw [List.take_append_of_le_length (by omega)] at hle
  rw [bumpLast_concat]
  refine ⟨by simpa using hg, by rwa [List.take_append_of_le_length (by omega)], ?_⟩
  rcases Nat.lt_or_ge g init.length with hinit | hlast
  · rw [List.take_append_of_le_length hinit] at hlt ⊢
    exact hlt
  · rw [List.take_of_length_le (by simpa using hlast)] at hlt ⊢
    rw [List.sum_append, List.sum_singleton] at hlt ⊢
    omega

theorem ne_nil_of_padded (hsum : sizes.sum = lhs.length)
    (hpad : 0 < padSize kernels.alignment lhs.length) : sizes ≠ [] := by
  rintro rfl
  rw [List.sum_nil] at hsum
  rw [← hsum] at hpad
  unfold padSize at hpad
  split at hpad <;> simp at hpad

variable [CommRing K]

/-- What the padded call reads. -/
theorem padded_sizes {pad : Nat} (hsum : sizes.sum = lhs.length) (hne : sizes ≠ []) :
    (bumpLast pad sizes).sum = (lhs ++ List.replicate pad 0).length ∧
      (bumpLast pad sizes).length = sizes.length := by
  obtain ⟨init, last, rfl⟩ := (List.eq_nil_or_concat' sizes).resolve_left hne
  rw [bumpLast_concat]
  rw [List.sum_append, List.sum_singleton] at hsum
  refine ⟨?_, by simp⟩
  rw [List.sum_append, List.sum_singleton, List.length_append, List.length_replicate]
  omega

variable (hk : kernels.Sound)
include hk

theorem length_gmm (hsum : sizes.sum = lhs.length) (hoffset : offset + groups ≤ sizes.length)
    (zeroInitialize : Bool) :
    (gmm kernels lhs rhs sizes offset zeroInitialize).length = lhs.length := by
  unfold gmm
  dsimp only
  split
  · next hpad =>
    obtain ⟨hsum', hlength⟩ := padded_sizes hsum (ne_nil_of_padded hsum hpad)
    rw [List.length_take, hk.length _ _ _ _ _ hsum' (by rwa [hlength])]
    simp
  · exact hk.length _ _ _ _ _ hsum hoffset

theorem gmm_visited (rhs : Fin groups → Matrix (Fin k) (Fin n) K)
    (hsum : sizes.sum = lhs.length) (hoffset : offset + groups ≤ sizes.length)
    (zeroInitialize : Bool) {g : Fin groups} {r : Nat} {x : Fin k → K}
    (hg : InGroup sizes (offset + g) r) (hx : lhs[r]? = some x) :
    (gmm kernels lhs rhs sizes offset zeroInitialize)[r]? = some (Matrix.vecMul x (rhs g)) := by
  have hr := (List.getElem?_eq_some_iff.mp hx).1
  unfold gmm
  dsimp only
  split
  · next hpad =>
    obtain ⟨hsum', hlength⟩ := padded_sizes hsum (ne_nil_of_padded hsum hpad)
    rw [List.getElem?_take_of_lt hr]
    exact hk.visited _ _ _ _ _ hsum' (by rwa [hlength]) g r x (inGroup_bumpLast hg _)
      (by rw [List.getElem?_append_left hr, hx])
  · exact hk.visited _ _ _ _ _ hsum hoffset g r x hg hx

theorem gmm_unvisited (hsum : sizes.sum = lhs.length) (hoffset : offset + groups ≤ sizes.length)
    {g r : Nat} (hg : InGroup sizes g r) (hr : r < lhs.length)
    (hout : ¬ (offset ≤ g ∧ g < offset + groups)) :
    (gmm kernels lhs rhs sizes offset true)[r]? = some 0 := by
  unfold gmm
  dsimp only
  split
  · next hpad =>
    obtain ⟨hsum', hlength⟩ := padded_sizes hsum (ne_nil_of_padded hsum hpad)
    rw [List.getElem?_take_of_lt hr]
    exact hk.unvisited _ _ _ _ hsum' (by rwa [hlength]) g r (inGroup_bumpLast hg _) hout
  · exact hk.unvisited _ _ _ _ hsum hoffset g r hg hout

end Gmm

namespace EPMoE

variable (moe : EPMoE K)

theorem dispatch_eq (expertShard : Fin moe.epSize) :
    moe.dispatch expertShard = expertShard * moe.expertsPerDevice := by
  unfold dispatch
  split
  · next h =>
    have hzero : (expertShard : Nat) = 0 := by
      have := expertShard.isLt
      omega
    rw [hzero, Nat.zero_mul]
  · rfl

theorem dispatch_le (expertShard : Fin moe.epSize) :
    expertShard * moe.expertsPerDevice + moe.expertsPerDevice ≤ moe.numExperts := by
  rw [← Nat.succ_mul]
  exact Nat.mul_le_mul_right _ expertShard.isLt

/-- The routing of a batch: an expert for each place, and all of them exist. -/
structure Routes (numTokens : Nat) (topkIds : Mat Nat) : Prop where
  shape : topkIds.shape = (numTokens, moe.numExpertsPerTok)
  lt : ∀ row ∈ topkIds.rows, ∀ expert ∈ row, expert < moe.numExperts
  topK_pos : 0 < moe.numExpertsPerTok

variable {moe} {topkIds : Mat Nat}

/-- What `_permute` gives for a routing. -/
def permuted (moe : EPMoE K) (topkIds : Mat Nat) : Permuted :=
  ⟨(argsort topkIds.rows.flatten).map (· / moe.numExpertsPerTok),
    argsort topkIds.rows.flatten, bincount moe.numExperts topkIds.rows.flatten⟩

@[simp] theorem length_groupSizes (moe : EPMoE K) (topkIds : Mat Nat) :
    (moe.permuted topkIds).groupSizes.length = moe.numExperts :=
  length_bincount _ _

namespace Routes

variable {numTokens : Nat} (h : moe.Routes numTokens topkIds)
include h

theorem permute_eq : moe.permute numTokens topkIds = .ok (moe.permuted topkIds) :=
  if_neg (not_not_intro h.shape)

theorem rows_length : topkIds.rows.length = numTokens := congrArg Prod.fst h.shape

theorem row_length {row : List Nat} (hrow : row ∈ topkIds.rows) :
    row.length = moe.numExpertsPerTok :=
  (topkIds.length_row row hrow).trans (congrArg Prod.snd h.shape)

theorem length_flatten : topkIds.rows.flatten.length = numTokens * moe.numExpertsPerTok := by
  rw [length_flatten_of_width fun row hrow => h.row_length hrow, h.rows_length]

theorem lt_flatten {slot expert : Nat} (hget : topkIds.rows.flatten[slot]? = some expert) :
    expert < moe.numExperts := by
  obtain ⟨row, hrow, hmem⟩ := List.mem_flatten.mp (List.mem_of_getElem? hget)
  exact h.lt row hrow expert hmem

theorem sum_groupSizes :
    (moe.permuted topkIds).groupSizes.sum = topkIds.rows.flatten.length := by
  have hall := sum_take_bincount topkIds.rows.flatten (le_refl moe.numExperts)
  rw [List.take_of_length_le (length_bincount _ _).le] at hall
  refine hall.trans (List.countP_eq_length.mpr ?_)
  intro expert hexpert
  obtain ⟨slot, hslot⟩ := List.mem_iff_getElem?.mp hexpert
  simpa using h.lt_flatten hslot

end Routes

theorem length_tokenIndices (moe : EPMoE K) (topkIds : Mat Nat) :
    (moe.permuted topkIds).tokenIndices.length = topkIds.rows.flatten.length := by
  simp [permuted]

section Gather

variable [CommRing K] {inputs : List moe.Row} {kernels : MoeKernels K}

section Row

variable {i slot expert : Nat} (hi : (argsort topkIds.rows.flatten)[i]? = some slot)
include hi

omit [CommRing K] in
theorem getElem?_tokenIndices :
    (moe.permuted topkIds).tokenIndices[i]? = some (slot / moe.numExpertsPerTok) := by
  rw [permuted, List.getElem?_map, hi, Option.map_some]

/-- The rows of the shard's own experts are gathered, also where the others are not. -/
theorem getElem?_gatherRows (hk : kernels.Sound) {range : Option (Nat × Nat)}
    (hrange : ∀ r ∈ range, r.1 ≤ i ∧ i < r.2) :
    (moe.gatherRows kernels inputs (moe.permuted topkIds).tokenIndices range)[i]? =
      some (inputs.getD (slot / moe.numExpertsPerTok) 0) := by
  have hindex : (moe.permuted topkIds).tokenIndices[i]? = some (slot / moe.numExpertsPerTok) :=
    getElem?_tokenIndices hi
  have hplain : ((moe.permuted topkIds).tokenIndices.map fun i => inputs.getD i 0)[i]? =
      some (inputs.getD (slot / moe.numExpertsPerTok) 0) := by
    rw [List.getElem?_map, hindex, Option.map_some]
  unfold gatherRows
  split
  · next start stop =>
    obtain ⟨hstart, hstop⟩ := hrange _ rfl
    split
    · exact hk.raggedGather _ _ _ _ i _ hstart hstop hindex
    · exact hplain
  · exact hplain

end Row

theorem length_gatherRows (hk : kernels.Sound) (range : Option (Nat × Nat)) :
    (moe.gatherRows kernels inputs (moe.permuted topkIds).tokenIndices range).length =
      topkIds.rows.flatten.length := by
  rw [← length_tokenIndices moe]
  unfold gatherRows
  split
  · split
    · exact hk.raggedGather_length _ _ _ _
    · exact List.length_map _
  · exact List.length_map _

end Gather

section Output

variable [CommRing K] [LinearOrder K]

/-- What a shard adds for an expert: something only when the expert is its own. -/
def shardOutput (moe : EPMoE K) (fns : ActivationFns K)
    (expertShard : Fin moe.epSize) (tensorShard : Fin moe.tpSize) (expert : Nat)
    (x : moe.Row) : moe.Row :=
  if h : expert - expertShard * moe.expertsPerDevice < moe.expertsPerDevice ∧
      expertShard * moe.expertsPerDevice ≤ expert then
    Matrix.vecMul (fun j => moe.activate fns
        (Matrix.vecMul x (moe.shardWi expertShard tensorShard moe.wi0 ⟨_, h.1⟩) j)
        (Matrix.vecMul x (moe.shardWi expertShard tensorShard moe.wi1 ⟨_, h.1⟩) j))
      (moe.shardWo expertShard tensorShard ⟨_, h.1⟩)
  else 0

variable {fns : ActivationFns K} {inputs : List moe.Row} {kernels : MoeKernels K}
  {expertShard : Fin moe.epSize} {tensorShard : Fin moe.tpSize}

omit [CommRing K] [LinearOrder K] in
/-- The rows of the shard's experts are in the range that the sparse cores gather. -/
theorem Routes.localRange {numTokens : Nat} (h : moe.Routes numTokens topkIds)
    (kernels : MoeKernels K) (expertShard : Fin moe.epSize) {i slot expert : Nat}
    (hi : (argsort topkIds.rows.flatten)[i]? = some slot)
    (hexpert : topkIds.rows.flatten[slot]? = some expert)
    (hlocal : expertShard * moe.expertsPerDevice ≤ expert ∧
      expert < expertShard * moe.expertsPerDevice + moe.expertsPerDevice) :
    ∀ r ∈ (moe.sparseInfo kernels (moe.permuted topkIds) topkIds
      (moe.dispatch expertShard)).bind SparseInfo.localRange, r.1 ≤ i ∧ i < r.2 := by
  intro r hr
  obtain ⟨info, hinfo, hrange⟩ := Option.bind_eq_some_iff.mp hr
  unfold sparseInfo at hinfo
  rw [Option.ite_none_right_eq_some] at hinfo
  obtain ⟨-, hinfo⟩ := hinfo
  cases hinfo
  rw [Option.ite_none_right_eq_some] at hrange
  obtain ⟨-, hrange⟩ := hrange
  cases hrange
  obtain ⟨-, hle, hlt⟩ : InGroup (moe.permuted topkIds).groupSizes expert i :=
    inGroup_argsort hi hexpert (h.lt_flatten hexpert)
  have hoffset := moe.dispatch_le expertShard
  have hsizes := length_groupSizes moe topkIds
  rw [moe.dispatch_eq]
  refine ⟨?_, ?_⟩
  · refine le_trans ?_ ((sum_take_le _ hlocal.1).trans hle)
    split
    · exact Nat.zero_le _
    · exact (cumsum_getD (by omega) (by omega)).le
  · refine lt_of_lt_of_le hlt ((sum_take_le _ (show expert + 1 ≤ _ from hlocal.2)).trans ?_)
    exact (cumsum_getD (by omega) (by omega)).ge

/-- The rows that a shard multiplies, in the order of their experts. -/
theorem getElem?_gmmCompute {numTokens : Nat} (h : moe.Routes numTokens topkIds)
    (hk : kernels.Sound) {i slot expert : Nat}
    (hi : (argsort topkIds.rows.flatten)[i]? = some slot)
    (hexpert : topkIds.rows.flatten[slot]? = some expert) :
    (moe.gmmCompute expertShard tensorShard fns kernels inputs (moe.permuted topkIds)
      (moe.dispatch expertShard) ((moe.sparseInfo kernels (moe.permuted topkIds) topkIds
        (moe.dispatch expertShard)).bind SparseInfo.localRange))[i]? =
      some (moe.shardOutput fns expertShard tensorShard expert
        (inputs.getD (slot / moe.numExpertsPerTok) 0)) := by
  have hlt : i < topkIds.rows.flatten.length := by
    rw [← length_argsort]
    exact (List.getElem?_eq_some_iff.mp hi).1
  have hgroup : InGroup (moe.permuted topkIds).groupSizes expert i :=
    inGroup_argsort hi hexpert (h.lt_flatten hexpert)
  have hoffset : expertShard * moe.expertsPerDevice + moe.expertsPerDevice ≤
      (moe.permuted topkIds).groupSizes.length :=
    (moe.dispatch_le expertShard).trans (length_groupSizes moe topkIds).ge
  have hrows := h.localRange kernels expertShard hi hexpert
  rw [moe.dispatch_eq] at hrows ⊢
  unfold gmmCompute
  rw [if_neg (by rw [length_tokenIndices]; omega)]
  dsimp only
  generalize hx : moe.gatherRows kernels inputs _ _ = x
  have hsum : (moe.permuted topkIds).groupSizes.sum = x.length := by
    rw [← hx, length_gatherRows hk, h.sum_groupSizes]
  have hxi : i < x.length := by rwa [← hsum, h.sum_groupSizes]
  generalize hmid : List.zipWith _ _ _ = intermediate
  have hmidSum : (moe.permuted topkIds).groupSizes.sum = intermediate.length := by
    rw [← hmid, List.length_zipWith, length_gmm hk hsum hoffset, length_gmm hk hsum hoffset,
      Nat.min_self, hsum]
  by_cases hlocal : expert - expertShard * moe.expertsPerDevice < moe.expertsPerDevice ∧
      expertShard * moe.expertsPerDevice ≤ expert
  · have hinput : x[i]? = some (inputs.getD (slot / moe.numExpertsPerTok) 0) := by
      rw [← hx]
      exact getElem?_gatherRows hi hk (hrows ⟨hlocal.2, by omega⟩)
    have hown : InGroup (moe.permuted topkIds).groupSizes (expertShard * moe.expertsPerDevice +
        (⟨_, hlocal.1⟩ : Fin moe.expertsPerDevice)) i := by
      rwa [Nat.add_sub_cancel' hlocal.2]
    have hw0 := gmm_visited hk (moe.shardWi expertShard tensorShard moe.wi0) hsum hoffset false
      hown hinput
    have hw1 := gmm_visited hk (moe.shardWi expertShard tensorShard moe.wi1) hsum hoffset false
      hown hinput
    have hmidi := congrArg (·[i]?) hmid
    simp only [List.getElem?_zipWith, hw0, hw1] at hmidi
    rw [gmm_visited hk _ hmidSum hoffset true hown hmidi.symm, shardOutput, dif_pos hlocal]
  · rw [gmm_unvisited hk hmidSum hoffset hgroup (by omega) (by omega), shardOutput,
      dif_neg hlocal]

end Output

end EPMoE

end SglJax.Layers
