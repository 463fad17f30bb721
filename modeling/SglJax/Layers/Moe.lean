import Mathlib.Data.Matrix.Mul
import Mathlib.Logic.Equiv.Fin.Basic
import SglJax.Foundation.Segments
import SglJax.Lora.LoraWeights

/-! A layer of experts on a mesh of expert and tensor shards. The rows are sorted by their
expert, every shard multiplies those of its own experts, and the results go back to the order
of the tokens before the shards are added up. -/
namespace SglJax.Layers

open Lora (Mat)
open Foundation

inductive MoeError where
  /-- `"EPMoE._permute expects routing indices with shape "` and the two shapes -/
  | routingIndices (expected shape : Nat × Nat)
  /-- `"EPMoE._unpermute expects 2-D routing weights "` and the shape -/
  | routingWeights (topK : Nat) (shape : Nat × Nat)
  /-- `"EPMoE._unpermute expects 1-D sorted routing indices with "` and the two numbers -/
  | sortedIndices (expected entries : Nat)
  /-- No contribution to add up. -/
  | attributeError
deriving DecidableEq, Repr

inductive Activation where
  | silu
  | gelu
  | swigluoai
deriving DecidableEq, Repr

/-- `jax.nn.silu`, `jax.nn.gelu` and `jax.nn.sigmoid` -/
structure ActivationFns (K : Type) where
  silu : K → K
  gelu : K → K
  sigmoid : K → K

/-- The kernels of the layer. `gmm` multiplies the rows of each group by the matrix of the
group, for the groups from `groupOffset` on. -/
structure MoeKernels (K : Type) where
  gmm : {k n groups : Nat} → List (Fin k → K) → (Fin groups → Matrix (Fin k) (Fin n) K) →
    List Nat → Nat → Bool → List (Fin n → K)
  /-- What `gmm` pads the rows to, except in interpret mode. -/
  alignment : Option Nat
  /-- `should_use_sparse_core` for a number of rows and columns -/
  shouldUseSparseCore : Nat → Nat → Bool
  raggedGather : {k : Nat} → List (Fin k → K) → List Nat → Nat → Nat → List (Fin k → K)
  /-- Whether the data types are those of the fused reduction. -/
  reducible : Bool
  raggedGatherReduce : {n : Nat} → List (Fin n → K) → List Nat → List K → List Bool → Nat →
    List (Fin n → K)

/-- The experts, with the intermediate dimension cut into shards. -/
structure EPMoE (K : Type) where
  hiddenSize : Nat
  numExpertsPerTok : Nat
  epSize : Nat
  expertsPerDevice : Nat
  tpSize : Nat
  shardDim : Nat
  activation : Activation
  swigluAlpha : K
  swigluLimit : K
  useScPermute : Bool
  wi0 : Fin (epSize * expertsPerDevice) → Matrix (Fin hiddenSize) (Fin (tpSize * shardDim)) K
  wi1 : Fin (epSize * expertsPerDevice) → Matrix (Fin hiddenSize) (Fin (tpSize * shardDim)) K
  wo : Fin (epSize * expertsPerDevice) → Matrix (Fin (tpSize * shardDim)) (Fin hiddenSize) K

variable {K : Type} [CommRing K] [LinearOrder K]

section Gmm

variable {k n groups : Nat}

/-- `group_sizes.at[-1].add(pad_size)` -/
def bumpLast (padSize : Nat) (groupSizes : List Nat) : List Nat :=
  groupSizes.modify (groupSizes.length - 1) (· + padSize)

/-- How many rows are missing to a multiple. -/
def padSize (alignment : Option Nat) (m : Nat) : Nat :=
  match alignment with
  | some alignment => if m % alignment ≠ 0 then alignment - m % alignment else 0
  | none => 0

/-- The rows are padded, which the last group takes, and the padding is cut off again. -/
def gmm (kernels : MoeKernels K) (lhs : List (Fin k → K))
    (rhs : Fin groups → Matrix (Fin k) (Fin n) K) (groupSizes : List Nat) (groupOffset : Nat)
    (zeroInitialize : Bool) : List (Fin n → K) :=
  let pad := padSize kernels.alignment lhs.length
  if 0 < pad then
    (kernels.gmm (lhs ++ List.replicate pad 0) rhs (bumpLast pad groupSizes) groupOffset
      zeroInitialize).take lhs.length
  else kernels.gmm lhs rhs groupSizes groupOffset zeroInitialize

end Gmm

/-- The rows in the order of their experts. -/
structure Permuted where
  tokenIndices : List Nat
  sortedSelectedExperts : List Nat
  groupSizes : List Nat
deriving DecidableEq, Repr

namespace EPMoE

variable (moe : EPMoE K)

def numExperts : Nat := moe.epSize * moe.expertsPerDevice

abbrev Row := Fin moe.hiddenSize → K

/-- A row as the activation function leaves it. -/
def activate (fns : ActivationFns K) (layerW0 layerW1 : K) : K :=
  match moe.activation with
  | .silu => fns.silu layerW0 * layerW1
  | .gelu => fns.gelu layerW0 * layerW1
  | .swigluoai =>
    let gate := min layerW0 moe.swigluLimit
    let up := min (max layerW1 (-moe.swigluLimit)) moe.swigluLimit
    (up + 1) * gate * fns.sigmoid (gate * moe.swigluAlpha)

/-- `_permute` -/
def permute (numTokens : Nat) (topkIds : Mat Nat) : Except MoeError Permuted :=
  if topkIds.shape ≠ (numTokens, moe.numExpertsPerTok) then
    .error (.routingIndices (numTokens, moe.numExpertsPerTok) topkIds.shape)
  else
    let flattenSelectedExperts := topkIds.rows.flatten
    let sortedSelectedExperts := argsort flattenSelectedExperts
    .ok ⟨sortedSelectedExperts.map (· / moe.numExpertsPerTok), sortedSelectedExperts,
      bincount moe.numExperts flattenSelectedExperts⟩

/-- `_dispatch` -/
def dispatch (expertShardId : Nat) : Nat :=
  if moe.epSize ≤ 1 then 0 else expertShardId * moe.expertsPerDevice

/-- What the sparse cores are told: the rows of this shard's experts, and which places of the
routing name one of them. -/
structure SparseInfo where
  localRange : Option (Nat × Nat)
  validMask : List Bool

def sparseInfo (kernels : MoeKernels K) (permuted : Permuted) (topkIds : Mat Nat)
    (groupOffset : Nat) : Option SparseInfo :=
  if moe.useScPermute ∧
      kernels.shouldUseSparseCore permuted.tokenIndices.length moe.hiddenSize then
    let csum := cumsum permuted.groupSizes
    let start := if groupOffset = 0 then 0 else csum.getD (groupOffset - 1) 0
    let stop := csum.getD (groupOffset + moe.expertsPerDevice - 1) 0
    some {
      localRange := if 1 < moe.epSize then some (start, stop) else none
      validMask := topkIds.rows.flatten.map fun expert =>
        groupOffset ≤ expert ∧ expert < groupOffset + moe.expertsPerDevice }
  else none

/-- `inputs_2d[token_indices]`, of which the sparse cores gather some rows only. -/
def gatherRows (kernels : MoeKernels K) (inputs : List moe.Row) (tokenIndices : List Nat)
    (localRange : Option (Nat × Nat)) : List moe.Row :=
  match localRange with
  | some (start, stop) =>
    if kernels.shouldUseSparseCore tokenIndices.length moe.hiddenSize then
      kernels.raggedGather inputs tokenIndices start stop
    else tokenIndices.map fun i => inputs.getD i 0
  | none => tokenIndices.map fun i => inputs.getD i 0

section Shard

variable (expertShard : Fin moe.epSize) (tensorShard : Fin moe.tpSize)

/-- The part of `wi_0` or `wi_1` that a shard has. -/
def shardWi (wi : Fin (moe.epSize * moe.expertsPerDevice) →
    Matrix (Fin moe.hiddenSize) (Fin (moe.tpSize * moe.shardDim)) K) :
    Fin moe.expertsPerDevice → Matrix (Fin moe.hiddenSize) (Fin moe.shardDim) K :=
  fun expert => (wi (finProdFinEquiv (expertShard, expert))).submatrix id
    fun j => finProdFinEquiv (tensorShard, j)

def shardWo : Fin moe.expertsPerDevice → Matrix (Fin moe.shardDim) (Fin moe.hiddenSize) K :=
  fun expert => (moe.wo (finProdFinEquiv (expertShard, expert))).submatrix
    (fun j => finProdFinEquiv (tensorShard, j)) id

/-- `_gmm_compute` -/
def gmmCompute (fns : ActivationFns K) (kernels : MoeKernels K) (inputs : List moe.Row)
    (permuted : Permuted) (groupOffset : Nat) (localRange : Option (Nat × Nat)) :
    List moe.Row :=
  if permuted.tokenIndices.length = 0 then []
  else
    let x := moe.gatherRows kernels inputs permuted.tokenIndices localRange
    let layerW0 := gmm kernels x (moe.shardWi expertShard tensorShard moe.wi0)
      permuted.groupSizes groupOffset false
    let layerW1 := gmm kernels x (moe.shardWi expertShard tensorShard moe.wi1)
      permuted.groupSizes groupOffset false
    let intermediateLayer := layerW0.zipWith (fun a b j => moe.activate fns (a j) (b j)) layerW1
    gmm kernels intermediateLayer (moe.shardWo expertShard tensorShard) permuted.groupSizes
      groupOffset true

end Shard

/-- `reference_combine` -/
def referenceCombine (intermediate : List moe.Row) (revertIndices : List Nat) (weights : List K)
    (topK : Nat) : List moe.Row :=
  (List.range (revertIndices.length / topK)).map fun b =>
    ((List.range topK).map fun k => weights.getD (b * topK + k) 0 •
      intermediate.getD (revertIndices.getD (b * topK + k) 0) 0).sum

/-- `sc_combine` -/
def scCombine (kernels : MoeKernels K) (intermediate : List moe.Row) (revertIndices : List Nat)
    (weights : List K) (validMask : List Bool) (topK : Nat) : List moe.Row :=
  if ¬ kernels.reducible ∨ ¬ kernels.shouldUseSparseCore intermediate.length moe.hiddenSize then
    moe.referenceCombine intermediate revertIndices
      (validMask.zipWith (fun valid weight => if valid then weight else 0) weights) topK
  else kernels.raggedGatherReduce intermediate revertIndices weights validMask topK

/-- The sum over the experts of a token, one contribution after the other. -/
def addContributions : List moe.Row → Except MoeError moe.Row
  | [] => .error .attributeError
  | contribution :: contributions => .ok (contributions.foldl (· + ·) contribution)

/-- `_unpermute` -/
def unpermute (kernels : MoeKernels K) (intermediate : List moe.Row)
    (sortedSelectedExperts : List Nat) (weights : Mat K) (validMask : Option (List Bool)) :
    Except MoeError (List moe.Row) :=
  let topK := moe.numExpertsPerTok
  if weights.cols ≠ topK then .error (.routingWeights topK weights.shape)
  else if sortedSelectedExperts.length ≠ weights.rows.length * topK then
    .error (.sortedIndices (weights.rows.length * topK) sortedSelectedExperts.length)
  else
    let expectedTokens := weights.rows.length * topK
    let intermediate := intermediate.take expectedTokens ++
      List.replicate (expectedTokens - intermediate.length) 0
    let argsortIndices := positions sortedSelectedExperts
    match validMask with
    | some mask =>
      .ok (moe.scCombine kernels intermediate argsortIndices weights.rows.flatten mask topK)
    | none =>
      if weights.rows.length ≤ 256 then
        .ok (moe.referenceCombine intermediate argsortIndices weights.rows.flatten topK)
      else (List.range weights.rows.length).mapM fun b =>
        moe.addContributions ((List.range topK).map fun k =>
          weights.rows.flatten.getD (b * topK + k) 0 •
            intermediate.getD (argsortIndices.getD (b * topK + k) 0) 0)

/-- `_forward` on one shard, before the shards are added up. -/
def forward (fns : ActivationFns K) (kernels : MoeKernels K) (hiddenStates : List moe.Row)
    (topkWeights : Mat K) (topkIds : Mat Nat) (expertShard : Fin moe.epSize)
    (tensorShard : Fin moe.tpSize) : Except MoeError (List moe.Row) := do
  let permuted ← moe.permute hiddenStates.length topkIds
  let groupOffset := moe.dispatch expertShard
  let sparse := moe.sparseInfo kernels permuted topkIds groupOffset
  let intermediateOutput := moe.gmmCompute expertShard tensorShard fns kernels hiddenStates
    permuted groupOffset (sparse.bind SparseInfo.localRange)
  moe.unpermute kernels intermediateOutput permuted.sortedSelectedExperts topkWeights
    (sparse.map SparseInfo.validMask)

/-- `jax.lax.psum` -/
def psum (numTokens : Nat) (parts : List (List moe.Row)) : List moe.Row :=
  (List.range numTokens).map fun b => (parts.map fun part => part.getD b 0).sum

/-- The layer: all shards, added up over the tensor axis and then over the experts. -/
def call (fns : ActivationFns K) (kernels : MoeKernels K) (hiddenStates : List moe.Row)
    (topkWeights : Mat K) (topkIds : Mat Nat) : Except MoeError (List moe.Row) := do
  let parts ← (List.finRange moe.epSize).mapM fun expertShard => do
    let shards ← (List.finRange moe.tpSize).mapM
      (moe.forward fns kernels hiddenStates topkWeights topkIds expertShard)
    return moe.psum hiddenStates.length shards
  return moe.psum hiddenStates.length parts

end EPMoE

end SglJax.Layers
