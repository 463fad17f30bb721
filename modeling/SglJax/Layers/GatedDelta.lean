import Mathlib.Algebra.Order.Field.Basic
import Mathlib.Data.Matrix.ColumnRowPartitioned
import SglJax.Foundation.Segments
import SglJax.Foundation.SliceWrites
import SglJax.Foundation.TriangularSolve

/-! The gated delta rule. A head keeps a matrix, which decays with every token and is corrected
towards the token's value; the prefill computes it chunk by chunk over all sequences of a batch,
the decoding token by token. -/
namespace SglJax.Layers

open Foundation

/-- `jnp.exp`, `jnp.sqrt`, `jax.nn.sigmoid`, `jax.nn.softplus` and `jax.nn.silu` -/
structure ScalarFns (K : Type) where
  exp : K → K
  sqrt : K → K
  sigmoid : K → K
  softplus : K → K
  silu : K → K

/-- The heads of a layer: every key head serves `repeatFactor` value heads. -/
structure GdnShape where
  nKq : Nat
  repeatFactor : Nat
  dK : Nat
  dV : Nat

namespace GdnShape

variable (shape : GdnShape)

def nV : Nat := shape.nKq * shape.repeatFactor

def keyDim : Nat := shape.nKq * shape.dK

def convDim : Nat := shape.keyDim + shape.keyDim + shape.nV * shape.dV

end GdnShape

/-- `A_log` and `dt_bias` -/
structure GdnWeights (shape : GdnShape) (K : Type) where
  aLog : Fin shape.nV → K
  dtBias : Fin shape.nV → K

/-- A token as the kernels get it. -/
structure GdnToken (shape : GdnShape) (K : Type) where
  mixedQkv : Fin shape.convDim → K
  b : Fin shape.nV → K
  a : Fin shape.nV → K

/-- What one head makes of a token. -/
structure HeadToken (dK dV : Nat) (K : Type) where
  q : Fin dK → K
  k : Fin dK → K
  v : Fin dV → K
  beta : K
  g : K

instance {dK dV : Nat} {K : Type} [Zero K] : Zero (HeadToken dK dV K) := ⟨0, 0, 0, 0, 0⟩

/-- The states of all heads for one sequence. -/
abbrev GdnState (shape : GdnShape) (K : Type) :=
  Fin shape.nV → Matrix (Fin shape.dK) (Fin shape.dV) K

/-- What the heads put out for a token. -/
abbrev GdnOut (shape : GdnShape) (K : Type) := Fin shape.nV → Fin shape.dV → K

section Pool

variable {σ : Type} [Zero σ]

/-- The states of the sequences of a batch, where new sequences start from zero. -/
def gatherStates (table : List σ) (stateIndices : List Nat) (hasInitialState : List Bool) :
    List σ :=
  stateIndices.zipWith (fun slot has => if has then table.getD slot 0 else 0) hasInitialState

/-- `_scatter_idx0_safe` -/
def scatterIdx0Safe (buf : List σ) (stateIndices : List Nat) (val : List σ) : List σ :=
  let safeVal := stateIndices.zipWith (fun slot v => if slot = 0 then buf.getD slot 0 else v) val
  scatterDrop buf ((stateIndices.map Int.ofNat).zip safeVal)

/-- The slots that also get the state of a sequence, and for which sequences. -/
structure Track where
  indices : List Nat
  mask : List Bool
deriving DecidableEq, Repr

/-- `_scatter_track` -/
def scatterTrack (buf : List σ) (track : Track) (val : List σ) : List σ :=
  let safeVal := (track.indices.zip track.mask).zipWith
    (fun p v => if p.1 = 0 ∨ ¬ p.2 then buf.getD p.1 0 else v) val
  scatterDrop buf ((track.indices.map Int.ofNat).zip safeVal)

/-- The table after a batch. -/
def writeStates (table : List σ) (stateIndices : List Nat) (track : Option Track)
    (finals : List σ) : List σ :=
  let new := scatterIdx0Safe table stateIndices finals
  match track with
  | some track => scatterTrack new track finals
  | none => new

end Pool

/-- `jax.lax.scan` -/
def scan {σ α γ : Type} (f : σ → α → σ × γ) (init : σ) : List α → σ × List γ
  | [] => (init, [])
  | x :: xs =>
    let next := f init x
    let rest := scan f next.1 xs
    (rest.1, next.2 :: rest.2)

variable {K : Type} [Field K] [LinearOrder K] {dK dV : Nat}

section Heads

variable {shape : GdnShape} (fns : ScalarFns K) (weights : GdnWeights shape K)

/-- `_l2norm` -/
def l2norm {n : Nat} (x : Fin n → K) : Fin n → K :=
  let norm := fns.sqrt ((∑ j, x j ^ 2) + 1e-6)
  fun i => x i / norm

/-- The query, the key and the value of a head, and its two gates. -/
def headToken (token : GdnToken shape K) (h : Fin shape.nV) :
    HeadToken shape.dK shape.dV K :=
  let query := fun i => token.mixedQkv
    (Fin.castAdd _ (Fin.castAdd _ (finProdFinEquiv (Fin.divNat h, i))))
  let key := fun i => token.mixedQkv
    (Fin.castAdd _ (Fin.natAdd _ (finProdFinEquiv (Fin.divNat h, i))))
  let value := fun j => token.mixedQkv (Fin.natAdd _ (finProdFinEquiv (h, j)))
  let scale := 1 / fns.sqrt (shape.dK : K)
  { q := fun i => l2norm fns query i * scale
    k := l2norm fns key
    v := value
    beta := fns.sigmoid (token.b h)
    g := -fns.exp (weights.aLog h) * fns.softplus (token.a h + weights.dtBias h) }

/-- `_gated_delta_step` -/
def gatedDeltaStep (state : Matrix (Fin dK) (Fin dV) K) (x : HeadToken dK dV K) :
    Matrix (Fin dK) (Fin dV) K × (Fin dV → K) :=
  let decayed := fns.exp x.g • state
  let kvMem := Matrix.vecMul x.k decayed
  let delta := fun j => (x.v j - kvMem j) * x.beta
  let new := decayed + Matrix.vecMulVec x.k delta
  (new, Matrix.vecMul x.q new)

/-- A token in all heads. -/
def tokenStep (state : GdnState shape K) (x : Fin shape.nV → HeadToken shape.dK shape.dV K) :
    GdnState shape K × GdnOut shape K :=
  (fun h => (gatedDeltaStep fns (state h) (x h)).1, fun h => (gatedDeltaStep fns (state h) (x h)).2)

end Heads

section Reference

variable {shape : GdnShape} (fns : ScalarFns K) (weights : GdnWeights shape K)

/-- A token of a batch, with the sequence that it belongs to. -/
structure RaggedToken (shape : GdnShape) (K : Type) where
  heads : Fin shape.nV → HeadToken shape.dK shape.dV K
  reqIdx : Nat
  isValid : Bool

def raggedTokens (tokens : List (GdnToken shape K)) (cuSeqlens : List Nat) (b : Nat) :
    List (RaggedToken shape K) :=
  tokens.zipIdx.map fun p =>
    { heads := headToken fns weights p.1
      reqIdx := min (searchsortedRight cuSeqlens.tail p.2) (b - 1)
      isValid := p.2 < cuSeqlens.getLastD 0 }

def raggedStep (stateBuf : List (GdnState shape K)) (x : RaggedToken shape K) :
    List (GdnState shape K) × GdnOut shape K :=
  let next := tokenStep fns (stateBuf.getD x.reqIdx 0) x.heads
  (if x.isValid then stateBuf.set x.reqIdx next.1 else stateBuf, next.2)

/-- `ragged_gated_delta_rule_ref` -/
def raggedGatedDeltaRuleRef (tokens : List (GdnToken shape K))
    (recurrentState : List (GdnState shape K)) (cuSeqlens stateIndices : List Nat)
    (hasInitialState : List Bool) (track : Option Track) :
    List (GdnState shape K) × List (GdnOut shape K) :=
  let initState := gatherStates recurrentState stateIndices hasInitialState
  let result := scan (raggedStep fns) initState
    (raggedTokens fns weights tokens cuSeqlens stateIndices.length)
  (writeStates recurrentState stateIndices track result.1, result.2)

/-- `decode_gated_delta_rule_ref` -/
def decodeGatedDeltaRuleRef (tokens : List (GdnToken shape K))
    (recurrentState : List (GdnState shape K)) (stateIndices : List Nat)
    (hasInitialState : Option (List Bool)) (track : Option Track) :
    List (GdnState shape K) × List (GdnOut shape K) :=
  let state := match hasInitialState with
    | some has => gatherStates recurrentState stateIndices has
    | none => stateIndices.map fun slot => recurrentState.getD slot 0
  let steps := state.zipWith (fun s token => tokenStep fns s (headToken fns weights token)) tokens
  (writeStates recurrentState stateIndices track (steps.map Prod.fst), steps.map Prod.snd)

end Reference

/-- `BS` of `_solve_unit_lower_triangular` -/
def solveBlockSize : Nat := 16

section Chunk

variable (fns : ScalarFns K) {numBlocks : Nat}

/-- `_solve_unit_lower_triangular` -/
def solveUnitLowerTriangular {α : Type}
    (a : Matrix (Fin (numBlocks * solveBlockSize)) (Fin (numBlocks * solveBlockSize)) K)
    (b : Matrix (Fin (numBlocks * solveBlockSize)) α K) :
    Matrix (Fin (numBlocks * solveBlockSize)) α K :=
  solveLower a b

/-- What a chunk is worked out to without its state. -/
structure ChunkIntra (bt dK dV : Nat) (K : Type) where
  u : Matrix (Fin bt) (Fin dV) K
  w : Matrix (Fin bt) (Fin dK) K
  kG : Matrix (Fin bt) (Fin dK) K
  qG : Matrix (Fin bt) (Fin dK) K
  aQk : Matrix (Fin bt) (Fin bt) K
  gammaEnd : K

/-- The smallest exponent: `-126.0` -/
def expFloor : K := -126

/-- `jnp.cumsum(g)` -/
def gammaOf {bt : Nat} (g : Fin bt → K) (i : Fin bt) : K := ∑ j with j ≤ i, g j

/-- The last entry of a row. -/
def lastEntry : {n : Nat} → (Fin n → K) → K
  | 0, _ => 0
  | n + 1, x => x (Fin.last n)

/-- `_chunk_gdn_intra_fn` -/
def chunkGdnIntraFn (x : Fin (numBlocks * solveBlockSize) → HeadToken dK dV K) :
    ChunkIntra (numBlocks * solveBlockSize) dK dV K :=
  let q := Matrix.of fun i => (x i).q
  let k := Matrix.of fun i => (x i).k
  let gamma := gammaOf fun i => (x i).g
  let decay := fun i j => fns.exp (if j ≤ i then gamma i - gamma j else expFloor)
  let kk := k * k.transpose
  let l := Matrix.of fun i j => kk i j * decay i j * (x i).beta * if j < i then 1 else 0
  let qk := q * k.transpose
  let safeGamma := fun i => max (gamma i) expFloor
  let vB := Matrix.of fun i j => (x i).v j * (x i).beta
  let kEgB := Matrix.of fun i j => k i j * fns.exp (safeGamma i) * (x i).beta
  let sol := solveUnitLowerTriangular l (Matrix.fromCols vB kEgB)
  let gammaEnd := lastEntry gamma
  let safeEndDiff := fun i => max (gammaEnd - gamma i) expFloor
  { u := sol.toCols₁
    w := sol.toCols₂
    kG := Matrix.of fun i j => k i j * fns.exp (safeEndDiff i)
    qG := Matrix.of fun i j => q i j * fns.exp (safeGamma i)
    aQk := Matrix.of fun i j => qk i j * decay i j * if j ≤ i then 1 else 0
    gammaEnd := gammaEnd }

end Chunk

section Chunks

variable {shape : GdnShape} (fns : ScalarFns K) {bt : Nat}

/-- A chunk of the aligned batch. -/
structure Chunk (shape : GdnShape) (bt : Nat) (K : Type) where
  heads : Fin shape.nV → ChunkIntra bt shape.dK shape.dV K
  seqId : Nat
  isFirst : Bool

/-- The state that a chunk starts from, and the corrected values of its tokens. -/
structure ChunkRun (shape : GdnShape) (bt : Nat) (K : Type) where
  stateIn : GdnState shape K
  vNew : Fin shape.nV → Matrix (Fin bt) (Fin shape.dV) K

/-- A step of `_chunk_gdn_inter_scan` -/
def chunkStep (initState runningStates : List (GdnState shape K)) (x : Chunk shape bt K) :
    List (GdnState shape K) × ChunkRun shape bt K :=
  let stateIn := if x.isFirst then initState.getD x.seqId 0 else runningStates.getD x.seqId 0
  let vNew := fun h => (x.heads h).u - (x.heads h).w * stateIn h
  let stateOut : GdnState shape K := fun h =>
    fns.exp (x.heads h).gammaEnd • stateIn h + (x.heads h).kG.transpose * vNew h
  (runningStates.set x.seqId stateOut, ⟨stateIn, vNew⟩)

/-- `_chunk_gdn_output_fwd` -/
def chunkGdnOutputFwd (x : Chunk shape bt K) (run : ChunkRun shape bt K)
    (h : Fin shape.nV) : Matrix (Fin bt) (Fin shape.dV) K :=
  (x.heads h).qG * run.stateIn h + (x.heads h).aQk * run.vNew h

end Chunks

section Align

/-- The sequences of a batch, each padded to a multiple of `align`. -/
def paddedLens (cuSeqlens : List Nat) (align : Nat) : List Nat :=
  (cuSeqlens.tail.zipWith (· - ·) cuSeqlens).map fun len => (len + align - 1) / align * align

def paddedCu (cuSeqlens : List Nat) (align : Nat) : List Nat :=
  0 :: cumsum (paddedLens cuSeqlens align)

/-- Where the entries of one layout stand in the other, for the sequences of a batch. -/
def buildGather (fromCu toCu lens : List Nat) (b init j : Nat) : Nat :=
  (List.range b).foldl (fun idx i =>
    if toCu.getD i 0 ≤ j ∧ j < toCu.getD i 0 + lens.getD i 0 then
      fromCu.getD i 0 + (j - toCu.getD i 0)
    else idx) init

/-- How many places the aligned layout has. -/
def alignedSize (tOld b align : Nat) : Nat :=
  (tOld + b * (align - 1) + align - 1) / align * align

/-- `_align_seqs_gdn`: the padding is zero. -/
def alignSeqsGdn {α : Type} [Zero α] (xs : List α) (cuSeqlens : List Nat) (align : Nat) :
    List α :=
  let b := cuSeqlens.length - 1
  let segLens := cuSeqlens.tail.zipWith (· - ·) cuSeqlens
  (List.range (alignedSize xs.length b align)).map fun j =>
    let src := buildGather cuSeqlens (paddedCu cuSeqlens align) segLens b xs.length j
    if src < xs.length then xs.getD src 0 else 0

/-- `_unalign_output_gdn` -/
def unalignOutputGdn {α : Type} [Zero α] (aligned : List α) (cuSeqlens alignedCu : List Nat)
    (tOut : Nat) : List α :=
  let b := cuSeqlens.length - 1
  let segLens := cuSeqlens.tail.zipWith (· - ·) cuSeqlens
  (List.range tOut).map fun j =>
    if j < cuSeqlens.getLastD 0 then
      aligned.getD (buildGather alignedCu cuSeqlens segLens b 0 j) 0
    else 0

end Align

section Chunked

variable {shape : GdnShape} (fns : ScalarFns K) (weights : GdnWeights shape K) (numBlocks : Nat)

/-- The chunks of the aligned batch. -/
def chunksOf (aligned : List (Fin shape.nV → HeadToken shape.dK shape.dV K))
    (paddedCu : List Nat) (b : Nat) : List (Chunk shape (numBlocks * solveBlockSize) K) :=
  let bt := numBlocks * solveBlockSize
  (List.range (aligned.length / bt)).map fun c =>
    let seqId := min (searchsortedRight paddedCu.tail (c * bt)) (b - 1)
    { heads := fun h => chunkGdnIntraFn fns fun r => aligned.getD (c * bt + r) 0 h
      seqId := seqId
      isFirst := c * bt = paddedCu.getD seqId 0 }

/-- The chunks' outputs, token by token. -/
def chunkRows {bt : Nat} (chunks : List (Chunk shape bt K)) (runs : List (ChunkRun shape bt K)) :
    List (GdnOut shape K) :=
  (chunks.zip runs).flatMap fun p =>
    (List.finRange bt).map fun r h => chunkGdnOutputFwd p.1 p.2 h r

/-- `chunked_gated_delta_rule_jax`, for chunks of `numBlocks * 16` tokens -/
def chunkedGatedDeltaRuleJax (tokens : List (GdnToken shape K))
    (recurrentState : List (GdnState shape K)) (cuSeqlens stateIndices : List Nat)
    (hasInitialState : List Bool) (track : Option Track) :
    List (GdnState shape K) × List (GdnOut shape K) :=
  let bt := numBlocks * solveBlockSize
  let initState := gatherStates recurrentState stateIndices hasInitialState
  let aligned := alignSeqsGdn (tokens.map (headToken fns weights)) cuSeqlens bt
  let chunks := chunksOf fns numBlocks aligned (paddedCu cuSeqlens bt) stateIndices.length
  let result := scan (chunkStep fns initState) initState chunks
  let output := unalignOutputGdn (chunkRows chunks result.2) cuSeqlens (paddedCu cuSeqlens bt)
    tokens.length
  (writeStates recurrentState stateIndices track result.1, output)

end Chunked

end SglJax.Layers
