import SglJax.Layers.GatedDelta

/-! A chunk of the gated delta rule. What the tokens of a chunk put into the state solves a
unit lower triangular system, which is worked out before the state is known. -/
namespace SglJax.Layers

open Foundation

variable {K : Type} [Field K] {dK dV : Nat}

/-- The laws of the exponential. -/
structure ScalarFns.ExpLaws (fns : ScalarFns K) : Prop where
  exp_zero : fns.exp 0 = 1
  exp_add : ∀ x y, fns.exp (x + y) = fns.exp x * fns.exp y

/-- The state after the first tokens. -/
def stateAfter (fns : ScalarFns K) (x : Nat → HeadToken dK dV K)
    (init : Matrix (Fin dK) (Fin dV) K) : Nat → Matrix (Fin dK) (Fin dV) K
  | 0 => init
  | t + 1 => (gatedDeltaStep fns (stateAfter fns x init t) (x t)).1

/-- What a token puts out. -/
def outputAt (fns : ScalarFns K) (x : Nat → HeadToken dK dV K)
    (init : Matrix (Fin dK) (Fin dV) K) (t : Nat) : Fin dV → K :=
  (gatedDeltaStep fns (stateAfter fns x init t) (x t)).2

/-- The decay up to a token. -/
def gammaBefore (x : Nat → HeadToken dK dV K) (t : Nat) : K := ∑ s ∈ Finset.range t, (x s).g

/-- What a token adds to the state along its key. -/
def deltaAt (fns : ScalarFns K) (x : Nat → HeadToken dK dV K)
    (init : Matrix (Fin dK) (Fin dV) K) (t : Nat) : Fin dV → K := fun j =>
  ((x t).v j - Matrix.vecMul (x t).k (fns.exp (x t).g • stateAfter fns x init t) j) * (x t).beta

section Sums

variable {M : Type} [AddCommMonoid M] {n : Nat}

theorem sum_fin_lt (f : Nat → M) {i : Nat} (hi : i ≤ n) :
    ∑ j : Fin n with j.val < i, f j = ∑ j ∈ Finset.range i, f j := by
  rw [Finset.sum_filter, Fin.sum_univ_eq_sum_range (fun j => if j < i then f j else 0),
    ← Finset.sum_filter]
  congr 1
  ext j
  simp only [Finset.mem_filter, Finset.mem_range]
  omega

theorem sum_fin_le (f : Nat → M) (i : Fin n) :
    ∑ j : Fin n with j ≤ i, f j = ∑ j ∈ Finset.range (i + 1), f j := by
  rw [← sum_fin_lt (n := n) f i.isLt]
  congr 1
  ext j
  simp only [Finset.mem_filter, Finset.mem_univ, true_and]
  exact Nat.lt_succ_iff.symm

end Sums

section Closed

variable {fns : ScalarFns K} (h : fns.ExpLaws) (x : Nat → HeadToken dK dV K)
  (init : Matrix (Fin dK) (Fin dV) K)

theorem gammaBefore_succ (t : Nat) : gammaBefore x (t + 1) = (x t).g + gammaBefore x t := by
  rw [gammaBefore, Finset.sum_range_succ, add_comm, gammaBefore]

theorem stateAfter_succ (t : Nat) : stateAfter fns x init (t + 1) =
    fns.exp (x t).g • stateAfter fns x init t +
      Matrix.vecMulVec (x t).k (deltaAt fns x init t) := rfl

include h

/-- A state, once it has decayed for the next token. -/
theorem decayed_of_closed {t : Nat}
    (hclosed : stateAfter fns x init t = fns.exp (gammaBefore x t) • init +
      ∑ s ∈ Finset.range t, fns.exp (gammaBefore x t - gammaBefore x (s + 1)) •
        Matrix.vecMulVec (x s).k (deltaAt fns x init s)) :
    fns.exp (x t).g • stateAfter fns x init t = fns.exp (gammaBefore x (t + 1)) • init +
      ∑ s ∈ Finset.range t, fns.exp (gammaBefore x (t + 1) - gammaBefore x (s + 1)) •
        Matrix.vecMulVec (x s).k (deltaAt fns x init s) := by
  rw [hclosed, smul_add, smul_smul, ← h.exp_add, ← gammaBefore_succ, Finset.smul_sum]
  congr 1
  apply Finset.sum_congr rfl
  intro s _
  rw [smul_smul, ← h.exp_add, gammaBefore_succ x t, add_sub_assoc]

/-- Every token's share of the state, decayed since. -/
theorem stateAfter_eq (t : Nat) :
    stateAfter fns x init t = fns.exp (gammaBefore x t) • init +
      ∑ s ∈ Finset.range t, fns.exp (gammaBefore x t - gammaBefore x (s + 1)) •
        Matrix.vecMulVec (x s).k (deltaAt fns x init s) := by
  induction t with
  | zero =>
    rw [gammaBefore, Finset.sum_range_zero, Finset.sum_range_zero, h.exp_zero, one_smul, add_zero]
    rfl
  | succ t ih =>
    rw [stateAfter_succ, decayed_of_closed h x init ih, Finset.sum_range_succ, sub_self,
      h.exp_zero, one_smul, add_assoc]

/-- What a query finds in a state. -/
theorem vecMul_stateAfter (q : Fin dK → K) (t : Nat) :
    Matrix.vecMul q (stateAfter fns x init t) =
      fns.exp (gammaBefore x t) • Matrix.vecMul q init +
        ∑ s ∈ Finset.range t, (fns.exp (gammaBefore x t - gammaBefore x (s + 1)) *
          (q ⬝ᵥ (x s).k)) • deltaAt fns x init s := by
  rw [stateAfter_eq h, Matrix.vecMul_add, Matrix.vecMul_smul, Matrix.vecMul_sum]
  congr 1
  apply Finset.sum_congr rfl
  intro s _
  rw [Matrix.vecMul_smul, Matrix.vecMul_vecMulVec, smul_smul]

/-- A token's share, from those before it. -/
theorem deltaAt_eq (t : Nat) (j : Fin dV) : deltaAt fns x init t j =
    (x t).v j * (x t).beta -
      (fns.exp (gammaBefore x (t + 1)) * Matrix.vecMul (x t).k init j +
        ∑ s ∈ Finset.range t, fns.exp (gammaBefore x (t + 1) - gammaBefore x (s + 1)) *
          ((x t).k ⬝ᵥ (x s).k) * deltaAt fns x init s j) * (x t).beta := by
  unfold deltaAt
  rw [decayed_of_closed h x init (stateAfter_eq h x init t), Matrix.vecMul_add,
    Matrix.vecMul_smul, Matrix.vecMul_sum, sub_mul]
  congr 2
  rw [Pi.add_apply, Finset.sum_apply]
  congr 1
  apply Finset.sum_congr rfl
  intro s _
  rw [Matrix.vecMul_smul, Matrix.vecMul_vecMulVec, smul_smul]
  rfl

end Closed

section Coefficients

variable (fns : ScalarFns K) (x : Nat → HeadToken dK dV K) (init : Matrix (Fin dK) (Fin dV) K)

theorem gammaOf_eq {bt : Nat} (i : Fin bt) :
    gammaOf (fun j : Fin bt => (x j).g) i = gammaBefore x (i + 1) :=
  sum_fin_le (fun j => (x j).g) i

theorem lastEntry_eq {n : Nat} {f : Nat → K} (hzero : f 0 = 0) :
    lastEntry (fun i : Fin n => f (i + 1)) = f n := by
  cases n with
  | zero => exact hzero.symm
  | succ n => rfl

theorem lastEntry_gamma (bt : Nat) :
    lastEntry (gammaOf fun j : Fin bt => (x j).g) = gammaBefore x bt := by
  have hgamma : (gammaOf fun j : Fin bt => (x j).g) = fun i : Fin bt => gammaBefore x (i + 1) :=
    funext (gammaOf_eq x)
  rw [hgamma]
  exact lastEntry_eq (by simp [gammaBefore])

/-- The shares of the tokens of a chunk. -/
def deltas (bt : Nat) : Matrix (Fin bt) (Fin dV) K :=
  Matrix.of fun i => deltaAt fns x init i

/-- The keys of a chunk. -/
def keys (bt : Nat) : Matrix (Fin bt) (Fin dK) K := Matrix.of fun i => (x i).k

/-- The coefficients of the system of a chunk. -/
def chunkLower (bt : Nat) : Matrix (Fin bt) (Fin bt) K :=
  Matrix.of fun i j => (keys x bt * (keys x bt).transpose) i j *
    fns.exp (if j ≤ i then gammaOf (fun j : Fin bt => (x j).g) i - gammaOf (fun j => (x j).g) j
      else expFloor) * (x i).beta * if j < i then 1 else 0

theorem chunkLower_strictlyLower (bt : Nat) : StrictlyLower (chunkLower fns x bt) := by
  intro r s hle
  unfold chunkLower
  rw [Matrix.of_apply, if_neg (not_lt.mpr hle), mul_zero]

theorem chunkLower_apply {bt : Nat} {i j : Fin bt} (hlt : j < i) :
    chunkLower fns x bt i j = (x i).k ⬝ᵥ (x j).k *
      fns.exp (gammaBefore x (i + 1) - gammaBefore x (j + 1)) * (x i).beta := by
  unfold chunkLower
  rw [Matrix.of_apply, if_pos hlt, if_pos hlt.le, mul_one, gammaOf_eq, gammaOf_eq]
  rfl

/-- The values of a chunk, and its keys as they meet the state. -/
def gatedValues (bt : Nat) : Matrix (Fin bt) (Fin dV) K :=
  Matrix.of fun i j => (x i).v j * (x i).beta

def gatedKeys (bt : Nat) : Matrix (Fin bt) (Fin dK) K :=
  Matrix.of fun i j => (x i).k j * fns.exp (gammaBefore x (i + 1)) * (x i).beta

theorem gatedKeys_mul (bt : Nat) (i : Fin bt) (j : Fin dV) : (gatedKeys fns x bt * init) i j =
    fns.exp (gammaBefore x (i + 1)) * Matrix.vecMul (x i).k init j * (x i).beta := by
  rw [Matrix.mul_apply]
  simp only [gatedKeys, Matrix.of_apply, Matrix.vecMul, dotProduct, Finset.mul_sum, Finset.sum_mul]
  apply Finset.sum_congr rfl
  intro l _
  ring

/-- The shares of the tokens solve the system of the chunk. -/
theorem deltas_solve (h : fns.ExpLaws) (bt : Nat) :
    deltas fns x init bt + chunkLower fns x bt * deltas fns x init bt =
      gatedValues x bt - gatedKeys fns x bt * init := by
  ext i j
  have hrow : (chunkLower fns x bt * deltas fns x init bt) i j =
      (∑ s ∈ Finset.range i, fns.exp (gammaBefore x (i + 1) - gammaBefore x (s + 1)) *
        ((x i).k ⬝ᵥ (x s).k) * deltaAt fns x init s j) * (x i).beta := by
    rw [← sum_fin_lt _ i.isLt.le, Finset.sum_mul, (chunkLower_strictlyLower fns x bt).sum_row,
      Finset.sum_apply]
    apply Finset.sum_congr rfl
    intro l hl
    have hlt : l < i := (Finset.mem_filter.mp hl).2
    rw [Pi.smul_apply, chunkLower_apply fns x hlt, smul_eq_mul]
    simp only [deltas, Matrix.of_apply]
    ring
  rw [Matrix.add_apply, hrow, Matrix.sub_apply, gatedKeys_mul]
  simp only [deltas, gatedValues, Matrix.of_apply]
  rw [deltaAt_eq h]
  ring

end Coefficients

section Chunk

variable [LinearOrder K] {fns : ScalarFns K} {numBlocks : Nat} {x : Nat → HeadToken dK dV K}
  (init : Matrix (Fin dK) (Fin dV) K)

/-- No decay inside a chunk is below the smallest exponent. -/
def Unclamped (x : Nat → HeadToken dK dV K) (bt : Nat) : Prop :=
  ∀ i < bt, expFloor ≤ gammaBefore x (i + 1) ∧
    expFloor ≤ gammaBefore x bt - gammaBefore x (i + 1)

/-- The first tokens as a chunk. -/
def chunkOf (fns : ScalarFns K) (numBlocks : Nat) (x : Nat → HeadToken dK dV K) :
    ChunkIntra (numBlocks * solveBlockSize) dK dV K :=
  chunkGdnIntraFn fns fun i => x i

theorem chunkOf_gammaEnd :
    (chunkOf fns numBlocks x).gammaEnd = gammaBefore x (numBlocks * solveBlockSize) :=
  lastEntry_gamma x _

variable (hun : Unclamped x (numBlocks * solveBlockSize))
include hun

theorem max_gammaOf (i : Fin (numBlocks * solveBlockSize)) :
    max (gammaOf (fun j : Fin (numBlocks * solveBlockSize) => (x j).g) i) expFloor =
      gammaBefore x (i + 1) := by
  rw [gammaOf_eq, max_eq_left (hun i i.isLt).1]

theorem chunkOf_kG (i : Fin (numBlocks * solveBlockSize)) (j : Fin dK) :
    (chunkOf fns numBlocks x).kG i j = (x i).k j *
      fns.exp (gammaBefore x (numBlocks * solveBlockSize) - gammaBefore x (i + 1)) := by
  show (x i).k j * fns.exp (max (lastEntry (gammaOf _) - gammaOf _ i) expFloor) = _
  rw [lastEntry_gamma, gammaOf_eq, max_eq_left (hun i i.isLt).2]

theorem chunkOf_qG (i : Fin (numBlocks * solveBlockSize)) (j : Fin dK) :
    (chunkOf fns numBlocks x).qG i j = (x i).q j * fns.exp (gammaBefore x (i + 1)) := by
  show (x i).q j * fns.exp (max (gammaOf _ i) expFloor) = _
  rw [max_gammaOf hun]

/-- The two parts of the solution of the chunk. -/
theorem chunkOf_solution :
    (chunkOf fns numBlocks x).u =
        (1 + chunkLower fns x (numBlocks * solveBlockSize))⁻¹ *
          gatedValues x (numBlocks * solveBlockSize) ∧
      (chunkOf fns numBlocks x).w =
        (1 + chunkLower fns x (numBlocks * solveBlockSize))⁻¹ *
          gatedKeys fns x (numBlocks * solveBlockSize) := by
  have hkeys : (Matrix.of fun (i : Fin (numBlocks * solveBlockSize)) j => (x i).k j *
      fns.exp (max (gammaOf (fun j : Fin (numBlocks * solveBlockSize) => (x j).g) i) expFloor) *
        (x i).beta) = gatedKeys fns x (numBlocks * solveBlockSize) := by
    ext i j
    simp only [gatedKeys, Matrix.of_apply, max_gammaOf hun]
  rw [← Matrix.fromCols_ext_iff, ← Matrix.mul_fromCols,
    ← solveLower_eq_inv_mul (chunkLower_strictlyLower fns x _), ← hkeys]
  exact Matrix.fromCols_toCols _

/-- What the chunk takes for the new values are the shares of its tokens. -/
theorem chunkOf_vNew (h : fns.ExpLaws) :
    (chunkOf fns numBlocks x).u - (chunkOf fns numBlocks x).w * init =
      deltas fns x init (numBlocks * solveBlockSize) := by
  obtain ⟨hu, hw⟩ : (chunkOf fns numBlocks x).u = _ ∧ (chunkOf fns numBlocks x).w = _ :=
    chunkOf_solution hun
  rw [hu, hw, Matrix.mul_assoc, ← Matrix.mul_sub, ← deltas_solve fns x init h,
    ← solveLower_eq_inv_mul (chunkLower_strictlyLower fns x _)]
  exact solveLower_eq (chunkLower_strictlyLower fns x _) rfl

/-- The state after a chunk is the one after its tokens. -/
theorem chunkOf_state (h : fns.ExpLaws) :
    fns.exp (chunkOf fns numBlocks x).gammaEnd • init +
      (chunkOf fns numBlocks x).kG.transpose * deltas fns x init (numBlocks * solveBlockSize) =
        stateAfter fns x init (numBlocks * solveBlockSize) := by
  rw [stateAfter_eq h, chunkOf_gammaEnd]
  congr 1
  ext i j
  rw [Matrix.mul_apply, Matrix.sum_apply, ← Fin.sum_univ_eq_sum_range
    (fun s => (fns.exp _ • Matrix.vecMulVec (x s).k (deltaAt fns x init s)) i j)]
  apply Finset.sum_congr rfl
  intro s _
  rw [Matrix.transpose_apply, chunkOf_kG hun]
  simp only [deltas, Matrix.of_apply, Matrix.smul_apply, Matrix.vecMulVec_apply, smul_eq_mul]
  ring

/-- A chunk puts out what its tokens do. -/
theorem chunkOf_output (h : fns.ExpLaws) (i : Fin (numBlocks * solveBlockSize)) :
    ((chunkOf fns numBlocks x).qG * init +
      (chunkOf fns numBlocks x).aQk * deltas fns x init (numBlocks * solveBlockSize) :
        Matrix (Fin (numBlocks * solveBlockSize)) (Fin dV) K) i = outputAt fns x init i := by
  have hout : outputAt fns x init i = Matrix.vecMul (x i).q (stateAfter fns x init (i + 1)) := rfl
  rw [hout, vecMul_stateAfter h]
  ext j
  rw [Matrix.add_apply, Pi.add_apply, Finset.sum_apply]
  congr 1
  · rw [Matrix.mul_apply, Pi.smul_apply, smul_eq_mul, Matrix.vecMul, dotProduct, Finset.mul_sum]
    apply Finset.sum_congr rfl
    intro l _
    rw [chunkOf_qG hun]
    ring
  · rw [Matrix.mul_apply, ← sum_fin_le (n := numBlocks * solveBlockSize), Finset.sum_filter]
    apply Finset.sum_congr rfl
    intro l _
    show ((Matrix.of fun i : Fin (numBlocks * solveBlockSize) => (x i).q) *
      (keys x (numBlocks * solveBlockSize)).transpose) i l * fns.exp _ *
      (if l ≤ i then 1 else 0) * deltaAt fns x init l j = _
    split
    · rw [mul_one, gammaOf_eq, gammaOf_eq, Pi.smul_apply, smul_eq_mul, mul_comm (fns.exp _)]
      rfl
    · rw [mul_zero, zero_mul]

end Chunk

end SglJax.Layers
