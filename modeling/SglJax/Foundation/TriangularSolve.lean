import Mathlib.Data.Matrix.ColumnRowPartitioned
import Mathlib.LinearAlgebra.Matrix.Block
import Mathlib.LinearAlgebra.Matrix.NonsingularInverse
import Mathlib.Logic.Equiv.Fin.Basic

/-! Forward substitution. A unit lower triangular system is solved block by block: the rows of
a block one after the other, and then what the block takes from the rows below it. -/
namespace SglJax.Foundation

section Loops

variable {n : Nat} {β : Type}

/-- What a loop over the first numbers keeps. -/
theorem foldl_finRange {motive : Nat → β → Prop} (step : β → Fin n → β) (init : β)
    (start : motive 0 init) (next : ∀ (j : Fin n) x, motive j x → motive (j + 1) (step x j)) :
    motive n ((List.finRange n).foldl step init) := by
  have hprefix : ∀ k ≤ n, motive k (((List.finRange n).take k).foldl step init) := by
    intro k
    induction k with
    | zero => exact fun _ => start
    | succ k ih =>
      intro hk
      have hlt : k < (List.finRange n).length := by simpa using hk
      rw [List.take_succ_eq_append_getElem hlt, List.foldl_append]
      have hnext := next ⟨k, hk⟩ _ (ih (Nat.le_of_lt hk))
      simpa using hnext
  have hall := hprefix n le_rfl
  rwa [List.take_of_length_le (by simp)] at hall

end Loops

variable {K : Type} [CommRing K] {m n : Nat} {α : Type}

/-- Row `j` of a block, from the rows above it. -/
def solveRow (a : Matrix (Fin n) (Fin n) K) (rows : Matrix (Fin n) α K) (j : Fin n) :
    Matrix (Fin n) α K :=
  rows.updateRow j (rows j - ∑ l with l < j, a j l • rows l)

def solveBlock (a : Matrix (Fin n) (Fin n) K) (rows : Matrix (Fin n) α K) :
    Matrix (Fin n) α K :=
  (List.finRange n).foldl (solveRow a) rows

/-- A block, and what it takes from the blocks below it. -/
def eliminate (a : Fin m → Fin m → Matrix (Fin n) (Fin n) K) (blocks : Fin m → Matrix (Fin n) α K)
    (i : Fin m) : Fin m → Matrix (Fin n) α K :=
  let solved := solveBlock (a i i) (blocks i)
  fun i' => if i' = i then solved else if i < i' then blocks i' - a i' i * solved else blocks i'

def solveBlocks (a : Fin m → Fin m → Matrix (Fin n) (Fin n) K)
    (blocks : Fin m → Matrix (Fin n) α K) : Fin m → Matrix (Fin n) α K :=
  (List.finRange m).foldl (eliminate a) blocks

/-- The rows of a block. -/
def block (x : Matrix (Fin (m * n)) α K) (i : Fin m) : Matrix (Fin n) α K :=
  x.submatrix (fun r => finProdFinEquiv (i, r)) id

def squareBlock (a : Matrix (Fin (m * n)) (Fin (m * n)) K) (i i' : Fin m) :
    Matrix (Fin n) (Fin n) K :=
  a.submatrix (fun r => finProdFinEquiv (i, r)) fun l => finProdFinEquiv (i', l)

/-- Forward substitution in `m` blocks of `n` rows. -/
def solveLower (a : Matrix (Fin (m * n)) (Fin (m * n)) K) (b : Matrix (Fin (m * n)) α K) :
    Matrix (Fin (m * n)) α K :=
  Matrix.of fun r => solveBlocks (squareBlock a) (block b) r.divNat r.modNat

/-- Nothing on the diagonal, and nothing above it. -/
def StrictlyLower (a : Matrix (Fin n) (Fin n) K) : Prop := ∀ r s, r ≤ s → a r s = 0

theorem StrictlyLower.sum_row {a : Matrix (Fin n) (Fin n) K} (h : StrictlyLower a)
    (x : Matrix (Fin n) α K) (j : Fin n) :
    (a * x : Matrix (Fin n) α K) j = ∑ l with l < j, a j l • x l := by
  ext c
  rw [Matrix.mul_apply, Finset.sum_apply, Finset.sum_filter]
  apply Finset.sum_congr rfl
  intro l _
  split
  · rfl
  · next hl => rw [h j l (not_lt.mp hl), zero_mul]

/-- The rows of a block, when nothing is missing from above. -/
theorem solveBlock_eq {a : Matrix (Fin n) (Fin n) K} (h : StrictlyLower a)
    {x b : Matrix (Fin n) α K} (hx : x + a * x = b) : solveBlock a b = x := by
  have hall := foldl_finRange
    (motive := fun k rows => ∀ r : Fin n, rows r = if r < k then x r else b r)
    (solveRow a) b (by simp) ?_
  · ext r
    rw [solveBlock, hall r, if_pos r.isLt]
  · intro j rows hrows r
    unfold solveRow
    by_cases hr : r = j
    · subst hr
      have hrow : b r = x r + (a * x : Matrix (Fin n) α K) r := by
        rw [← hx]
        rfl
      rw [Matrix.updateRow_self, if_pos (Nat.lt_succ_self _), hrows, if_neg (Nat.lt_irrefl _),
        hrow, h.sum_row, add_sub_assoc, sub_eq_zero.mpr, add_zero]
      apply Finset.sum_congr rfl
      intro l hl
      have hlt : (l : Nat) < r := (Finset.mem_filter.mp hl).2
      rw [hrows, if_pos hlt]
    · rw [Matrix.updateRow_ne hr, hrows]
      have hne : (r : Nat) ≠ j := Fin.val_ne_of_ne hr
      have hiff : (r : Nat) < j + 1 ↔ (r : Nat) < j := by omega
      simp only [hiff]

section Blocks

variable {a : Matrix (Fin (m * n)) (Fin (m * n)) K}

/-- The product of a matrix, block by block. -/
theorem block_mul (a : Matrix (Fin (m * n)) (Fin (m * n)) K) (x : Matrix (Fin (m * n)) α K)
    (i : Fin m) : block (a * x) i = ∑ i', squareBlock a i i' * block x i' := by
  ext r c
  rw [Matrix.sum_apply]
  simp only [block, squareBlock, Matrix.submatrix_apply, Matrix.mul_apply, id_eq]
  rw [← finProdFinEquiv.sum_comp, Fintype.sum_prod_type]

theorem finProdFinEquiv_le {i i' : Fin m} (h : i < i') (r l : Fin n) :
    finProdFinEquiv (i, r) ≤ finProdFinEquiv (i', l) := by
  have hmul : n * (i + 1) ≤ n * i' := Nat.mul_le_mul_left n h
  rw [Nat.mul_succ] at hmul
  have hr := r.isLt
  show (r : Nat) + n * i ≤ l + n * i'
  omega

theorem squareBlock_eq_zero (h : StrictlyLower a) {i i' : Fin m} (hlt : i < i') :
    squareBlock a i i' = 0 := by
  ext r l
  exact h _ _ (finProdFinEquiv_le hlt r l)

theorem squareBlock_strictlyLower (h : StrictlyLower a) (i : Fin m) :
    StrictlyLower (squareBlock a i i) := by
  intro r l hle
  apply h
  show (r : Nat) + n * i ≤ l + n * i
  have hval : (r : Nat) ≤ l := hle
  omega

/-- The equation of a block. -/
theorem block_eq (h : StrictlyLower a) {x b : Matrix (Fin (m * n)) α K} (hx : x + a * x = b)
    (i : Fin m) : block x i + squareBlock a i i * block x i =
      block b i - ∑ i' with i' < i, squareBlock a i i' * block x i' := by
  have hrow : block b i = block x i + ∑ i', squareBlock a i i' * block x i' := by
    rw [← hx, ← block_mul]
    rfl
  have hsplit : ∑ i', squareBlock a i i' * block x i' = squareBlock a i i * block x i +
      ∑ i' with i' < i, squareBlock a i i' * block x i' := by
    rw [← Finset.add_sum_erase _ _ (Finset.mem_univ i), Finset.sum_filter]
    congr 1
    rw [← Finset.sum_erase Finset.univ (a := i) (by simp)]
    apply Finset.sum_congr rfl
    intro i' hi'
    split
    · rfl
    · next hlt =>
      have hgt : i < i' := lt_of_le_of_ne (not_lt.mp hlt) (Finset.ne_of_mem_erase hi').symm
      rw [squareBlock_eq_zero h hgt, Matrix.zero_mul]
  rw [hrow, hsplit]
  abel

theorem solveBlocks_eq (h : StrictlyLower a) {x b : Matrix (Fin (m * n)) α K}
    (hx : x + a * x = b) : solveBlocks (squareBlock a) (block b) = block x := by
  have hall := foldl_finRange (motive := fun k blocks => ∀ i : Fin m, blocks i =
      if i < k then block x i
      else block b i - ∑ i' with i'.val < k, squareBlock a i i' * block x i')
    (eliminate (squareBlock a)) (block b) (by simp) ?_
  · funext i
    rw [solveBlocks, hall i, if_pos i.isLt]
  · intro j blocks hblocks i
    have hsolved : solveBlock (squareBlock a j j) (blocks j) = block x j := by
      apply solveBlock_eq (squareBlock_strictlyLower h j)
      rw [hblocks, if_neg (Nat.lt_irrefl _)]
      exact block_eq h hx j
    unfold eliminate
    rw [hsolved]
    rcases lt_trichotomy i j with hlt | rfl | hgt
    · have hval : (i : Nat) < j := hlt
      rw [if_neg hlt.ne, if_neg hlt.not_gt, hblocks, if_pos hval, if_pos (Nat.lt_succ_of_lt hval)]
    · rw [if_pos rfl, if_pos (Nat.lt_succ_self _)]
    · have hval : (j : Nat) < i := hgt
      have hinsert : (Finset.univ.filter fun i' : Fin m => i'.val < j + 1) =
          insert j (Finset.univ.filter fun i' : Fin m => i'.val < j) := by
        ext i'
        simp only [Finset.mem_filter, Finset.mem_univ, true_and, Finset.mem_insert, Fin.ext_iff]
        omega
      rw [if_neg hgt.ne', if_pos hgt, hblocks, if_neg (by omega), if_neg (by omega), hinsert,
        Finset.sum_insert (by simp)]
      abel

/-- The solution of a unit lower triangular system is found. -/
theorem solveLower_eq (h : StrictlyLower a) {x b : Matrix (Fin (m * n)) α K}
    (hx : x + a * x = b) : solveLower a b = x := by
  ext r c
  have hpair : finProdFinEquiv (r.divNat, r.modNat) = r := finProdFinEquiv.apply_symm_apply r
  show solveBlocks (squareBlock a) (block b) r.divNat r.modNat c = x r c
  rw [solveBlocks_eq h hx]
  show x (finProdFinEquiv (r.divNat, r.modNat)) c = x r c
  rw [hpair]

end Blocks

section Inverse

variable {a : Matrix (Fin n) (Fin n) K}

theorem StrictlyLower.det_one_add (h : StrictlyLower a) : (1 + a).det = 1 := by
  rw [Matrix.det_of_isLowerTriangular]
  · apply Finset.prod_eq_one
    intro i _
    rw [Matrix.add_apply, Matrix.one_apply_eq, h i i le_rfl, add_zero]
  · intro i j hij
    have hlt : i < j := hij
    rw [Matrix.add_apply, Matrix.one_apply_ne hlt.ne, h i j hlt.le, add_zero]

/-- Every unit lower triangular system has a solution. -/
theorem StrictlyLower.inv_add (h : StrictlyLower a) (b : Matrix (Fin n) α K) :
    (1 + a)⁻¹ * b + a * ((1 + a)⁻¹ * b) = b := by
  have hunit : IsUnit (1 + a).det := by
    rw [h.det_one_add]
    exact isUnit_one
  calc (1 + a)⁻¹ * b + a * ((1 + a)⁻¹ * b)
      = (1 + a) * ((1 + a)⁻¹ * b) := by rw [Matrix.add_mul, Matrix.one_mul]
    _ = b := by rw [← Matrix.mul_assoc, Matrix.mul_nonsing_inv _ hunit, Matrix.one_mul]

end Inverse

theorem solveLower_eq_inv_mul {a : Matrix (Fin (m * n)) (Fin (m * n)) K} (h : StrictlyLower a)
    (b : Matrix (Fin (m * n)) α K) : solveLower a b = (1 + a)⁻¹ * b :=
  solveLower_eq h (h.inv_add b)

end SglJax.Foundation
