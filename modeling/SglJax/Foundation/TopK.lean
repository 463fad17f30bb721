import Mathlib.Data.List.Sort

/-! The indices of the largest values, larger values first and ties towards the smaller
index. -/
namespace SglJax

variable {R : Type} [LinearOrder R]

/-- The order in which the indices are listed. -/
def Precedes (score : Nat → R) (i j : Nat) : Prop :=
  score j < score i ∨ score i = score j ∧ i ≤ j

instance decidablePrecedes (score : Nat → R) : DecidableRel (Precedes score) :=
  fun i j => inferInstanceAs (Decidable (score j < score i ∨ score i = score j ∧ i ≤ j))

theorem precedes_total (score : Nat → R) (i j : Nat) : Precedes score i j ∨ Precedes score j i := by
  unfold Precedes
  rcases lt_trichotomy (score i) (score j) with h | h | h
  · exact .inr (.inl h)
  · rcases Nat.le_total i j with hij | hji
    · exact .inl (.inr ⟨h, hij⟩)
    · exact .inr (.inr ⟨h.symm, hji⟩)
  · exact .inl (.inl h)

theorem precedes_trans {score : Nat → R} {i j l : Nat} (hij : Precedes score i j)
    (hjl : Precedes score j l) : Precedes score i l := by
  rcases hij with hij | ⟨hij, hle⟩
  · rcases hjl with hjl | ⟨hjl, -⟩
    · exact .inl (hjl.trans hij)
    · exact .inl (hjl ▸ hij)
  · rcases hjl with hjl | ⟨hjl, hle'⟩
    · exact .inl (hij ▸ hjl)
    · exact .inr ⟨hij.trans hjl, hle.trans hle'⟩

theorem precedes_antisymm {score : Nat → R} {i j : Nat} (hij : Precedes score i j)
    (hji : Precedes score j i) : i = j := by
  rcases hij with hij | ⟨hij, hle⟩
  · rcases hji with hji | ⟨hji, -⟩
    · exact absurd hij hji.not_gt
    · rw [hji] at hij
      exact absurd hij (lt_irrefl _)
  · rcases hji with hji | ⟨-, hle'⟩
    · rw [hij] at hji
      exact absurd hji (lt_irrefl _)
    · exact Nat.le_antisymm hle hle'

instance (score : Nat → R) : Std.Total (Precedes score) := ⟨precedes_total score⟩

instance (score : Nat → R) : IsTrans Nat (Precedes score) := ⟨fun _ _ _ => precedes_trans⟩

/-- All indices below `size` in their order. -/
def ranking (size : Nat) (score : Nat → R) : List Nat :=
  (List.range size).insertionSort (Precedes score)

/-- `jax.lax.top_k(score, k)` for `size` values. -/
def topK (k size : Nat) (score : Nat → R) : List Nat := (ranking size score).take k

variable {k size : Nat} {score : Nat → R} {i j : Nat}

theorem mem_ranking : i ∈ ranking size score ↔ i < size := by
  unfold ranking
  rw [List.mem_insertionSort, List.mem_range]

theorem nodup_ranking (size : Nat) (score : Nat → R) : (ranking size score).Nodup :=
  (List.perm_insertionSort _ _).nodup_iff.mpr List.nodup_range

theorem pairwise_ranking (size : Nat) (score : Nat → R) :
    (ranking size score).Pairwise (Precedes score) :=
  List.pairwise_insertionSort _ _

theorem length_topK (h : k ≤ size) : (topK k size score).length = k := by
  unfold topK ranking
  rw [List.length_take, List.length_insertionSort, List.length_range]
  omega

theorem nodup_topK (k size : Nat) (score : Nat → R) : (topK k size score).Nodup :=
  (nodup_ranking size score).sublist (List.take_sublist _ _)

theorem lt_of_mem_topK (h : i ∈ topK k size score) : i < size :=
  mem_ranking.mp (List.mem_of_mem_take h)

/-- What comes before a listed index is listed. -/
theorem mem_topK_of_precedes (hj : j ∈ topK k size score) (hij : Precedes score i j)
    (hi : i < size) : i ∈ topK k size score := by
  have hrank : i ∈ (ranking size score).take k ++ (ranking size score).drop k := by
    rw [List.take_append_drop]
    exact mem_ranking.mpr hi
  rcases List.mem_append.mp hrank with htake | hdrop
  · exact htake
  · have hpairs := pairwise_ranking size score
    rw [← List.take_append_drop k (ranking size score), List.pairwise_append] at hpairs
    rw [precedes_antisymm hij (hpairs.2.2 j hj i hdrop)]
    exact hj

example : topK 3 5 (fun i => [2, 7, 7, 1, 9].getD i 0) = [4, 1, 2] := by decide

end SglJax
