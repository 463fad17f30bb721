import Mathlib

/-! Jobs that draw on one budget at the same rate. A job runs for some time and gives
a sum back at its end. A budget is tested at the ends alone, in the order in which the
jobs end. -/
namespace SglJax.Foundation.SharedBudget

variable {K : Type} [Field K] [LinearOrder K]

/-- How many jobs still run at a time; a job runs to its end. -/
def running (jobs : List (K × Nat)) (t : K) : Nat := jobs.countP (t ≤ ·.1)

/-- What the jobs that ended before a time gave back. -/
def returned (jobs : List (K × Nat)) (t : K) : Nat :=
  ((jobs.filter (·.1 < t)).map Prod.snd).sum

/-- The budget at a time: the running jobs have drawn on it from the start, and a job
that ended has given back all that it drew, and its sum. -/
def budgetAt (free : K) (jobs : List (K × Nat)) (t : K) : K :=
  free + returned jobs t - t * running jobs t

/-- While a job runs, the budget is above the reserve of the running jobs. -/
def StaysAbove (reserve : Nat) (free : K) (jobs : List (K × Nat)) : Prop :=
  ∀ t, 0 < running jobs t → reserve * running jobs t < budgetAt free jobs t

/-- The test at the ends, which counts the jobs from there on as running. -/
def EndsAbove (reserve : Nat) (free : K) : List (K × Nat) → Prop
  | [] => True
  | (left, sum) :: rest =>
    reserve * (rest.length + 1 : Nat) < free - left * (rest.length + 1 : Nat) ∧
      EndsAbove reserve (free + sum) rest

theorem running_perm {jobs others : List (K × Nat)} (h : jobs.Perm others) (t : K) :
    running jobs t = running others t := h.countP_eq _

theorem returned_perm {jobs others : List (K × Nat)} (h : jobs.Perm others) (t : K) :
    returned jobs t = returned others t := ((h.filter _).map _).sum_eq

/-- The order of the jobs does not matter to the budget. -/
theorem StaysAbove.perm {reserve : Nat} {free : K} {jobs others : List (K × Nat)}
    (h : StaysAbove reserve free jobs) (hperm : jobs.Perm others) :
    StaysAbove reserve free others := by
  intro t
  rw [budgetAt, ← running_perm hperm, ← returned_perm hperm]
  exact h t

section Ordered

variable [IsStrictOrderedRing K]

theorem StaysAbove.mono {reserve : Nat} {free more : K} {jobs : List (K × Nat)}
    (h : StaysAbove reserve free jobs) (hmore : free ≤ more) : StaysAbove reserve more jobs := by
  intro t hrunning
  have hfree := h t hrunning
  unfold budgetAt at hfree ⊢
  linarith

theorem running_of_le {left t : K} {sum : Nat} {rest : List (K × Nat)}
    (hsorted : ((left, sum) :: rest).Pairwise (·.1 ≤ ·.1)) (ht : t ≤ left) :
    running ((left, sum) :: rest) t = rest.length + 1 := by
  have hall : ∀ job ∈ (left, sum) :: rest, decide (t ≤ job.1) = true := by
    intro job hjob
    rcases List.mem_cons.mp hjob with rfl | hjob
    · exact decide_eq_true ht
    · exact decide_eq_true (ht.trans ((List.pairwise_cons.mp hsorted).1 job hjob))
  rw [running, List.countP_eq_length.mpr hall, List.length_cons]

theorem returned_of_le {left t : K} {sum : Nat} {rest : List (K × Nat)}
    (hsorted : ((left, sum) :: rest).Pairwise (·.1 ≤ ·.1)) (ht : t ≤ left) :
    returned ((left, sum) :: rest) t = 0 := by
  have hnone : ((left, sum) :: rest).filter (fun job => decide (job.1 < t)) = [] := by
    rw [List.filter_eq_nil_iff]
    intro job hjob
    rcases List.mem_cons.mp hjob with rfl | hjob
    · simpa using ht
    · simpa using ht.trans ((List.pairwise_cons.mp hsorted).1 job hjob)
  rw [returned, hnone]
  rfl

/-- The tests at the ends are enough when the jobs are in the order of their ends. -/
theorem staysAbove_of_ends {reserve : Nat} {free : K} {jobs : List (K × Nat)}
    (hsorted : jobs.Pairwise (·.1 ≤ ·.1)) (h : EndsAbove reserve free jobs) :
    StaysAbove reserve free jobs := by
  intro t hrunning
  induction jobs generalizing free with
  | nil => exact absurd hrunning (Nat.lt_irrefl 0)
  | cons job rest ih =>
    obtain ⟨left, sum⟩ := job
    obtain ⟨hend, hrest⟩ := h
    by_cases ht : t ≤ left
    · -- Nothing has ended, and the first end is still to come.
      rw [budgetAt, running_of_le hsorted ht, returned_of_le hsorted ht, Nat.cast_zero, add_zero]
      have hcount : (0 : K) ≤ (rest.length + 1 : Nat) := Nat.cast_nonneg _
      have hdrawn := mul_le_mul_of_nonneg_right ht hcount
      linarith
    · -- The first job has ended and given its sum back.
      have hcount : running ((left, sum) :: rest) t = running rest t := by
        rw [running, List.countP_cons_of_neg (by simpa using ht), running]
      have hback : returned ((left, sum) :: rest) t = sum + returned rest t := by
        rw [returned, List.filter_cons_of_pos (by simpa using ht), List.map_cons, List.sum_cons,
          returned]
      rw [hcount] at hrunning
      have hafter := ih (List.pairwise_cons.mp hsorted).2 hrest hrunning
      rw [budgetAt] at hafter ⊢
      rw [hcount, hback, Nat.cast_add]
      linarith

end Ordered

end SglJax.Foundation.SharedBudget
