import Mathlib.Data.List.MinMax
import Mathlib.Data.List.Sort
import Mathlib.Algebra.BigOperators.Group.List.Basic
import Mathlib.Algebra.BigOperators.Group.Finset.Piecewise
import Mathlib.Algebra.Order.BigOperators.Group.Finset
import Mathlib.Tactic.Common
import Mathlib.Tactic.Linarith
import Mathlib.Tactic.Ring

/-! List scheduling: each job goes to a lane with the least load. When the jobs come with
the largest first, no job of any lane would gain by moving to another lane. -/
namespace SglJax.Foundation

variable {ι : Type}

structure Lanes (ι : Type) where
  lanes : List (List ι)
  loads : List Nat

/-- The first lane with the least load. -/
def leastLoad (loads : List Nat) : Option Nat :=
  (List.range loads.length).argmin fun i => loads.getD i 0

def assignLeast (size : ι → Nat) (s : Lanes ι) (job : ι) : Lanes ι :=
  match leastLoad s.loads with
  | some lane =>
    { lanes := s.lanes.modify lane (· ++ [job]), loads := s.loads.modify lane (· + size job) }
  | none => s

def listSchedule (size : ι → Nat) (numLanes : Nat) (jobs : List ι) : Lanes ι :=
  jobs.foldl (assignLeast size) ⟨List.replicate numLanes [], List.replicate numLanes 0⟩

def work (size : ι → Nat) (lane : List ι) : Nat := (lane.map size).sum

@[simp] theorem work_nil (size : ι → Nat) : work size [] = 0 := rfl

@[simp] theorem work_cons (size : ι → Nat) (job : ι) (lane : List ι) :
    work size (job :: lane) = size job + work size lane := by
  simp [work]

@[simp] theorem work_append (size : ι → Nat) (lane more : List ι) :
    work size (lane ++ more) = work size lane + work size more := by
  simp [work]

theorem size_le_work {size : ι → Nat} {job : ι} {lane : List ι} (h : job ∈ lane) :
    size job ≤ work size lane := by
  obtain ⟨before, after, rfl⟩ := List.append_of_mem h
  rw [work_append, work_cons]
  omega

theorem work_perm (size : ι → Nat) {jobs jobs' : List ι} (h : jobs.Perm jobs') :
    work size jobs = work size jobs' :=
  (h.map size).sum_eq

theorem work_flatten (size : ι → Nat) (lanes : List (List ι)) :
    work size lanes.flatten = (lanes.map (work size)).sum := by
  induction lanes with
  | nil => rfl
  | cons lane lanes ih => rw [List.flatten_cons, work_append, ih, List.map_cons, List.sum_cons]

theorem modify_middle {α : Type} (f : α → α) (before : List α) (a : α) (after : List α) :
    (before ++ a :: after).modify before.length f = before ++ f a :: after := by
  induction before with
  | nil => rfl
  | cons b before ih => simp [ih]

variable {size : ι → Nat} {numLanes : Nat} {jobs : List ι} {s : Lanes ι}

/-- No job of a lane would be in a lane with a smaller load after a move. -/
def Stable (size : ι → Nat) (lanes : List (List ι)) : Prop :=
  ∀ lane ∈ lanes, ∀ other ∈ lanes, ∀ job ∈ lane, work size lane ≤ work size other + size job

structure Scheduled (size : ι → Nat) (numLanes : Nat) (jobs : List ι) (s : Lanes ι) : Prop where
  count : s.lanes.length = numLanes
  loads : s.loads = s.lanes.map (work size)
  perm : s.lanes.flatten.Perm jobs
  stable : Stable size s.lanes

theorem leastLoad_spec (size : ι → Nat) {lanes : List (List ι)} (hne : lanes ≠ []) :
    ∃ before lane after, lanes = before ++ lane :: after ∧
      leastLoad (lanes.map (work size)) = some before.length ∧
      ∀ other ∈ lanes, work size lane ≤ work size other := by
  have hsome : leastLoad (lanes.map (work size)) ≠ none := by
    rw [leastLoad, Ne, List.argmin_eq_none, List.range_eq_nil, List.length_map]
    exact fun h => hne (List.length_eq_zero_iff.mp h)
  obtain ⟨i, hi⟩ := Option.ne_none_iff_exists'.mp hsome
  have hlt : i < lanes.length := by
    have hmem := List.argmin_mem hi
    rwa [List.mem_range, List.length_map] at hmem
  have hget (j : Nat) (hj : j < lanes.length) :
      (lanes.map (work size)).getD j 0 = work size lanes[j] := by
    rw [List.getD_eq_getElem?_getD, List.getElem?_map, List.getElem?_eq_getElem hj]
    rfl
  refine ⟨lanes.take i, lanes[i], lanes.drop (i + 1), ?_, ?_, ?_⟩
  · rw [← List.drop_eq_getElem_cons hlt, List.take_append_drop]
  · rw [hi, List.length_take, Nat.min_eq_left hlt.le]
  · intro other hother
    obtain ⟨j, hj, rfl⟩ := List.mem_iff_getElem.mp hother
    have hle := List.le_of_mem_argmin (a := j) (by simpa using hj) hi
    rwa [hget i hlt, hget j hj] at hle

/-- One job more, not larger than those before it. -/
theorem Scheduled.assignLeast (h : Scheduled size numLanes jobs s) (hlanes : 0 < numLanes)
    {job : ι} (hjob : ∀ other ∈ jobs, size job ≤ size other) :
    Scheduled size numLanes (jobs ++ [job]) (Foundation.assignLeast size s job) := by
  have hne : s.lanes ≠ [] := by
    rw [← List.length_pos_iff, h.count]
    exact hlanes
  obtain ⟨before, lane, after, hsplit, hleast, hmin⟩ := leastLoad_spec size hne
  have hstep : Foundation.assignLeast size s job =
      ⟨before ++ (lane ++ [job]) :: after,
        (before ++ (lane ++ [job]) :: after).map (work size)⟩ := by
    simp only [Foundation.assignLeast, h.loads, hleast]
    rw [hsplit, modify_middle, List.map_append, List.map_cons, ← List.length_map (work size),
      modify_middle, List.map_append, List.map_cons, work_append, work_cons, work_nil]
    rfl
  have hlane : lane ∈ s.lanes := by
    rw [hsplit]
    simp
  have hlater : ∀ other ∈ s.lanes, ∀ j ∈ other, size job ≤ size j := by
    intro other hother j hj
    exact hjob j (h.perm.mem_iff.mp (List.mem_flatten.mpr ⟨other, hother, hj⟩))
  have hnew : work size (lane ++ [job]) = work size lane + size job := by simp
  have hcases : ∀ other ∈ before ++ (lane ++ [job]) :: after,
      other ∈ s.lanes ∨ other = lane ++ [job] := by
    intro other hother
    rw [hsplit]
    simp only [List.mem_append, List.mem_cons] at hother ⊢
    tauto
  rw [hstep]
  refine ⟨?_, rfl, ?_, ?_⟩
  · rw [← h.count, hsplit]
    simp
  · refine .trans ?_ (h.perm.append_right [job])
    rw [hsplit]
    simp only [List.flatten_append, List.flatten_cons, List.append_assoc]
    exact (List.perm_append_comm.append_left lane).append_left _
  · intro mine hmine other hother j hj
    rcases hcases mine hmine with hold | rfl <;> rcases hcases other hother with hold' | rfl
    · exact h.stable mine hold other hold' j hj
    · have := h.stable mine hold lane hlane j hj
      omega
    · have := hmin other hold'
      rcases List.mem_append.mp hj with hj | hj
      · have := hlater lane hlane j hj
        omega
      · rw [List.mem_singleton.mp hj]
        omega
    · omega

theorem replicate_scheduled (size : ι → Nat) (numLanes : Nat) :
    Scheduled size numLanes [] ⟨List.replicate numLanes [], List.replicate numLanes 0⟩ where
  count := List.length_replicate
  loads := by simp
  perm := by simp
  stable := by
    intro lane hlane other _ job hjob
    rw [List.eq_of_mem_replicate hlane] at hjob
    cases hjob

/-- Jobs that come with the largest first are spread over the lanes. -/
theorem listSchedule_scheduled (hlanes : 0 < numLanes)
    (hsorted : jobs.Pairwise fun job later => size later ≤ size job) :
    Scheduled size numLanes jobs (listSchedule size numLanes jobs) := by
  suffices hrun : ∀ done s, Scheduled size numLanes done s →
      (∀ job ∈ jobs, ∀ other ∈ done, size job ≤ size other) →
      Scheduled size numLanes (done ++ jobs) (jobs.foldl (assignLeast size) s) from
    hrun [] _ (replicate_scheduled size numLanes) fun _ _ _ hother => by cases hother
  induction jobs with
  | nil =>
    intro done s h _
    rwa [List.append_nil]
  | cons job jobs ih =>
    intro done s h hle
    obtain ⟨hfirst, hrest⟩ := List.pairwise_cons.mp hsorted
    have hstep := h.assignLeast hlanes (hle job List.mem_cons_self)
    have hrun := ih hrest (done ++ [job]) _ hstep fun later hlater other hother => by
      rcases List.mem_append.mp hother with hother | hother
      · exact hle later (List.mem_cons_of_mem job hlater) other hother
      · rw [List.mem_singleton.mp hother]
        exact hfirst later hlater
    rwa [List.append_assoc] at hrun

/-- The load of one lane against the load of all. -/
theorem mul_work_le (size : ι → Nat) {lanes : List (List ι)} {lane : List ι} (hlane : lane ∈ lanes)
    {slack : Nat} (h : ∀ other ∈ lanes, work size lane ≤ work size other + slack) :
    lanes.length * work size lane ≤
      work size lanes.flatten + (lanes.length - 1) * slack := by
  have hsum (rest : List (List ι)) (hrest : ∀ other ∈ rest,
      work size lane ≤ work size other + slack) :
      rest.length * work size lane ≤ (rest.map (work size)).sum + rest.length * slack := by
    induction rest with
    | nil => simp
    | cons other rest ih =>
      have hhead := hrest other List.mem_cons_self
      have htail := ih fun l hl => hrest l (List.mem_cons_of_mem other hl)
      rw [List.length_cons, Nat.add_mul, Nat.add_mul, List.map_cons, List.sum_cons]
      omega
  obtain ⟨before, after, rfl⟩ := List.append_of_mem hlane
  have hbefore := hsum before fun l hl => h l (by simp [hl])
  have hafter := hsum after fun l hl => h l (by simp [hl])
  rw [work_flatten]
  simp only [List.length_append, List.length_cons, List.map_append, List.map_cons,
    List.sum_append, List.sum_cons]
  have hcount : before.length + (after.length + 1) - 1 = before.length + after.length := by omega
  rw [hcount]
  nlinarith

/-- The load that an assignment of the jobs to lanes puts on a lane. -/
def loadOf (size : ι → Nat) (jobs : List ι) (assignment : ι → Nat) (lane : Nat) : Nat :=
  work size (jobs.filter fun job => assignment job = lane)

theorem work_eq_sum_loadOf {assignment : ι → Nat}
    (h : ∀ job ∈ jobs, assignment job < numLanes) :
    work size jobs = ∑ lane ∈ Finset.range numLanes, loadOf size jobs assignment lane := by
  induction jobs with
  | nil => simp [loadOf]
  | cons job jobs ih =>
    have hjob := h job List.mem_cons_self
    have hload (lane : Nat) : loadOf size (job :: jobs) assignment lane =
        (if assignment job = lane then size job else 0) + loadOf size jobs assignment lane := by
      by_cases heq : assignment job = lane <;> simp [loadOf, heq]
    simp only [hload, Finset.sum_add_distrib, Finset.sum_ite_eq, Finset.mem_range, hjob, if_true,
      work_cons, ih fun j hj => h j (List.mem_cons_of_mem job hj)]

/-- Against any assignment to the same lanes, no load is more than `2n / (n + 1)` times the
largest of the assignment. -/
theorem Scheduled.load_bound (h : Scheduled size numLanes jobs s) (hlanes : 0 < numLanes)
    (assignment : ι → Nat) (hassigned : ∀ job ∈ jobs, assignment job < numLanes) {bound : Nat}
    (hbound : ∀ lane < numLanes, loadOf size jobs assignment lane ≤ bound)
    {lane : List ι} (hlane : lane ∈ s.lanes) :
    (numLanes + 1) * work size lane ≤ 2 * numLanes * bound := by
  have htotal : work size s.lanes.flatten ≤ numLanes * bound := by
    rw [work_perm size h.perm, work_eq_sum_loadOf hassigned]
    refine (Finset.sum_le_card_nsmul _ _ bound fun l hl => ?_).trans (by simp)
    exact hbound l (Finset.mem_range.mp hl)
  have hone {job : ι} (hjob : job ∈ lane) : size job ≤ bound := by
    have hmem := h.perm.mem_iff.mp (List.mem_flatten.mpr ⟨lane, hlane, hjob⟩)
    refine (size_le_work ?_).trans (hbound (assignment job) (hassigned job hmem))
    exact List.mem_filter.mpr ⟨hmem, by simp⟩
  have hall {job : ι} (hjob : job ∈ lane) := mul_work_le size hlane fun other hother =>
    h.stable lane hlane other hother job hjob
  rw [h.count] at hall
  rcases lane with _ | ⟨job, _ | ⟨job', rest⟩⟩
  · simp
  · have := hone List.mem_cons_self
    simp only [work_cons, work_nil]
    nlinarith
  · -- The smaller of two jobs is at most half of the load.
    obtain ⟨small, hsmall, hhalf⟩ : ∃ small ∈ job :: job' :: rest,
        2 * size small ≤ work size (job :: job' :: rest) := by
      rcases Nat.le_total (size job) (size job') with hle | hle
      · exact ⟨job, by simp, by simp only [work_cons]; omega⟩
      · exact ⟨job', by simp, by simp only [work_cons]; omega⟩
    have hmul := hall hsmall
    obtain ⟨n, rfl⟩ : ∃ n, numLanes = n + 1 := ⟨numLanes - 1, by omega⟩
    rw [Nat.add_sub_cancel] at hmul
    nlinarith

end SglJax.Foundation
