import SglJax.MemCache.RadixWalk

/-! What locking, unlocking and evicting do to a `RadixCache`. Locks change the
counts along one path; an eviction is a sequence of removals of unlocked
leaves. -/
namespace SglJax.MemCache.RadixCache

open Foundation Foundation.NodeTable

/-! ### Locks -/

def addLock (k : Int) (d : RadixNode) : RadixNode := { d with lockRef := d.lockRef + k }

/-- One more or one less reference on the nodes with the given identities. -/
def relock (c : RadixCache) (ids : List Nat) (k : Int) : Tree RadixNode :=
  c.tree.modify ids (addLock k)

section Locks

variable {c : RadixCache}

theorem lockStep_tree (state : RadixCache × Int) (n : TreeNode RadixNode) :
    (lockStep state n).1.tree = state.1.relock [n.id] 1 := by
  unfold lockStep
  dsimp only
  split <;> rfl

theorem unlockStep_tree (state : RadixCache × Int) (n : TreeNode RadixNode) :
    (unlockStep state n).1.tree = state.1.relock [n.id] (-1) := by
  unfold unlockStep
  dsimp only
  split <;> rfl

/-- The fields a lock never touches. -/
def settings (c : RadixCache) : Nat × Bool × Bool × Nat :=
  (c.pageSize, c.disable, c.isEagle, c.counter)

theorem lockStep_settings (state : RadixCache × Int) (n : TreeNode RadixNode) :
    (lockStep state n).1.settings = state.1.settings := by
  unfold lockStep
  dsimp only
  split <;> rfl

theorem unlockStep_settings (state : RadixCache × Int) (n : TreeNode RadixNode) :
    (unlockStep state n).1.settings = state.1.settings := by
  unfold unlockStep
  dsimp only
  split <;> rfl

theorem Valid.relock {d : RadixCache} (valid : Valid c) {ids : List Nat} {k : Int}
    (htree : d.tree = c.relock ids k) (hsettings : d.settings = c.settings) : Valid d := by
  simp only [settings, Prod.mk.injEq] at hsettings
  obtain ⟨hpage, -, heagle, hcounter⟩ := hsettings
  refine ⟨hpage ▸ valid.page_pos, ?_, ?_, hcounter ▸ valid.counter_pos, ?_⟩
  · rw [htree, hpage, heagle]
    exact valid.tree.modify ids fun _ => rfl
  · intro n hn
    rw [htree, RadixCache.relock] at hn
    obtain ⟨m, hm, rfl⟩ := mem_modify.mp hn
    have := valid.value_len m hm
    dsimp only
    split <;> exact this
  · intro n hn
    rw [htree, RadixCache.relock] at hn
    obtain ⟨m, hm, rfl⟩ := mem_modify.mp hn
    rw [hcounter]
    exact valid.id_lt m hm

/-- A step of the fold over a path: it only touches the node it is given. -/
structure LockStep (step : RadixCache × Int → TreeNode RadixNode → RadixCache × Int)
    (k : Int) : Prop where
  tree : ∀ state n, (step state n).1.tree = state.1.relock [n.id] k
  settings : ∀ state n, (step state n).1.settings = state.1.settings

theorem lockStep_isLockStep : LockStep lockStep 1 := ⟨lockStep_tree, lockStep_settings⟩

theorem unlockStep_isLockStep : LockStep unlockStep (-1) :=
  ⟨unlockStep_tree, unlockStep_settings⟩

variable {step : RadixCache × Int → TreeNode RadixNode → RadixCache × Int} {k : Int}

theorem LockStep.mem_of_ne (h : LockStep step k) {state : RadixCache × Int}
    {n m : TreeNode RadixNode} (hm : m ∈ state.1.tree) (hne : m.id ≠ n.id) :
    m ∈ (step state n).1.tree := by
  rw [h.tree, relock]
  exact mem_modify.mpr ⟨m, hm, by simp [hne]⟩

/-- What every step of the fold keeps, the fold keeps. The steps read the nodes
as they were when the path was taken; no node is met twice, so these readings
stay current. -/
theorem LockStep.fold_preserves (h : LockStep step k) {P : RadixCache → Prop}
    (keeps : ∀ state n, Valid state.1 → n ∈ state.1.tree → P state.1 → P (step state n).1)
    {rows : List (TreeNode RadixNode)} (nodup : (rows.map Node.id).Nodup)
    {state : RadixCache × Int} (valid : Valid state.1) (hrows : ∀ n ∈ rows, n ∈ state.1.tree)
    (hP : P state.1) : Valid (rows.foldl step state).1 ∧ P (rows.foldl step state).1 := by
  induction rows generalizing state with
  | nil => exact ⟨valid, hP⟩
  | cons n rows ih =>
    rw [List.map_cons, List.nodup_cons] at nodup
    rw [List.foldl_cons]
    refine ih nodup.2 (valid.relock (h.tree _ _) (h.settings _ _)) ?_
      (keeps state n valid (hrows n (by simp)) hP)
    intro m hm
    refine h.mem_of_ne (hrows m (by simp [hm])) fun heq => nodup.1 ?_
    rw [← heq]
    exact List.mem_map_of_mem hm

theorem relock_relock {t : Tree RadixNode} {a : Nat} {ids : List Nat} (hnot : a ∉ ids) :
    (t.modify [a] (addLock k)).modify ids (addLock k) = t.modify (a :: ids) (addLock k) := by
  rw [modify_eq_map, modify_eq_map, modify_eq_map, List.map_map]
  apply List.map_congr_left
  intro n _
  by_cases hid : n.id = a
  · simp [hid, hnot]
  · simp [hid]

theorem LockStep.fold_tree (h : LockStep step k) {rows : List (TreeNode RadixNode)}
    (nodup : (rows.map Node.id).Nodup) (state : RadixCache × Int) :
    (rows.foldl step state).1.tree = state.1.relock (rows.map Node.id) k ∧
      (rows.foldl step state).1.settings = state.1.settings := by
  induction rows generalizing state with
  | nil =>
    refine ⟨?_, rfl⟩
    simp [relock, modify_eq_map]
  | cons n rows ih =>
    rw [List.map_cons, List.nodup_cons] at nodup
    obtain ⟨htree, hsettings⟩ := ih nodup.2 (step state n)
    refine ⟨?_, by rw [List.foldl_cons, hsettings, h.settings]⟩
    rw [List.foldl_cons, htree, relock, h.tree, relock, relock_relock nodup.1]
    rfl

/-- However often the rows name a node, so often its count changes. -/
theorem LockStep.fold_counts (h : LockStep step k) (rows : List (TreeNode RadixNode))
    (state : RadixCache × Int) :
    (rows.foldl step state).1.tree = state.1.tree.map fun n =>
      { n with data := addLock (k * (rows.map Node.id).count n.id) n.data } := by
  induction rows generalizing state with
  | nil => simp [addLock]
  | cons m rows ih =>
    rw [List.foldl_cons, ih, h.tree, relock, modify_eq_map, List.map_map]
    apply List.map_congr_left
    intro n _
    by_cases hid : n.id = m.id
    · simp only [Function.comp_apply, hid, List.mem_singleton, if_true, List.map_cons, List.count_cons,
        beq_self_eq_true]
      simp only [addLock, Int.mul_add, Int.mul_one, Int.natCast_add, Int.natCast_one]
      rw [Int.add_assoc, Int.add_comm k]
    · have hne : m.id ≠ n.id := fun h => hid h.symm
      simp [hid, hne]

theorem LockStep.fold_settings (h : LockStep step k) (rows : List (TreeNode RadixNode))
    (state : RadixCache × Int) : (rows.foldl step state).1.settings = state.1.settings := by
  induction rows generalizing state with
  | nil => rfl
  | cons m rows ih => rw [List.foldl_cons, ih, h.settings]

/-- A release gives back what the lock took, in any tree. -/
theorem decLockRef_incLockRef_tree (c : RadixCache) (node : Nat) :
    (((c.incLockRef node).1).decLockRef node).1.tree = c.tree := by
  unfold incLockRef
  split
  · rename_i hdis
    simp [decLockRef, hdis]
  · rename_i hdis
    have htree := lockStep_isLockStep.fold_counts (c.tree.ancestors node) (c, 0)
    have hsettings := lockStep_isLockStep.fold_settings (c.tree.ancestors node) (c, 0)
    generalize ((c.tree.ancestors node).foldl lockStep (c, 0)).1 = locked at htree hsettings ⊢
    have hdis' : locked.disable = c.disable := congrArg (fun s => s.2.1) hsettings
    unfold decLockRef
    rw [hdis', if_neg hdis, unlockStep_isLockStep.fold_counts]
    dsimp only
    rw [htree, ids_ancestors_map_data, List.map_map]
    conv_rhs => rw [← List.map_id c.tree]
    apply List.map_congr_left
    intro n _
    simp only [Function.comp_apply, addLock, Int.one_mul, Int.neg_mul, Int.add_neg_cancel_right]
    rfl
/-- Locking or unlocking a node of the tree changes the counts on its path. -/
theorem LockStep.path_tree (h : LockStep step k) (valid : Valid c) {node : Nat}
    {rows : List (TreeNode RadixNode)} (hpath : Path c.tree node rows) :
    ((c.tree.ancestors node).foldl step (c, 0)).1.tree = c.relock (rows.map Node.id) k ∧
      ((c.tree.ancestors node).foldl step (c, 0)).1.settings = c.settings := by
  rw [ancestors_eq valid.tree.rooted.toGrounded hpath]
  have hnodup := hpath.ids_nodup valid.tree.rooted.toGrounded
  obtain ⟨htree, hsettings⟩ := h.fold_tree
    (by rw [List.map_reverse]; exact List.nodup_reverse.mpr hnodup) (c, (0 : Int))
  refine ⟨?_, hsettings⟩
  rw [htree, relock, relock, List.map_reverse]
  simp only [NodeTable.modify, List.mem_reverse]

theorem LockStep.path_preserves (h : LockStep step k) {P : RadixCache → Prop}
    (keeps : ∀ state n, Valid state.1 → n ∈ state.1.tree → P state.1 → P (step state n).1)
    (valid : Valid c) {node : Nat} {rows : List (TreeNode RadixNode)}
    (hpath : Path c.tree node rows) (hP : P c) :
    Valid ((c.tree.ancestors node).foldl step (c, 0)).1 ∧
      P ((c.tree.ancestors node).foldl step (c, 0)).1 := by
  rw [ancestors_eq valid.tree.rooted.toGrounded hpath]
  have hnodup := hpath.ids_nodup valid.tree.rooted.toGrounded
  refine h.fold_preserves keeps ?_ valid ?_ hP
  · rw [List.map_reverse]
    exact List.nodup_reverse.mpr hnodup
  · intro n hn
    exact hpath.mem n (List.mem_reverse.mp hn)

theorem Valid.incLockRef (valid : Valid c) {node : Nat} {rows : List (TreeNode RadixNode)}
    (hpath : Path c.tree node rows) : Valid (c.incLockRef node).1 := by
  unfold RadixCache.incLockRef
  split
  · exact valid
  · obtain ⟨htree, hsettings⟩ := lockStep_isLockStep.path_tree valid hpath
    exact valid.relock htree hsettings

theorem Valid.decLockRef (valid : Valid c) {node : Nat} {rows : List (TreeNode RadixNode)}
    (hpath : Path c.tree node rows) : Valid (c.decLockRef node).1 := by
  unfold RadixCache.decLockRef
  split
  · exact valid
  · obtain ⟨htree, hsettings⟩ := unlockStep_isLockStep.path_tree valid hpath
    exact valid.relock htree hsettings

end Locks

/-! ### Eviction -/

/-- A leaf that `evict` may take. -/
structure Evictable (c : RadixCache) (n : TreeNode RadixNode) : Prop where
  mem : n ∈ c.tree
  leaf : ∀ m ∈ c.tree, m.parent ≠ n.id
  unlocked : ¬ n.data.lockRef > 0

/-- `d` is `c` after removing unlocked leaves, handing back their slots. -/
inductive Evicts : RadixCache → List FreeCall → RadixCache → Prop where
  | refl (c : RadixCache) : Evicts c [] c
  | head {c d : RadixCache} {n : TreeNode RadixNode} {freed : List FreeCall}
      (take : Evictable c n) (rest : Evicts (c.deleteLeaf n) freed d) :
      Evicts c (⟨n.data.value, n.data.key.rank⟩ :: freed) d

section Eviction

variable {c d : RadixCache}

theorem Valid.deleteLeaf (valid : Valid c) {n : TreeNode RadixNode} (take : Evictable c n) :
    Valid (c.deleteLeaf n) where
  page_pos := valid.page_pos
  tree := valid.tree.detach take.leaf
  value_len := fun m hm => valid.value_len m (mem_detach.mp hm).1
  counter_pos := valid.counter_pos
  id_lt := fun m hm => valid.id_lt m (mem_detach.mp hm).1

theorem Evicts.valid {freed : List FreeCall} (h : Evicts c freed d) (valid : Valid c) :
    Valid d := by
  induction h with
  | refl c => exact valid
  | head take rest ih => exact ih (valid.deleteLeaf take)

theorem evictLoop_spec (order : PopOrder) (numTokens : Nat) (dpRank : Option Nat) (fuel : Nat)
    {leaves : List Nat} (hleaves : ∀ x ∈ leaves, ∀ m ∈ c.tree, m.parent ≠ x)
    (freed : List FreeCall) (numEvicted : Nat) :
    ∃ more, (evictLoop order numTokens dpRank fuel c leaves freed numEvicted).2.1 =
        freed ++ more ∧
      Evicts c more (evictLoop order numTokens dpRank fuel c leaves freed numEvicted).1 := by
  induction fuel generalizing c leaves freed numEvicted with
  | zero => exact ⟨[], by simp [evictLoop], .refl c⟩
  | succ fuel ih =>
    unfold evictLoop
    split
    swap
    · exact ⟨[], by simp, .refl c⟩
    split
    · exact ⟨[], by simp, .refl c⟩
    rename_i x rest hpop
    have hrest : ∀ y ∈ rest, ∀ m ∈ c.tree, m.parent ≠ y := fun y hy =>
      hleaves y (order.mem_of_mem_rest hpop hy)
    split
    · exact ⟨[], by simp, .refl c⟩
    rename_i n hfind
    split
    · exact ih hrest freed numEvicted
    rename_i hlock
    split
    · exact ih hrest freed numEvicted
    obtain ⟨hmem, hid⟩ := mem_of_find? hfind
    have take : Evictable c n :=
      ⟨hmem, by rw [hid]; exact hleaves x (order.mem_of_pop hpop), hlock⟩
    -- The tree only shrinks, and the parent joins the queue once it is bare.
    have hnext : ∀ y ∈ (if (c.deleteLeaf n).tree.children n.parent = [] then n.parent :: rest
        else rest), ∀ m ∈ (c.deleteLeaf n).tree, m.parent ≠ y := by
      intro y hy m hm
      have hold : ∀ z ∈ rest, m.parent ≠ z := fun z hz => hrest z hz m (mem_detach.mp hm).1
      split at hy
      · rename_i hbare
        rcases List.mem_cons.mp hy with rfl | hy
        · intro hparent
          have : m ∈ (c.deleteLeaf n).tree.children n.parent := mem_children.mpr ⟨hm, hparent⟩
          rw [hbare] at this
          cases this
        · exact hold y hy
      · exact hold y hy
    obtain ⟨more, hfreed, hevicts⟩ := ih hnext
      (freed ++ [⟨n.data.value, n.data.key.rank⟩]) (numEvicted + n.data.value.length)
    refine ⟨⟨n.data.value, n.data.key.rank⟩ :: more, ?_, .head take hevicts⟩
    rw [hfreed, List.append_assoc]
    rfl

theorem collectLeaves_childless (c : RadixCache) :
    ∀ x ∈ c.collectLeaves, ∀ m ∈ c.tree, m.parent ≠ x := by
  intro x hx m hm hparent
  have hchild : m ∈ c.tree.children x := mem_children.mpr ⟨hm, hparent⟩
  unfold collectLeaves at hx
  split at hx
  · rename_i hbare
    rw [List.mem_singleton.mp hx, hbare] at hchild
    cases hchild
  · obtain ⟨n, hn, rfl⟩ := List.mem_map.mp hx
    have := (List.mem_filter.mp hn).2
    rw [decide_eq_true_eq] at this
    rw [this] at hchild
    cases hchild

theorem evict_spec (c : RadixCache) (order : PopOrder) (numTokens : Nat) (dpRank : Option Nat) :
    Evicts c (c.evict order numTokens dpRank).2.1 (c.evict order numTokens dpRank).1 := by
  unfold evict
  split
  · exact .refl c
  · obtain ⟨more, hfreed, hevicts⟩ := evictLoop_spec order numTokens dpRank
      (c.collectLeaves.length + c.tree.length + 1) c.collectLeaves_childless [] 0
    rw [List.nil_append] at hfreed
    dsimp only
    rw [hfreed]
    exact hevicts

end Eviction
end SglJax.MemCache.RadixCache
