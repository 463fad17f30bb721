import SglJax.MemCache.KvPartition

/-! What a rank can still get from its allocator and its tree together. Locks move
tokens out of the budget of their own rank, an eviction moves them from the tree to
the allocator, and it goes on until it has what it was asked for or nothing of the
rank is left. -/
namespace SglJax.MemCache.RadixCache

open Foundation Foundation.NodeTable

/-! ### Eviction makes progress -/

/-- What the loop of `evict` passes over. -/
def Skipped (dpRank : Option Nat) (d : RadixNode) : Prop :=
  d.lockRef > 0 ∨ (dpRank.isSome && dpRank != some d.key.rank) = true

def Leaf (c : RadixCache) (id : Nat) : Prop := ∀ m ∈ c.tree, m.parent ≠ id

/-- The queue of `evict` holds leaves, and all that the loop may still take. -/
structure Queue (dpRank : Option Nat) (c : RadixCache) (leaves : List Nat) : Prop where
  nodup : leaves.Nodup
  leaf : ∀ x ∈ leaves, c.Leaf x
  known : ∀ x ∈ leaves, (∃ n ∈ c.tree, n.id = x) ∨ c.tree = []
  complete : ∀ n ∈ c.tree, c.Leaf n.id → n.id ∈ leaves ∨ Skipped dpRank n.data

section Progress

variable {c : RadixCache} {dpRank : Option Nat} {leaves rest : List Nat} {n : TreeNode RadixNode}

theorem Queue.perm (h : Queue dpRank c leaves) (hperm : leaves.Perm rest) : Queue dpRank c rest where
  nodup := hperm.nodup_iff.mp h.nodup
  leaf := fun x hx => h.leaf x (hperm.mem_iff.mpr hx)
  known := fun x hx => h.known x (hperm.mem_iff.mpr hx)
  complete := fun m hm hleaf => (h.complete m hm hleaf).imp_left hperm.mem_iff.mp

theorem queue_collectLeaves (valid : Valid c) (dpRank : Option Nat) :
    Queue dpRank c c.collectLeaves := by
  have hleaf := c.collectLeaves_childless
  unfold collectLeaves at hleaf ⊢
  split
  · rename_i hbare
    have hnil : c.tree = [] := by
      apply valid.tree.rooted.toGrounded.eq_nil_of_bare
      intro n hn hparent
      have hchild : n ∈ c.tree.children rootId := mem_children.mpr ⟨hn, hparent⟩
      rw [hbare] at hchild
      cases hchild
    refine ⟨by simp, ?_, fun _ _ => .inr hnil, ?_⟩
    · simp [Leaf, hnil]
    · simp [hnil]
  · rename_i hsome
    rw [if_neg hsome] at hleaf
    refine ⟨?_, hleaf, ?_, ?_⟩
    · exact valid.tree.rooted.nodup.sublist (List.filter_sublist.map Node.id)
    · intro x hx
      obtain ⟨n, hn, rfl⟩ := List.mem_map.mp hx
      exact .inl ⟨n, (List.mem_filter.mp hn).1, rfl⟩
    · intro n hn hchildless
      left
      apply List.mem_map_of_mem
      rw [List.mem_filter, decide_eq_true_eq]
      refine ⟨hn, List.eq_nil_iff_forall_not_mem.mpr ?_⟩
      intro m hm
      exact hchildless m (mem_children.mp hm).1 (mem_children.mp hm).2

theorem Queue.skip (h : Queue dpRank c (n.id :: rest)) (valid : Valid c) (hn : n ∈ c.tree)
    (hskip : Skipped dpRank n.data) : Queue dpRank c rest where
  nodup := (List.nodup_cons.mp h.nodup).2
  leaf := fun x hx => h.leaf x (List.mem_cons_of_mem _ hx)
  known := fun x hx => h.known x (List.mem_cons_of_mem _ hx)
  complete := by
    intro m hm hleaf
    rcases h.complete m hm hleaf with hmem | hskipped
    · rcases List.mem_cons.mp hmem with hid | hmem
      · obtain rfl := eq_of_id_eq valid.tree.rooted.nodup hm hn hid
        exact .inr hskip
      · exact .inl hmem
    · exact .inr hskipped

/-- What joins the queue behind a removed leaf. -/
def pushParent (c : RadixCache) (n : TreeNode RadixNode) (leaves : List Nat) : List Nat :=
  if (c.deleteLeaf n).tree.children n.parent = [] then n.parent :: leaves else leaves

theorem leaf_deleteLeaf {x : Nat} (h : c.Leaf x) : (c.deleteLeaf n).Leaf x := fun m hm =>
  h m (mem_detach.mp hm).1

theorem known_parent (valid : Valid c) (take : Evictable c n)
    (hbare : (c.deleteLeaf n).Leaf n.parent) :
    (∃ m ∈ (c.deleteLeaf n).tree, m.id = n.parent) ∨ (c.deleteLeaf n).tree = [] := by
  have grounded := valid.tree.rooted.toGrounded
  by_cases hroot : n.parent = rootId
  · right
    apply (valid.deleteLeaf take).tree.rooted.toGrounded.eq_nil_of_bare
    intro m hm
    rw [← hroot]
    exact hbare m hm
  · left
    obtain ⟨rows, hrows⟩ := grounded.reach n take.mem
    obtain ⟨init, m, rfl, hm, hid, habove⟩ := hrows.snoc_inv (grounded.root_not_mem n take.mem)
    obtain rfl := eq_of_id_eq grounded.nodup hm take.mem hid
    obtain ⟨-, parent, -, hparent, hpid, -⟩ := habove.snoc_inv hroot
    refine ⟨parent, mem_detach.mpr ⟨hparent, ?_⟩, hpid⟩
    rw [hpid]
    exact grounded.parent_ne_id hm

theorem Queue.take (h : Queue dpRank c (n.id :: rest)) (valid : Valid c) (take : Evictable c n) :
    Queue dpRank (c.deleteLeaf n) (c.pushParent n rest) := by
  have hnot := (List.nodup_cons.mp h.nodup).1
  have hbare : (c.deleteLeaf n).tree.children n.parent = [] → (c.deleteLeaf n).Leaf n.parent := by
    intro hnil m hm hparent
    have hchild : m ∈ (c.deleteLeaf n).tree.children n.parent := mem_children.mpr ⟨hm, hparent⟩
    rw [hnil] at hchild
    cases hchild
  have hparent : n.parent ∉ rest := fun hmem =>
    h.leaf n.parent (List.mem_cons_of_mem _ hmem) n take.mem rfl
  have hrest : Queue dpRank c (n.id :: rest) := h
  have hknown : ∀ x ∈ rest, (∃ m ∈ (c.deleteLeaf n).tree, m.id = x) ∨
      (c.deleteLeaf n).tree = [] := by
    intro x hx
    rcases h.known x (List.mem_cons_of_mem _ hx) with ⟨m, hm, rfl⟩ | hnil
    · exact .inl ⟨m, mem_detach.mpr ⟨hm, fun hid => hnot (hid ▸ hx)⟩, rfl⟩
    · have hmem := take.mem
      rw [hnil] at hmem
      cases hmem
  have hold : ∀ x ∈ rest, (c.deleteLeaf n).Leaf x := fun x hx =>
    leaf_deleteLeaf (h.leaf x (List.mem_cons_of_mem _ hx))
  -- Only the parent of the removed leaf can become a leaf.
  have hcomplete : ∀ m ∈ (c.deleteLeaf n).tree, (c.deleteLeaf n).Leaf m.id →
      m.id = n.parent ∨ m.id ∈ rest ∨ Skipped dpRank m.data := by
    intro m hm hleaf
    obtain ⟨hmem, hne⟩ := mem_detach.mp hm
    by_cases hold : c.Leaf m.id
    · rcases h.complete m hmem hold with hqueued | hskipped
      · rcases List.mem_cons.mp hqueued with hid | hqueued
        · exact absurd hid hne
        · exact .inr (.inl hqueued)
      · exact .inr (.inr hskipped)
    · left
      unfold Leaf at hold
      push Not at hold
      obtain ⟨child, hchild, hup⟩ := hold
      have hself : child.id = n.id := by
        by_contra hother
        exact hleaf child (mem_detach.mpr ⟨hchild, hother⟩) hup
      rw [← eq_of_id_eq valid.tree.rooted.nodup hchild take.mem hself, hup]
  unfold pushParent
  split
  · rename_i hnil
    refine ⟨?_, ?_, ?_, ?_⟩
    · exact List.nodup_cons.mpr ⟨hparent, (List.nodup_cons.mp h.nodup).2⟩
    · intro x hx
      rcases List.mem_cons.mp hx with rfl | hx
      · exact hbare hnil
      · exact hold x hx
    · intro x hx
      rcases List.mem_cons.mp hx with rfl | hx
      · exact known_parent valid take (hbare hnil)
      · exact hknown x hx
    · intro m hm hleaf
      rcases hcomplete m hm hleaf with hid | hmem | hskipped
      · exact .inl (List.mem_cons.mpr (.inl hid))
      · exact .inl (List.mem_cons_of_mem _ hmem)
      · exact .inr hskipped
  · rename_i hsome
    refine ⟨(List.nodup_cons.mp h.nodup).2, hold, hknown, ?_⟩
    intro m hm hleaf
    rcases hcomplete m hm hleaf with hid | hrest
    · exfalso
      apply hsome
      apply List.eq_nil_iff_forall_not_mem.mpr
      intro child hchild
      obtain ⟨hmem, hup⟩ := mem_children.mp hchild
      exact hleaf child hmem (hup.trans hid.symm)
    · exact hrest

theorem length_pushParent_le (c : RadixCache) (n : TreeNode RadixNode) (leaves : List Nat) :
    (c.pushParent n leaves).length ≤ leaves.length + 1 := by
  unfold pushParent
  split
  · exact le_rfl
  · exact Nat.le_succ _

theorem length_deleteLeaf (valid : Valid c) (hn : n ∈ c.tree) :
    (c.deleteLeaf n).tree.length + 1 = c.tree.length :=
  (perm_cons_detach valid.tree.rooted.nodup hn).length_eq.symm

/-- With fuel for the queue and the tree, the loop ends because it has enough or
because it may take no more. -/
theorem evictLoop_progress (order : PopOrder) (numTokens : Nat) (fuel : Nat) (valid : Valid c)
    (queue : Queue dpRank c leaves) (hfuel : leaves.length + c.tree.length < fuel)
    (freed : List FreeCall) (numEvicted : Nat) :
    numTokens ≤ (evictLoop order numTokens dpRank fuel c leaves freed numEvicted).2.2 ∨
      ∀ m ∈ (evictLoop order numTokens dpRank fuel c leaves freed numEvicted).1.tree,
        (evictLoop order numTokens dpRank fuel c leaves freed numEvicted).1.Leaf m.id →
          Skipped dpRank m.data := by
  induction fuel generalizing c leaves freed numEvicted with
  | zero => omega
  | succ fuel ih =>
    unfold evictLoop
    split
    swap
    · exact .inl (by dsimp only; omega)
    split
    · rename_i hpop
      right
      intro m hm hleaf
      rcases queue.complete m hm hleaf with hmem | hskipped
      · rw [order.pop_none hpop] at hmem
        cases hmem
      · exact hskipped
    rename_i x rest hpop
    have hperm := order.pop_perm hpop
    have hlen := hperm.length_eq
    rw [List.length_cons] at hlen
    have queue := queue.perm hperm
    split
    · rename_i hnone
      right
      rcases queue.known x (by simp) with ⟨m, hm, hid⟩ | hnil
      · exact absurd hid (find?_eq_none.mp hnone m hm)
      · simp [hnil]
    rename_i n hfind
    obtain ⟨hmem, rfl⟩ := mem_of_find? hfind
    split
    · rename_i hlock
      exact ih valid (queue.skip valid hmem (.inl hlock)) (by omega) _ _
    rename_i hlock
    split
    · rename_i hrank
      exact ih valid (queue.skip valid hmem (.inr hrank)) (by omega) _ _
    have take : Evictable c n := ⟨hmem, queue.leaf n.id (by simp), hlock⟩
    have hless := length_deleteLeaf valid hmem
    have hpush := c.length_pushParent_le n rest
    exact ih (valid.deleteLeaf take) (queue.take valid take) (by omega) _ _

/-- The loop counts what it frees, and frees for its rank only. -/
theorem evictLoop_counts (order : PopOrder) (numTokens rank fuel : Nat) (c : RadixCache)
    (leaves : List Nat) (freed : List FreeCall) (numEvicted : Nat) :
    ∃ more, (evictLoop order numTokens (some rank) fuel c leaves freed numEvicted).2.1 =
        freed ++ more ∧
      (evictLoop order numTokens (some rank) fuel c leaves freed numEvicted).2.2 =
        numEvicted + (more.map fun call => call.indices.length).sum ∧
      ∀ call ∈ more, call.dpRank = rank := by
  induction fuel generalizing c leaves freed numEvicted with
  | zero => exact ⟨[], by simp [evictLoop]⟩
  | succ fuel ih =>
    unfold evictLoop
    split
    swap
    · exact ⟨[], by simp⟩
    split
    · exact ⟨[], by simp⟩
    split
    · exact ⟨[], by simp⟩
    rename_i n hfind
    split
    · exact ih _ _ _ _
    split
    · exact ih _ _ _ _
    rename_i hrank
    obtain ⟨more, hfreed, hcount, hranks⟩ := ih (c.deleteLeaf n) (c.pushParent n _)
      (freed ++ [⟨n.data.value, n.data.key.rank⟩]) (numEvicted + n.data.value.length)
    refine ⟨⟨n.data.value, n.data.key.rank⟩ :: more, ?_, ?_, ?_⟩
    · exact hfreed.trans (by simp)
    · refine hcount.trans ?_
      simp only [List.map_cons, List.sum_cons]
      omega
    · intro call hcall
      rcases List.mem_cons.mp hcall with rfl | hcall
      · have hsame : rank = n.data.key.rank := by simpa using hrank
        exact hsame.symm
      · exact hranks call hcall

end Progress

/-! ### The budget of a rank -/

section Unlocked

variable {c : RadixCache} {holders : List Nat} {rank : Nat}

theorem exists_unlocked (h : weigh (unlockedOn rank) c.tree ≠ 0) :
    ∃ n ∈ c.tree, n.data.key.rank = rank ∧ n.data.lockRef = 0 := by
  obtain ⟨n, hn, hpos⟩ := exists_of_weigh_pos (Nat.pos_of_ne_zero h)
  refine ⟨n, hn, ?_, ?_⟩
  · by_contra hrank
    simp [unlockedOn, sizeOn_of_ne hrank] at hpos
  · by_contra hlock
    simp [unlockedOn_of_ne hlock] at hpos

/-- Below an unlocked node every node is unlocked and of its rank. -/
theorem Custody.leaf_of_unlocked (h : Custody c holders) {n : TreeNode RadixNode} (hn : n ∈ c.tree)
    (hlock : n.data.lockRef = 0) :
    ∃ leaf ∈ c.tree, c.Leaf leaf.id ∧ leaf.data.lockRef = 0 ∧
      leaf.data.key.rank = n.data.key.rank := by
  have grounded := h.valid.tree.rooted.toGrounded
  obtain ⟨leaf, hleaf, hchildless, rows, hpath, hmem⟩ := grounded.exists_leaf hn
  refine ⟨leaf, hleaf, hchildless, ?_, ?_⟩
  · rw [h.locks leaf hleaf]
    have hzero : c.tree.refs holders n.id = 0 := by
      have hcount := h.locks n hn
      omega
    -- A reference through the leaf passes through the node too.
    have hle : c.tree.refs holders leaf.id ≤ c.tree.refs holders n.id := by
      apply List.countP_mono_left
      intro holder hholder hrefers
      obtain ⟨path, hholds⟩ := h.paths holder hholder
      simp only [decide_eq_true_eq] at hrefers ⊢
      rw [refers_iff grounded hholds] at hrefers ⊢
      obtain ⟨m, hm, hid⟩ := List.mem_map.mp hrefers
      obtain rfl := eq_of_id_eq grounded.nodup (hholds.mem m hm) hleaf hid
      obtain ⟨above, below, rfl⟩ := List.append_of_mem hm
      have hsame := Path.unique grounded hholds.initial hpath
      apply List.mem_map_of_mem
      rw [← hsame] at hmem
      simp only [List.mem_append, List.mem_cons] at hmem ⊢
      tauto
    omega
  · exact ((h.valid.tree.path_sameSpace hpath n hmem).rank_eq).symm

/-- When the loop can take no more of a rank, nothing of it is evictable. -/
theorem Custody.evictable_eq_zero (h : Custody c holders)
    (hdone : ∀ n ∈ c.tree, c.Leaf n.id → Skipped (some rank) n.data) : c.evictableSize rank = 0 := by
  rw [h.sized rank]
  by_contra hne
  obtain ⟨n, hn, hrank, hlock⟩ := exists_unlocked (mt Int.natCast_eq_zero.mpr hne)
  obtain ⟨leaf, hleaf, hchildless, hfree, hsame⟩ := h.leaf_of_unlocked hn hlock
  rcases hdone leaf hleaf hchildless with hlocked | hother
  · omega
  · simp [hsame, hrank] at hother

/-- What `evict` hands back for a rank, unless it leaves nothing of it. -/
theorem Custody.evict_progress (h : Custody c holders) (order : PopOrder) (numTokens : Nat)
    (hafter : Custody (c.evict order numTokens (some rank)).1 holders) :
    (∀ call ∈ (c.evict order numTokens (some rank)).2.1, call.dpRank = rank) ∧
      (numTokens ≤ ((c.evict order numTokens (some rank)).2.1.map fun call =>
          call.indices.length).sum ∨
        (c.evict order numTokens (some rank)).1.evictableSize rank = 0) := by
  unfold evict at hafter ⊢
  split
  · rename_i hdisable
    refine ⟨by simp, .inr ?_⟩
    rw [h.sized rank, h.disabled hdisable]
    rfl
  · rename_i henabled
    rw [if_neg henabled] at hafter
    obtain ⟨more, hfreed, hcount, hranks⟩ := evictLoop_counts order numTokens rank
      (c.collectLeaves.length + c.tree.length + 1) c c.collectLeaves [] 0
    rw [List.nil_append] at hfreed
    have hprogress := evictLoop_progress order numTokens
      (c.collectLeaves.length + c.tree.length + 1) h.valid
      (queue_collectLeaves h.valid (some rank)) (Nat.lt_succ_self _) [] 0
    rw [Nat.zero_add, ← hfreed] at hcount
    dsimp only at hafter ⊢
    rw [hfreed] at hcount ⊢
    refine ⟨hranks, ?_⟩
    rcases hprogress with henough | hdone
    · exact .inl (henough.trans hcount.le)
    · exact .inr (hafter.evictable_eq_zero hdone)

end Unlocked
/-! ### Locks and the budget -/

section Locks

variable {c : RadixCache} {holders : List Nat} {node rank : Nat} {rows : List (TreeNode RadixNode)}

theorem Custody.dvd_evictableSize (h : Custody c holders) (rank : Nat) :
    (c.pageSize : Int) ∣ c.evictableSize rank := by
  rw [h.sized rank, Int.natCast_dvd_natCast]
  apply dvd_weigh
  intro n hn
  unfold unlockedOn sizeOn
  split
  · split
    · rw [h.valid.value_len n hn]
      exact Nat.dvd_of_mod_eq_zero (h.valid.tree.aligned n hn)
    · exact Nat.dvd_zero _
  · exact Nat.dvd_zero _

/-- The node's path lies within one rank. -/
def OnRank (c : RadixCache) (node rank : Nat) : Prop :=
  ∃ rows, Path c.tree node rows ∧ ∀ n ∈ rows, n.data.key.rank = rank

theorem OnRank.incLockRef {other : Nat} (h : OnRank c other rank) (valid : Valid c)
    (hpath : Path c.tree node rows) : OnRank (c.incLockRef node).1 other rank := by
  cases hdisable : c.disable with
  | true =>
    rw [RadixCache.incLockRef, if_pos hdisable]
    exact h
  | false =>
    obtain ⟨above, habove, hrank⟩ := h
    refine ⟨_, (incLockRef_relocks valid hdisable hpath).path habove, ?_⟩
    intro n hn
    obtain ⟨m, hm, rfl⟩ := mem_modify.mp hn
    have hsame := hrank m hm
    split
    · exact hsame
    · exact hsame

end Locks

end SglJax.MemCache.RadixCache

namespace SglJax.MemCache

open Foundation Foundation.NodeTable RadixCache

/-- The tokens freed for a rank. -/
def freedOn (rank : Nat) (freed : List FreeCall) : Nat :=
  (freed.map fun call => if call.dpRank = rank then call.indices.length else 0).sum

theorem freedOn_of_rank {rank : Nat} {freed : List FreeCall}
    (h : ∀ call ∈ freed, call.dpRank = rank) :
    freedOn rank freed = (freed.map fun call => call.indices.length).sum := by
  unfold freedOn
  congr 1
  apply List.map_congr_left
  intro call hcall
  exact if_pos (h call hcall)

/-- What the rank can get: what is free, and what can be evicted. -/
def KvCache.budget (s : KvCache) (rank : Nat) : Int :=
  s.allocator.availableSize rank + s.tree.evictableSize rank

/-- The locks of the tree are those of `holders`, and no page is in two places. -/
structure Backed (pool : PoolShape) (cache : KvCache) (holders : List Nat) : Prop where
  custody : Custody cache.tree holders
  ledger : ∃ rest, Ledger pool cache rest

section Backed

variable {pool : PoolShape} {cache : KvCache} {holders others : List Nat} {reqs : List KvReq}
  {loose : Nat → Nat → Nat}

theorem Kept.backed (h : Kept pool cache holders reqs loose) : Backed pool cache holders :=
  ⟨h.custody, _, h.ledger⟩

theorem Backed.page_pos (h : Backed pool cache holders) : 0 < cache.allocator.pageSize := by
  obtain ⟨rest, ledger⟩ := h.ledger
  rw [ledger.page]
  exact h.custody.valid.page_pos

theorem Backed.perm (h : Backed pool cache holders) (hperm : holders.Perm others) :
    Backed pool cache others :=
  ⟨h.custody.perm hperm, h.ledger⟩

theorem Backed.sameContent {tree : RadixCache} (h : Backed pool cache holders)
    (content : SameContent cache.tree tree) (custody : Custody tree others) :
    Backed pool { cache with tree := tree } others := by
  obtain ⟨rest, ledger⟩ := h.ledger
  exact ⟨custody, rest, ledger.sameContent content⟩

theorem Backed.take {dpRank : Nat} {pages : List Nat} {allocator : PoolAllocator}
    (h : Backed pool cache holders)
    (takes : PoolAllocator.Takes cache.allocator dpRank pages allocator) :
    Backed pool { cache with allocator := allocator } holders := by
  obtain ⟨rest, ledger⟩ := h.ledger
  exact ⟨h.custody, _, ledger.take takes⟩

/-- A lookup takes nothing from any budget, and ends on the key's rank. -/
theorem Backed.matchPrefix {key : RadixKey} {tree : RadixCache} {result : MatchResult}
    (h : Backed pool cache holders) (hids : PlainIds key)
    (heq : cache.tree.matchPrefix key = .ok (tree, result)) :
    Backed pool { cache with tree := tree } holders ∧
      tree.OnRank result.lastDeviceNode key.rank ∧
      tree.evictableSize = cache.tree.evictableSize := by
  have valid := h.custody.valid
  cases hdisable : cache.tree.disable with
  | true =>
    rw [RadixCache.matchPrefix, hdisable] at heq
    cases heq
    exact ⟨h, ⟨[], .root, by simp⟩, rfl⟩
  | false =>
    by_cases hsearch : cache.tree.Searchable key
    · obtain ⟨d, found, rows, hfound, cuts, walk, -, -⟩ :=
        matchPrefix_spec valid hdisable hids hsearch
      rw [heq] at hfound
      cases hfound
      refine ⟨h.sameContent (cuts.sameContent h.custody) (cuts.custody h.custody),
        ⟨rows, walk.path, ?_⟩, cuts.settings.2.2.2.1⟩
      intro n hn
      have hrank := (walk.space n hn).rank_eq
      rw [pageAlign_eq_take, RadixKey.rank_take] at hrank
      exact hrank
    · rw [matchPrefix_unsearchable hdisable hids hsearch] at heq
      cases heq

theorem Backed.incLockRef (h : Backed pool cache holders) {node : Nat}
    {rows : List (TreeNode RadixNode)} (hpath : Path cache.tree.tree node rows) :
    Backed pool { cache with tree := (cache.tree.incLockRef node).1 } (node :: holders) :=
  h.sameContent (sameContent_incLockRef h.custody.valid hpath) (h.custody.incLockRef hpath)

theorem Backed.decLockRef {node : Nat} (h : Backed pool cache (node :: holders)) :
    Backed pool { cache with tree := (cache.tree.decLockRef node).1 } holders := by
  obtain ⟨rows, hpath⟩ := h.custody.paths node (by simp)
  exact h.sameContent (sameContent_decLockRef h.custody.valid hpath) h.custody.decLockRef

/-- A freed leaf moves its tokens from one part of the budget to the other. -/
theorem Backed.deleteLeaf (h : Backed pool cache holders) {n : TreeNode RadixNode}
    (take : Evictable cache.tree n) :
    let next := KvCache.free { cache with tree := cache.tree.deleteLeaf n } n.data.value
      n.data.key.rank
    Backed pool next holders ∧ ∀ rank,
      next.allocator.availableSize rank = cache.allocator.availableSize rank +
        freedOn rank [⟨n.data.value, n.data.key.rank⟩] ∧
      next.tree.evictableSize rank + freedOn rank [⟨n.data.value, n.data.key.rank⟩] =
        cache.tree.evictableSize rank := by
  obtain ⟨rest, ledger⟩ := h.ledger
  have valid := h.custody.valid
  have hlaid := h.custody.laid n take.mem
  have hlen := valid.value_len n take.mem
  have halign := valid.tree.aligned n take.mem
  have hremoved : Ledger pool { cache with tree := cache.tree.deleteLeaf n } fun rank page =>
      rest rank page + shareOf n.data.key.rank (pagesOf cache.tree.pageSize n.data.value)
        rank page := by
    refine ledger.setTree rfl ?_
    intro rank page
    have hcount := h.custody.treeCount_deleteLeaf take rank page
    unfold shareOf
    omega
  have takes := hremoved.takes_free valid.page_pos hlaid fun _ _ => rfl
  refine ⟨⟨h.custody.deleteLeaf take, rest, hremoved.free valid.page_pos hlaid fun _ _ => rfl⟩, ?_⟩
  intro rank
  have hpages : (pagesOf cache.tree.pageSize n.data.value).length * cache.tree.pageSize =
      n.data.value.length := by
    have haligned : n.data.value.length % cache.tree.pageSize = 0 := by
      rw [hlen]
      exact halign
    rw [hlaid.count, pagesFor_of_dvd valid.page_pos haligned]
    exact Nat.div_mul_cancel (Nat.dvd_of_mod_eq_zero haligned)
  constructor
  · change PoolAllocator.availableSize (cache.allocator.free _ _) rank = _
    rw [PoolAllocator.availableSize_eq, PoolAllocator.availableSize_eq, takes.settings.pageSize.symm,
      freedOn]
    by_cases hrank : n.data.key.rank = rank
    · subst hrank
      rw [takes.here.length_eq, List.length_append, Nat.add_mul, ledger.page, hpages]
      simp [Nat.add_comm]
    · rw [(takes.elsewhere rank (Ne.symm hrank)).length_eq]
      simp [hrank]
  · change bump _ _ _ _ + _ = _
    rw [bump_apply, freedOn]
    by_cases hrank : rank = n.data.key.rank
    · subst hrank
      simp [hlen]
    · simp [hrank, Ne.symm hrank]

theorem Backed.evicts {c d : RadixCache} {freed : List FreeCall} (evicts : Evicts c freed d)
    (allocator : PoolAllocator) (h : Backed pool ⟨allocator, c⟩ holders) :
    let next : KvCache := ⟨freed.foldl (fun a call => a.free call.indices call.dpRank) allocator, d⟩
    Backed pool next holders ∧ ∀ rank,
      next.allocator.availableSize rank = allocator.availableSize rank + freedOn rank freed ∧
      d.evictableSize rank + freedOn rank freed = c.evictableSize rank := by
  induction evicts generalizing allocator with
  | refl c => exact ⟨h, fun rank => by simp [freedOn]⟩
  | @head c d n freed take rest ih =>
    obtain ⟨hbacked, hmoved⟩ := h.deleteLeaf take
    obtain ⟨hnext, hrest⟩ := ih _ hbacked
    refine ⟨hnext, ?_⟩
    intro rank
    obtain ⟨havailable, hevictable⟩ := hmoved rank
    obtain ⟨havailable', hevictable'⟩ := hrest rank
    have hsplit : freedOn rank (⟨n.data.value, n.data.key.rank⟩ :: freed) =
        freedOn rank [⟨n.data.value, n.data.key.rank⟩] + freedOn rank freed := by
      simp [freedOn]
    dsimp only [KvCache.free] at havailable havailable' hevictable ⊢
    rw [hsplit]
    constructor
    · rw [List.foldl_cons, havailable', havailable, Nat.add_assoc]
    · omega

/-- An eviction leaves every budget as it was, and makes its rank as many tokens
available as were asked for, or all there are. -/
theorem Backed.evict (h : Backed pool cache holders) (order : PopOrder) (numTokens rank : Nat) :
    Backed pool (cache.evict order numTokens (some rank)) holders ∧
      (∀ r, (cache.evict order numTokens (some rank)).budget r = cache.budget r) ∧
      min (numTokens : Int) (cache.budget rank) ≤
        (cache.evict order numTokens (some rank)).allocator.availableSize rank := by
  obtain ⟨hnext, hmoved⟩ := Backed.evicts
    (evict_spec cache.tree order numTokens (some rank)) cache.allocator h
  have havailable (r : Nat) : (cache.evict order numTokens (some rank)).allocator.availableSize r =
      cache.allocator.availableSize r +
        freedOn r (cache.tree.evict order numTokens (some rank)).2.1 := (hmoved r).1
  have hevictable (r : Nat) : (cache.evict order numTokens (some rank)).tree.evictableSize r +
      freedOn r (cache.tree.evict order numTokens (some rank)).2.1 =
        cache.tree.evictableSize r := (hmoved r).2
  refine ⟨hnext, ?_, ?_⟩
  · intro r
    have hmore := havailable r
    have hless := hevictable r
    unfold KvCache.budget
    omega
  · obtain ⟨hranks, hprogress⟩ := h.custody.evict_progress order numTokens hnext.custody
    have hmore := havailable rank
    have hless := hevictable rank
    rw [freedOn_of_rank hranks] at hmore hless
    unfold KvCache.budget
    rcases hprogress with henough | hnone
    · omega
    · change (cache.evict order numTokens (some rank)).tree.evictableSize rank = 0 at hnone
      omega

end Backed
end SglJax.MemCache
