import SglJax.MemCache.KvConservation

/-! The pages of every rank over whole runs: each is free, in one node of the
tree, or in the own part of one live request's row. -/
namespace SglJax.MemCache

open Foundation Foundation.NodeTable RadixCache

/-! ### Eviction -/

section Evict

variable {pool : PoolShape} {cache : KvCache} {holders : List Nat} {reqs : List KvReq}
  {loose : Nat → Nat → Nat}

/-- An unlocked leaf goes and its value is freed. -/
theorem Kept.deleteLeaf (h : Kept pool cache holders reqs loose) {n : TreeNode RadixNode}
    (take : Evictable cache.tree n) :
    Kept pool (KvCache.free { cache with tree := cache.tree.deleteLeaf n } n.data.value
      n.data.key.rank) holders reqs loose := by
  have hlaid := h.custody.laid n take.mem
  have hremoved : Kept pool { cache with tree := cache.tree.deleteLeaf n } holders reqs
      fun rank page => loose rank page + shareOf n.data.key.rank
        (pagesOf cache.tree.pageSize n.data.value) rank page := by
    refine ⟨h.custody.deleteLeaf take, h.plain, h.locked, ?_, ?_⟩
    · intro r hr
      have howned := h.owned r hr
      exact ⟨howned.ids, h.custody.held_deleteLeaf take (h.locked r hr) howned.held, howned.low,
        howned.high, howned.laid⟩
    · refine h.ledger.setTree rfl ?_
      intro rank page
      have hcount := h.custody.treeCount_deleteLeaf take rank page
      change _ + (reqsCount cache.tree.pageSize reqs rank page + _) = _
      unfold shareOf
      omega
  exact hremoved.free hlaid fun _ _ => rfl

theorem Kept.evicts {c d : RadixCache} {freed : List FreeCall} (evicts : Evicts c freed d)
    (allocator : PoolAllocator) (h : Kept pool ⟨allocator, c⟩ holders reqs loose) :
    Kept pool ⟨freed.foldl (fun a call => a.free call.indices call.dpRank) allocator, d⟩
      holders reqs loose := by
  induction evicts generalizing allocator with
  | refl c => exact h
  | head take rest ih => exact ih _ (h.deleteLeaf take)

theorem Kept.evict (h : Kept pool cache holders reqs loose) (order : PopOrder) (numTokens : Nat)
    (dpRank : Option Nat) : Kept pool (cache.evict order numTokens dpRank) holders reqs loose :=
  Kept.evicts (evict_spec cache.tree order numTokens dpRank) cache.allocator h

end Evict

/-! ### Runs -/

/-- Nothing is loose between two operations. -/
def Conserved (pool : PoolShape) (s : KvState) : Prop :=
  Kept pool s.cache s.holders s.reqs fun _ _ => 0

/-- The pages of a new allocator, on every rank. -/
def poolShape (size pageSize dpSize : Nat) : PoolShape := ⟨pageSize, size / pageSize / dpSize⟩

section Runs

variable {pool : PoolShape} {cache : KvCache} {reqs others : List KvReq} {req : KvReq}
  {locks : List Nat}

/-- The order of the requests and of the references does not matter. -/
theorem Kept.perm {holders nodes : List Nat} {loose : Nat → Nat → Nat}
    (h : Kept pool cache holders reqs loose) (hnodes : holders.Perm nodes)
    (hreqs : reqs.Perm others) : Kept pool cache nodes others loose where
  custody := h.custody.perm hnodes
  plain := h.plain
  locked := fun r hr => hnodes.mem_iff.mp (h.locked r (hreqs.mem_iff.mpr hr))
  owned := fun r hr => h.owned r (hreqs.mem_iff.mpr hr)
  ledger := h.ledger.congr fun rank page => by rw [reqsCount_perm hreqs]

theorem Conserved.pick {s : KvState} (h : Conserved pool s) (hperm : s.reqs.Perm (req :: others)) :
    Kept pool s.cache (req.lastNode :: (others.map KvReq.lastNode ++ s.locks)) (req :: others)
      fun _ _ => 0 :=
  h.perm ((hperm.map KvReq.lastNode).append_right s.locks) hperm

theorem locked_others (others : List KvReq) (locks : List Nat) :
    ∀ r ∈ others, r.lastNode ∈ others.map KvReq.lastNode ++ locks := fun _ hr =>
  List.mem_append_left _ (List.mem_map_of_mem hr)

/-- A change of one request that keeps its own pages and its node. -/
theorem Conserved.replace {s : KvState} (h : Conserved pool s)
    (hperm : s.reqs.Perm (req :: others)) {req' : KvReq} (hnode : req'.lastNode = req.lastNode)
    (howned : Owned s.cache.tree req → Owned s.cache.tree req')
    (hcount : ∀ rank page, req'.countOn s.cache.tree.pageSize rank page =
      req.countOn s.cache.tree.pageSize rank page) :
    Conserved pool { s with reqs := req' :: others } := by
  have hpick := h.pick hperm
  have hadd : Kept pool s.cache (req.lastNode :: (others.map KvReq.lastNode ++ s.locks))
      (req' :: others) fun _ _ => 0 := by
    refine hpick.drop.add (by simp [hnode]) (howned (hpick.owned req (by simp))) ?_
    intro rank page
    rw [hcount]
  rw [← hnode] at hadd
  exact hadd

theorem holders_write (batch : List Growth) (out : List Nat) :
    (Growth.writeAll batch out).map KvReq.lastNode = (batch.map Growth.req).map KvReq.lastNode := by
  induction batch generalizing out with
  | nil => rfl
  | cons g rest ih =>
    rw [Growth.writeAll, List.map_cons, ih]
    rfl

theorem holders_writePages (pageSize : Nat) (batch : List Growth) (out : List Nat) :
    (Growth.writePages pageSize batch out).map KvReq.lastNode =
      (batch.map Growth.req).map KvReq.lastNode := by
  induction batch generalizing out with
  | nil => rfl
  | cons g rest ih =>
    rw [Growth.writePages, List.map_cons, ih]
    rfl

/-- A batch that was given pages. -/
theorem Conserved.batch {s : KvState} (h : Conserved pool s) {batch : List Growth}
    (hperm : s.reqs.Perm (batch.map Growth.req ++ others)) {dpRank : Nat} {pages : List Nat}
    {allocator : PoolAllocator} (takes : PoolAllocator.Takes s.cache.allocator dpRank pages allocator) :
    Kept pool { s.cache with allocator := allocator }
      (((batch.map Growth.req).map KvReq.lastNode ++ others.map KvReq.lastNode) ++ s.locks)
      (batch.map Growth.req ++ others) fun rank page =>
        0 + shareOf dpRank pages rank page := by
  have hperm' := (hperm.map KvReq.lastNode).append_right s.locks
  rw [List.map_append] at hperm'
  exact (h.perm hperm' hperm).take takes

theorem Conserved.allocExtend {s : KvState} (h : Conserved pool s) {batch : List Growth}
    (hperm : s.reqs.Perm (batch.map Growth.req ++ others)) {dpRank : Nat}
    (hrank : ∀ g ∈ batch, g.req.key.rank = dpRank) {allocator : PoolAllocator} {out : List Nat}
    (heq : s.cache.allocator.allocExtend (batch.map Growth.toExtend)
      ((batch.map Growth.toExtend).map ExtendSeq.extendLen).sum dpRank =
        .ok (allocator, some out)) :
    Conserved pool { s with
      cache := { s.cache with allocator := allocator }
      reqs := Growth.writeAll batch out ++ others } := by
  have hpos : 0 < s.cache.allocator.pageSize := by
    rw [h.ledger.page]
    exact h.page_pos
  rcases PoolAllocator.allocExtend_cases hpos heq with ⟨hnone, -⟩ | ⟨pages, hout, hlen, takes⟩
  · cases hnone
  · cases hout
    rw [h.ledger.page] at hlen ⊢
    have hwritten := (h.batch hperm takes).writeAll pages (fun _ _ => 0) hrank hlen
    unfold Conserved KvState.holders
    dsimp only
    rw [List.map_append, holders_write]
    exact hwritten

theorem Conserved.alloc {s : KvState} (h : Conserved pool s) {batch : List Growth}
    (hperm : s.reqs.Perm (batch.map Growth.req ++ others)) {dpRank : Nat}
    (hrank : ∀ g ∈ batch, g.req.key.rank = dpRank)
    (hwhole : ∀ g ∈ batch, g.req.row.length % pool.pageSize = 0)
    {allocator : PoolAllocator} {out : List Nat}
    (heq : s.cache.allocator.alloc (Growth.needSize pool.pageSize batch) dpRank =
      .ok (allocator, some out)) :
    Conserved pool { s with
      cache := { s.cache with allocator := allocator }
      reqs := Growth.writePages pool.pageSize batch out ++ others } := by
  have hpos : 0 < s.cache.allocator.pageSize := by
    rw [h.ledger.page]
    exact h.page_pos
  rcases PoolAllocator.alloc_cases hpos heq with ⟨hnone, -⟩ | ⟨pages, hout, hlen, takes⟩
  · cases hnone
  · cases hout
    rw [← h.ledger.shape] at hwhole hlen ⊢
    rw [h.ledger.page] at hlen ⊢
    have hcount : pages.length =
        (batch.map fun g => pagesFor s.cache.tree.pageSize g.extendLen).sum := by
      rw [Growth.needSize, List.sum_map_mul_right] at hlen
      exact Nat.eq_of_mul_eq_mul_right h.page_pos hlen
    have hwritten := (h.batch hperm takes).writePages pages (fun _ _ => 0) hrank hwhole hcount
    unfold Conserved KvState.holders
    dsimp only
    rw [List.map_append, holders_writePages]
    exact hwritten

theorem Conserved.allocFails {s : KvState} (h : Conserved pool s) {dpRank : Nat}
    {allocator : PoolAllocator}
    (takes : PoolAllocator.Takes s.cache.allocator dpRank [] allocator) :
    Conserved pool { s with cache := { s.cache with allocator := allocator } } := by
  have htaken := h.take takes
  simp only [shareOf_nil] at htaken
  exact htaken

/-- The size of a rank is its whole pages. -/
theorem whole_pages {size pageSize dpSize : Nat} (hpage : 0 < pageSize) (hdp : 0 < dpSize)
    (hsize : size % (pageSize * dpSize) = 0) :
    size / dpSize = size / pageSize / dpSize * pageSize := by
  obtain ⟨k, rfl⟩ := Nat.dvd_of_mod_eq_zero hsize
  rw [Nat.mul_assoc, Nat.mul_div_cancel_left _ hpage, Nat.mul_div_cancel_left _ hdp,
    Nat.mul_comm dpSize, ← Nat.mul_assoc, Nat.mul_div_cancel _ hdp, Nat.mul_comm]

/-- A new allocator has every page of every rank in its list. -/
theorem conserved_start {size pageSize dpSize : Nat} (hpage : 0 < pageSize) (hdp : 0 < dpSize)
    (hsize : size % (pageSize * dpSize) = 0) (disable : Bool) :
    Conserved (poolShape size pageSize dpSize)
      ⟨⟨.init size pageSize dpSize, .reset pageSize disable false⟩, [], []⟩ := by
  have hwhole := whole_pages hpage hdp hsize
  refine ⟨custody_reset hpage disable false, rfl, by simp, by simp, ?_⟩
  unfold PoolAllocator.init poolShape
  split
  · rename_i hone
    subst hone
    refine ⟨rfl, rfl, ?_, rfl, ?_⟩
    · exact hwhole
    · intro rank page
      rw [Nat.div_one]
      rfl
  · refine ⟨rfl, rfl, hwhole, rfl, ?_⟩
    intro rank page
    simp only [PoolAllocator.freeList, PagedAllocator.freeList, PagedAllocator.init,
      List.append_nil]
    rfl

theorem KvRun.conserved {size pageSize dpSize : Nat} {disable : Bool} {s : KvState}
    (hpage : 0 < pageSize) (hdp : 0 < dpSize) (hsize : size % (pageSize * dpSize) = 0)
    (run : KvRun size pageSize dpSize disable s) :
    Conserved (poolShape size pageSize dpSize) s := by
  induction run with
  | start => exact conserved_start hpage hdp hsize disable
  | lookup run hids heq ih => exact (ih.matchPrefix hids heq).1
  | startReq run hids heq ih => exact ih.startReq hids heq
  | @incLockRef s node rows run hpath ih =>
    exact (ih.incLockRef hpath).perm List.perm_middle.symm (.refl _)
  | @decLockRef s node locks run hperm ih =>
    have hpicked := ih.perm ((hperm.append_left _).trans List.perm_middle) (.refl _)
    exact hpicked.decLockRef (locked_others _ _)
  | alloc run hperm hrank hwhole heq ih => exact ih.alloc hperm hrank hwhole heq
  | allocExtend run hperm hrank heq ih =>
    refine ih.allocExtend hperm hrank ?_
    rw [List.map_map]
    exact heq
  | @allocDecode s batch others dpRank allocator out run hperm hrank heq ih =>
    have hpos : 0 < s.cache.allocator.pageSize := by
      rw [ih.ledger.page]
      exact ih.page_pos
    have hmap : batch.map Decoding.req = (batch.map Decoding.toGrowth).map Growth.req := by
      rw [List.map_map]
      rfl
    have hseqs : (batch.map Decoding.toDecode).map DecodeSeq.toExtend =
        (batch.map Decoding.toGrowth).map Growth.toExtend := by
      rw [List.map_map, List.map_map]
      rfl
    rw [PoolAllocator.allocDecode_eq hpos, hseqs] at heq
    rw [hmap] at hperm
    refine ih.allocExtend hperm ?_ heq
    intro g hg
    obtain ⟨r, hr, rfl⟩ := List.mem_map.mp hg
    exact hrank r hr
  | @allocFails s dpRank allocator run heq ih =>
    have hpos : 0 < s.cache.allocator.pageSize := by
      rw [ih.ledger.page]
      exact ih.page_pos
    rcases heq with ⟨needSize, heq⟩ | ⟨batch, heq⟩ | ⟨batch, heq⟩
    · rcases PoolAllocator.alloc_cases hpos heq with ⟨-, takes⟩ | ⟨pages, hout, -⟩
      · exact ih.allocFails takes
      · cases hout
    · rcases PoolAllocator.allocExtend_cases hpos heq with ⟨-, takes⟩ | ⟨pages, hout, -⟩
      · exact ih.allocFails takes
      · cases hout
    · rw [PoolAllocator.allocDecode_eq hpos] at heq
      rcases PoolAllocator.allocExtend_cases hpos heq with ⟨-, takes⟩ | ⟨pages, hout, -⟩
      · exact ih.allocFails takes
      · cases hout
  | commit run hperm hlow hhigh ih =>
    refine ih.replace hperm rfl ?_ fun _ _ => rfl
    intro howned
    exact ⟨howned.ids, howned.held, hlow, hhigh, howned.laid⟩
  | @append s req others tokens run hperm hids ih =>
    have valid := ih.custody.valid
    refine ih.replace hperm rfl ?_ fun _ _ => rfl
    intro howned
    have hle := howned.protected_le valid
    refine ⟨?_, ?_, howned.low, howned.high, howned.laid⟩
    · intro token htoken
      rcases List.mem_append.mp htoken with htoken | htoken
      · exact howned.ids token htoken
      · exact hids token htoken
    · have hsame : RadixKey.take { req.key with tokenIds := req.key.tokenIds ++ tokens }
          req.cacheProtectedLen = req.key.take req.cacheProtectedLen := by
        unfold RadixKey.take
        rw [List.take_append_of_le_length hle]
      dsimp only
      rw [hsame]
      exact howned.held
  | cacheUnfinishedReq run hperm hlow hslots hids heq ih =>
    exact (ih.pick hperm).cacheUnfinishedReq (locked_others _ _) hlow hslots hids heq
  | releaseKvCache run hperm hids heq ih =>
    exact (ih.pick hperm).releaseKvCache (locked_others _ _) hids heq
  | evict run order numTokens dpRank ih => exact ih.evict order numTokens dpRank

end Runs

/-! ### The partition -/

namespace KvState

variable (s : KvState) (rank : Nat)

/-- The pages of a rank in the free and release lists. -/
def freePages : Set Nat := {page | page ∈ s.cache.allocator.freeList rank}

/-- The pages of a rank that occur in the values of tree nodes. -/
def treePages : Set Nat :=
  {page | ∃ n ∈ s.cache.tree.tree, n.data.key.rank = rank ∧
    Touches s.cache.tree.pageSize n.data.value page}

/-- The pages of a rank in the positions of live rows past `cache_protected_len`. -/
def rowPages : Set Nat :=
  {page | ∃ req ∈ s.reqs, req.key.rank = rank ∧
    Touches s.cache.tree.pageSize (req.row.drop req.cacheProtectedLen) page}

end KvState

/-- Every page of the rank is in one place, and nothing else is in any. -/
structure Partitioned (pagesPerRank : Nat) (s : KvState) (rank : Nat) : Prop where
  cover : s.freePages rank ∪ s.treePages rank ∪ s.rowPages rank = Set.Icc 1 pagesPerRank
  free_tree : Disjoint (s.freePages rank) (s.treePages rank)
  free_rows : Disjoint (s.freePages rank) (s.rowPages rank)
  tree_rows : Disjoint (s.treePages rank) (s.rowPages rank)
  free_once : (s.cache.allocator.freeList rank).Nodup
  tree_once : ∀ n ∈ s.cache.tree.tree, ∀ m ∈ s.cache.tree.tree, n.data.key.rank = rank →
    m.data.key.rank = rank → ∀ page, Touches s.cache.tree.pageSize n.data.value page →
      Touches s.cache.tree.pageSize m.data.value page → n = m
  rows_once : s.reqs.Pairwise fun req other => req.key.rank = rank → other.key.rank = rank →
    ∀ page, Touches s.cache.tree.pageSize (req.row.drop req.cacheProtectedLen) page →
      ¬ Touches s.cache.tree.pageSize (other.row.drop other.cacheProtectedLen) page
  rows_rest : ∀ req ∈ s.reqs, req.key.rank = rank → ∀ page,
    Touches s.cache.tree.pageSize (req.row.take req.cacheProtectedLen) page →
      page ∈ s.treePages rank

section Partition

variable {pool : PoolShape} {s : KvState}

theorem Conserved.countOn_pos_iff (h : Conserved pool s) {req : KvReq} (hreq : req ∈ s.reqs)
    {rank page : Nat} : 0 < req.countOn s.cache.tree.pageSize rank page ↔
      req.key.rank = rank ∧
        Touches s.cache.tree.pageSize (req.row.drop req.cacheProtectedLen) page := by
  rw [(h.owned req hreq).touches_own h.custody.valid, KvReq.countOn, shareOf]
  by_cases hrank : rank = req.key.rank
  · rw [if_pos hrank, List.count_pos_iff]
    exact (and_iff_right hrank.symm).symm
  · rw [if_neg hrank]
    simp [Ne.symm hrank]

theorem Conserved.mem_rowPages_iff (h : Conserved pool s) {rank page : Nat} :
    page ∈ s.rowPages rank ↔ 0 < reqsCount s.cache.tree.pageSize s.reqs rank page := by
  have hsum : 0 < reqsCount s.cache.tree.pageSize s.reqs rank page ↔
      ∃ req ∈ s.reqs, 0 < req.countOn s.cache.tree.pageSize rank page := by
    rw [reqsCount, Nat.pos_iff_ne_zero, ne_eq, List.sum_eq_zero_iff]
    simp only [List.mem_map, forall_exists_index, and_imp, forall_apply_eq_imp_iff₂, not_forall,
      Nat.pos_iff_ne_zero, exists_prop, ne_eq]
  rw [hsum]
  constructor
  · rintro ⟨req, hreq, hrest⟩
    exact ⟨req, hreq, (h.countOn_pos_iff hreq).mpr hrest⟩
  · rintro ⟨req, hreq, hpos⟩
    exact ⟨req, hreq, (h.countOn_pos_iff hreq).mp hpos⟩

theorem Conserved.mem_treePages_iff (h : Conserved pool s) {rank page : Nat} :
    page ∈ s.treePages rank ↔ 0 < s.cache.tree.treeCount rank page :=
  h.custody.treeCount_pos_iff.symm

theorem mem_freePages_iff {rank page : Nat} :
    page ∈ s.freePages rank ↔ 0 < (s.cache.allocator.freeList rank).count page :=
  List.count_pos_iff.symm

/-- Requests whose counts add up to at most one have their own pages apart. -/
theorem pairwise_of_reqsCount {pageSize rank : Nat} {reqs : List KvReq}
    (h : ∀ page, reqsCount pageSize reqs rank page ≤ 1) :
    reqs.Pairwise fun req other => ∀ page, 0 < req.countOn pageSize rank page →
      ¬ 0 < other.countOn pageSize rank page := by
  induction reqs with
  | nil => exact .nil
  | cons req reqs ih =>
    simp only [reqsCount_cons] at h
    refine .cons ?_ (ih fun page => by have := h page; omega)
    intro other hother page hpos hother'
    have hle : other.countOn pageSize rank page ≤ reqsCount pageSize reqs rank page :=
      List.le_sum_of_mem (List.mem_map_of_mem hother)
    have := h page
    omega

theorem Conserved.partitioned (h : Conserved pool s) (rank : Nat) :
    Partitioned pool.pagesPerRank s rank := by
  have hcount := h.ledger.count rank
  have hone := count_range_le pool.pagesPerRank
  have hmem (page : Nat) : page ∈ Set.Icc 1 pool.pagesPerRank ↔
      0 < (List.range' 1 pool.pagesPerRank).count page := by
    rw [List.count_pos_iff, List.mem_range'_1, Set.mem_Icc]
    omega
  refine ⟨?_, ?_, ?_, ?_, ?_, ?_, ?_, ?_⟩
  · ext page
    have := hcount page
    rw [Set.mem_union, Set.mem_union, mem_freePages_iff, h.mem_treePages_iff, h.mem_rowPages_iff,
      hmem]
    omega
  · rw [Set.disjoint_left]
    intro page hfree htree
    rw [mem_freePages_iff] at hfree
    rw [h.mem_treePages_iff] at htree
    have := hcount page
    have := hone page
    omega
  · rw [Set.disjoint_left]
    intro page hfree hrow
    rw [mem_freePages_iff] at hfree
    rw [h.mem_rowPages_iff] at hrow
    have := hcount page
    have := hone page
    omega
  · rw [Set.disjoint_left]
    intro page htree hrow
    rw [h.mem_treePages_iff] at htree
    rw [h.mem_rowPages_iff] at hrow
    have := hcount page
    have := hone page
    omega
  · apply List.nodup_iff_count_le_one.mpr
    intro page
    have := hcount page
    have := hone page
    omega
  · intro n hn m hm hnrank hmrank page hntouch hmtouch
    by_contra hne
    have hpage := h.page_pos
    have hsum : pageOn s.cache.tree.pageSize rank page n.data +
        pageOn s.cache.tree.pageSize rank page m.data ≤ s.cache.tree.treeCount rank page :=
      add_le_weigh h.custody.valid.tree.rooted.nodup hn hm hne
    rw [(h.custody.laid n hn).touches hpage, ← List.count_pos_iff] at hntouch
    rw [(h.custody.laid m hm).touches hpage, ← List.count_pos_iff] at hmtouch
    rw [pageOn_self hnrank, pageOn_self hmrank] at hsum
    have := hcount page
    have := hone page
    omega
  · have hsum (page : Nat) : reqsCount s.cache.tree.pageSize s.reqs rank page ≤ 1 := by
      have := hcount page
      have := hone page
      omega
    refine (pairwise_of_reqsCount hsum).imp_of_mem ?_
    intro req other hreq hother hdisjoint hrank hrank' page htouch htouch'
    exact hdisjoint page ((h.countOn_pos_iff hreq).mpr ⟨hrank, htouch⟩)
      ((h.countOn_pos_iff hother).mpr ⟨hrank', htouch'⟩)
  · intro req hreq hrank page htouch
    rw [h.mem_treePages_iff, ← hrank]
    exact (h.owned req hreq).touches_protected h.custody htouch

/-! ### The law at idle -/

/-- The pages of a rank in the tree, node by node. -/
def treeList (c : RadixCache) (rank : Nat) : List Nat :=
  c.tree.flatMap fun n =>
    if n.data.key.rank = rank then pagesOf c.pageSize n.data.value else []

theorem count_treeList (c : RadixCache) (rank page : Nat) :
    (treeList c rank).count page = c.treeCount rank page := by
  rw [treeList, List.count_flatMap]
  congr 1
  apply List.map_congr_left
  intro n _
  dsimp only [Function.comp, pageOn]
  split <;> rfl

theorem length_treeList {c : RadixCache} {holders : List Nat} (h : Custody c holders) (rank : Nat) :
    (treeList c rank).length * c.pageSize = weigh (sizeOn rank) c.tree := by
  rw [treeList, List.length_flatMap, ← List.sum_map_mul_right]
  congr 1
  apply List.map_congr_left
  intro n hn
  have hlen := h.valid.value_len n hn
  have halign : n.data.value.length % c.pageSize = 0 := hlen ▸ h.valid.tree.aligned n hn
  dsimp only [sizeOn]
  split
  · rw [(h.laid n hn).count, pagesFor_of_dvd h.valid.page_pos halign]
    exact Nat.div_mul_cancel (Nat.dvd_of_mod_eq_zero halign)
  · rw [List.length_nil, Nat.zero_mul]

theorem Conserved.idle (h : Conserved pool s) (hidle : s.reqs = []) (rank : Nat) :
    (s.cache.allocator.availableSize rank : Int) + s.cache.tree.evictableSize rank +
      s.cache.tree.protectedSize rank = s.cache.allocator.sizePerRank := by
  have hperm : (s.cache.allocator.freeList rank ++ treeList s.cache.tree rank).Perm
      (List.range' 1 pool.pagesPerRank) := by
    rw [List.perm_iff_count]
    intro page
    have hcount := h.ledger.count rank page
    rw [hidle] at hcount
    rw [List.count_append, count_treeList]
    exact hcount
  have hlen := congrArg (· * s.cache.tree.pageSize) hperm.length_eq
  simp only [List.length_append, List.length_range', Nat.add_mul] at hlen
  rw [length_treeList h.custody] at hlen
  have hsizes := h.custody.sizes rank
  rw [PoolAllocator.availableSize_eq, h.ledger.page, h.ledger.size, ← h.ledger.shape, ← hlen,
    Int.add_assoc,
    hsizes]
  push_cast
  rfl

/-- In every state a run reaches, the pages `1..pages_per_rank` of every rank are
divided between the free lists, the nodes of the tree and the own parts of the
live rows; with no live request the sizes add up to the rank's size. -/
theorem run_partitions_pages {size pageSize dpSize : Nat} {disable : Bool} (hpage : 0 < pageSize)
    (hdp : 0 < dpSize) (hsize : size % (pageSize * dpSize) = 0)
    (run : KvRun size pageSize dpSize disable s) (rank : Nat) :
    s.cache.tree.pageSize = pageSize ∧ s.cache.allocator.sizePerRank = size / dpSize ∧
      Partitioned (size / pageSize / dpSize) s rank ∧
      (s.reqs = [] → (s.cache.allocator.availableSize rank : Int) +
        s.cache.tree.evictableSize rank + s.cache.tree.protectedSize rank =
          s.cache.allocator.sizePerRank) := by
  have h := run.conserved hpage hdp hsize
  refine ⟨h.ledger.shape, ?_, h.partitioned rank, fun hidle => h.idle hidle rank⟩
  rw [h.ledger.size, whole_pages hpage hdp hsize]
  rfl

/-- A request with three tokens that has found nothing in the tree. -/
def newReq : KvReq := ⟨⟨[.id 1, .id 2, .id 3], none, none⟩, [], 0, 0, 0, rootId⟩

/-- The request after its slots have been taken from two pages. -/
def filledReq : KvReq := { newReq with row := [2, 3, 4], kvCommittedLen := 3 }

/-- Four pages of two slots, of which the request has two. -/
def filledState : KvState :=
  ⟨⟨.paged ((PagedAllocator.init 8 2 1).dropFree 2 0), .reset 2 false false⟩, [filledReq], []⟩

theorem filledState_run : KvRun 8 2 1 false filledState := by
  have found : KvCache.startReq ⟨.init 8 2 1, .reset 2 false false⟩ newReq.key 2 =
      .ok (⟨.init 8 2 1, .reset 2 false false⟩, newReq) := rfl
  have given : (PoolAllocator.init 8 2 1).allocExtend
      ([(⟨newReq, 3, by decide⟩ : Growth)].map Growth.toExtend) 3 0 =
      .ok (filledState.cache.allocator, some [2, 3, 4]) := rfl
  have started : KvRun 8 2 1 false ⟨⟨.init 8 2 1, .reset 2 false false⟩, [newReq], []⟩ :=
    .startReq .start (by decide) found
  have grown : KvRun 8 2 1 false
      { filledState with reqs := [{ filledReq with kvCommittedLen := 0 }] } :=
    .allocExtend started (.refl [newReq]) (by simp; rfl) given
  exact .commit grown (.refl _) (by decide) (by decide)

/-- Caching it gives its first page to the tree; the second stays its own and two
are free. -/
theorem filledState_cached_partitioned : ∃ cache req,
    filledState.cache.cacheUnfinishedReq filledReq 3 = .ok (cache, req) ∧
    (req.row, req.cacheProtectedLen) = ([2, 3, 4], 2) ∧
    cache.tree.tree.map (fun n => n.data.value) = [[2, 3]] ∧
    cache.tree.pageSize = 2 ∧ cache.allocator.sizePerRank = 8 ∧
    Partitioned 4 ⟨cache, [req], []⟩ 0 := by
  have hlow : filledReq.cacheProtectedLen ≤ 3 := by decide
  have cached := KvRun.cacheUnfinishedReq filledState_run (.refl [filledReq]) hlow (by decide)
    (by decide) rfl
  obtain ⟨hpage, hsize, hparts, -⟩ := run_partitions_pages (by decide) (by decide) rfl cached 0
  exact ⟨_, _, rfl, rfl, rfl, hpage, hsize, hparts⟩

end Partition
end SglJax.MemCache
