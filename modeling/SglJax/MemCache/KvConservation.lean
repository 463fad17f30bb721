import SglJax.MemCache.KvRequests

/-! KV page conservation: along every run, each page of a rank is in the free
lists, in one node of the tree, or in the own part of one live request's row.
The pages are counted in a ledger; every operation moves some of them from one
column to another. -/
namespace SglJax.MemCache

open Foundation Foundation.NodeTable RadixCache

/-! ### The ledger -/

/-- A pool as every rank has it. -/
structure PoolShape where
  pageSize : Nat
  pagesPerRank : Nat

/-- How often pages given on one rank count there and elsewhere. -/
def shareOf (dpRank : Nat) (pages : List Nat) (rank page : Nat) : Nat :=
  if rank = dpRank then pages.count page else 0

/-- The free lists, the tree and what else is accounted for add up to one of
each page. -/
structure Ledger (pool : PoolShape) (cache : KvCache) (rest : Nat → Nat → Nat) : Prop where
  page : cache.allocator.pageSize = cache.tree.pageSize
  shape : cache.tree.pageSize = pool.pageSize
  size : cache.allocator.sizePerRank = pool.pagesPerRank * pool.pageSize
  group : cache.allocator.isNotInFreeGroup = true
  count : ∀ rank page, (cache.allocator.freeList rank).count page +
    cache.tree.treeCount rank page + rest rank page = (List.range' 1 pool.pagesPerRank).count page

section Ledger

variable {pool : PoolShape} {cache : KvCache} {rest more : Nat → Nat → Nat}

theorem shareOf_append (dpRank : Nat) (left right : List Nat) (rank page : Nat) :
    shareOf dpRank (left ++ right) rank page =
      shareOf dpRank left rank page + shareOf dpRank right rank page := by
  unfold shareOf
  split
  · exact List.count_append
  · rfl

theorem shareOf_nil (dpRank rank page : Nat) : shareOf dpRank [] rank page = 0 := by
  simp [shareOf]

theorem shareOf_self (dpRank : Nat) (pages : List Nat) (page : Nat) :
    shareOf dpRank pages dpRank page = pages.count page := if_pos rfl

theorem count_range_le (n page : Nat) :
    (List.range' 1 n).count page ≤ 1 :=
  List.nodup_iff_count_le_one.mp List.nodup_range' page

theorem Ledger.congr (h : Ledger pool cache rest)
    (heq : ∀ rank page, rest rank page = more rank page) : Ledger pool cache more :=
  ⟨h.page, h.shape, h.size, h.group, fun rank page => by rw [← heq]; exact h.count rank page⟩

/-- Freed pages that are accounted for elsewhere come back to the lists. -/
theorem Ledger.takes_free {slots pages : List Nat} {dpRank : Nat}
    (h : Ledger pool cache more) (hpos : 0 < cache.tree.pageSize)
    (hlaid : Laid cache.tree.pageSize slots pages)
    (heq : ∀ rank page, more rank page = rest rank page + shareOf dpRank pages rank page) :
    PoolAllocator.Takes (cache.allocator.free slots dpRank) dpRank pages cache.allocator := by
  have hsep (page : Nat) : (cache.allocator.freeList dpRank).count page + pages.count page ≤ 1 := by
    have hcount := h.count dpRank page
    have hone := count_range_le pool.pagesPerRank page
    have hshare := heq dpRank page
    rw [shareOf_self] at hshare
    omega
  exact PoolAllocator.takes_free (h.page ▸ hpos) h.group (h.page ▸ hlaid) hsep

/-- Freeing slots laid over pages puts these pages back. -/
theorem Ledger.free {slots pages : List Nat} {dpRank : Nat}
    (h : Ledger pool cache more) (hpos : 0 < cache.tree.pageSize)
    (hlaid : Laid cache.tree.pageSize slots pages)
    (heq : ∀ rank page, more rank page = rest rank page + shareOf dpRank pages rank page) :
    Ledger pool (cache.free slots dpRank) rest := by
  have takes := h.takes_free hpos hlaid heq
  have settings := cache.allocator.sameSettings_free slots dpRank
  refine ⟨settings.pageSize.trans h.page, h.shape, settings.sizePerRank.trans h.size,
    settings.isNotInFreeGroup.trans h.group, ?_⟩
  intro rank page
  have hcount := h.count rank page
  have htakes := takes.count rank page
  have hshare := heq rank page
  unfold shareOf at hshare
  change ((cache.allocator.free slots dpRank).freeList rank).count page + _ + _ = _
  rw [htakes]
  change _ + cache.tree.treeCount rank page + _ = _
  omega

/-- An allocation takes pages out of the lists. -/
theorem Ledger.take {pages : List Nat} {dpRank : Nat} {allocator : PoolAllocator}
    (h : Ledger pool cache rest)
    (takes : PoolAllocator.Takes cache.allocator dpRank pages allocator) :
    Ledger pool { cache with allocator := allocator }
      fun rank page => rest rank page + shareOf dpRank pages rank page := by
  refine ⟨takes.settings.pageSize.trans h.page, h.shape, takes.settings.sizePerRank.trans h.size,
    takes.settings.isNotInFreeGroup.trans h.group, ?_⟩
  intro rank page
  have hcount := h.count rank page
  rw [takes.count] at hcount
  unfold shareOf
  dsimp only
  omega

/-- A change of the tree moves pages between it and the rest. -/
theorem Ledger.setTree {tree : RadixCache} (h : Ledger pool cache rest)
    (hpage : tree.pageSize = cache.tree.pageSize)
    (heq : ∀ rank page, tree.treeCount rank page + more rank page =
      cache.tree.treeCount rank page + rest rank page) :
    Ledger pool { cache with tree := tree } more := by
  refine ⟨h.page.trans hpage.symm, hpage.trans h.shape, h.size, h.group, ?_⟩
  intro rank page
  have hcount := h.count rank page
  have := heq rank page
  dsimp only
  omega

theorem Ledger.sameContent {tree : RadixCache} (h : Ledger pool cache rest)
    (content : SameContent cache.tree tree) :
    Ledger pool { cache with tree := tree } rest :=
  h.setTree content.pageSize fun rank page => by rw [content.count]

/-- Everything accounted for is a page of the pool. -/
theorem Ledger.page_pos (h : Ledger pool cache rest) {rank page : Nat}
    (hpos : 0 < cache.tree.treeCount rank page + rest rank page) :
    1 ≤ page ∧ page ≤ pool.pagesPerRank := by
  have hcount := h.count rank page
  have hmem : page ∈ List.range' 1 pool.pagesPerRank := List.count_pos_iff.mp (by omega)
  rw [List.mem_range'_1] at hmem
  omega

end Ledger

/-! ### What a request owns -/

/-- The pages of a row from one index on, and between two. -/
def KvReq.pagesFrom (pageSize : Nat) (req : KvReq) (a : Nat) : List Nat :=
  (pagesOf pageSize req.row).drop a

def KvReq.pagesIn (pageSize : Nat) (req : KvReq) (a b : Nat) : List Nat :=
  ((pagesOf pageSize req.row).take b).drop a

/-- The pages of the part of the row that the tree does not own. -/
def KvReq.ownPages (pageSize : Nat) (req : KvReq) : List Nat :=
  req.pagesFrom pageSize (req.cacheProtectedLen / pageSize)

def KvReq.countOn (pageSize rank page : Nat) (req : KvReq) : Nat :=
  shareOf req.key.rank (req.ownPages pageSize) rank page

def reqsCount (pageSize : Nat) (reqs : List KvReq) (rank page : Nat) : Nat :=
  (reqs.map (KvReq.countOn pageSize rank page)).sum

/-- The first part of the row are the slots of the locked path; the lengths are
in order; the row is laid over pages. -/
structure Owned (tree : RadixCache) (req : KvReq) : Prop where
  ids : PlainIds req.key
  held : Held tree req.lastNode (req.key.take req.cacheProtectedLen)
    (req.row.take req.cacheProtectedLen)
  low : req.cacheProtectedLen ≤ req.kvCommittedLen
  high : req.kvCommittedLen ≤ req.row.length
  laid : Laid tree.pageSize req.row (pagesOf tree.pageSize req.row)

section Owned

variable {tree : RadixCache} {req : KvReq}

theorem reqsCount_cons (pageSize : Nat) (req : KvReq) (reqs : List KvReq) (rank page : Nat) :
    reqsCount pageSize (req :: reqs) rank page =
      req.countOn pageSize rank page + reqsCount pageSize reqs rank page := by
  simp [reqsCount]

theorem reqsCount_append (pageSize : Nat) (left right : List KvReq) (rank page : Nat) :
    reqsCount pageSize (left ++ right) rank page =
      reqsCount pageSize left rank page + reqsCount pageSize right rank page := by
  simp [reqsCount]

theorem reqsCount_perm {reqs others : List KvReq} (h : reqs.Perm others) (pageSize rank page : Nat) :
    reqsCount pageSize reqs rank page = reqsCount pageSize others rank page :=
  (h.map _).sum_eq

theorem Owned.keep {other : RadixCache} (h : Owned tree req) (hpage : other.pageSize = tree.pageSize)
    (hheld : ∀ {node key slots}, Held tree node key slots → Held other node key slots) :
    Owned other req :=
  ⟨h.ids, hheld h.held, h.low, h.high, hpage ▸ h.laid⟩

theorem Owned.protected_le (h : Owned tree req) (valid : Valid tree) :
    req.cacheProtectedLen ≤ req.key.length := by
  have hlen := h.held.length_eq valid
  have := h.low
  have := h.high
  rw [List.length_take, RadixKey.length_take] at hlen
  omega

theorem Owned.protected_aligned (h : Owned tree req) (valid : Valid tree) :
    req.cacheProtectedLen % tree.pageSize = 0 := by
  have halign := h.held.aligned valid
  rwa [RadixKey.length_take, Nat.min_eq_left (h.protected_le valid)] at halign

theorem split_drop {pages : List Nat} {a b : Nat} (h : a ≤ b) :
    pages.drop a = (pages.take b).drop a ++ pages.drop b := by
  conv_lhs => rw [← List.take_append_drop b pages]
  rw [List.drop_append, List.length_take]
  rcases Nat.le_total b pages.length with hle | hle
  · rw [Nat.min_eq_left hle, Nat.sub_eq_zero_of_le h, List.drop_zero]
  · rw [List.drop_eq_nil_of_le hle, List.drop_nil]

theorem share_from (req : KvReq) {a b : Nat} (h : a ≤ b) (pageSize dpRank rank page : Nat) :
    shareOf dpRank (req.pagesFrom pageSize a) rank page =
      shareOf dpRank (req.pagesIn pageSize a b) rank page +
        shareOf dpRank (req.pagesFrom pageSize b) rank page := by
  rw [KvReq.pagesFrom, split_drop h, shareOf_append]
  rfl

theorem share_in (req : KvReq) {a b c : Nat} (hab : a ≤ b) (hbc : b ≤ c)
    (pageSize dpRank rank page : Nat) :
    shareOf dpRank (req.pagesIn pageSize a c) rank page =
      shareOf dpRank (req.pagesIn pageSize a b) rank page +
        shareOf dpRank (req.pagesIn pageSize b c) rank page := by
  rw [KvReq.pagesIn, split_drop hab, shareOf_append, List.take_take, Nat.min_eq_left hbc]
  rfl

theorem slice_take {xs : List Nat} {start stop n : Nat} (h : stop ≤ n) :
    slice (xs.take n) start stop = slice xs start stop := by
  rw [slice, slice, List.take_take, Nat.min_eq_left h]

/-- The slots from one page boundary to a later one. -/
theorem Owned.laid_slice (h : Owned tree req) (valid : Valid tree) {start stop : Nat}
    (hstart : start % tree.pageSize = 0) (hstop : stop % tree.pageSize = 0)
    (hle : stop ≤ req.row.length) :
    Laid tree.pageSize (slice req.row start stop)
      (req.pagesIn tree.pageSize (start / tree.pageSize) (stop / tree.pageSize)) := by
  have hlaid := (h.laid.take valid.page_pos hle).drop valid.page_pos (start / tree.pageSize)
  rwa [Nat.div_mul_cancel (Nat.dvd_of_mod_eq_zero hstart), pagesFor_of_dvd valid.page_pos hstop]
    at hlaid

end Owned

/-! ### The invariant -/

/-- The tree keeps what `holders` lock; every request owns its row; the pages in
`loose` are in nobody's hands for the moment. -/
structure Kept (pool : PoolShape) (cache : KvCache) (holders : List Nat) (reqs : List KvReq)
    (loose : Nat → Nat → Nat) : Prop where
  custody : Custody cache.tree holders
  plain : cache.tree.isEagle = false
  locked : ∀ req ∈ reqs, req.lastNode ∈ holders
  owned : ∀ req ∈ reqs, Owned cache.tree req
  ledger : Ledger pool cache fun rank page =>
    reqsCount cache.tree.pageSize reqs rank page + loose rank page

section Kept

variable {pool : PoolShape} {cache : KvCache} {holders : List Nat} {reqs : List KvReq}
  {loose more : Nat → Nat → Nat} {req : KvReq}

theorem Kept.page_pos (h : Kept pool cache holders reqs loose) : 0 < cache.tree.pageSize :=
  h.custody.valid.page_pos

/-- Take a request out of the account; its own pages become loose. -/
theorem Kept.drop (h : Kept pool cache holders (req :: reqs) loose) :
    Kept pool cache holders reqs fun rank page =>
      loose rank page + req.countOn cache.tree.pageSize rank page where
  custody := h.custody
  plain := h.plain
  locked := fun r hr => h.locked r (by simp [hr])
  owned := fun r hr => h.owned r (by simp [hr])
  ledger := h.ledger.congr fun rank page => by rw [reqsCount_cons]; omega

/-- Put a request into the account. -/
theorem Kept.add (h : Kept pool cache holders reqs loose)
    (hlocked : req.lastNode ∈ holders) (howned : Owned cache.tree req)
    (heq : ∀ rank page, loose rank page =
      more rank page + req.countOn cache.tree.pageSize rank page) :
    Kept pool cache holders (req :: reqs) more where
  custody := h.custody
  plain := h.plain
  locked := fun r hr => by
    rcases List.mem_cons.mp hr with rfl | hr
    · exact hlocked
    · exact h.locked r hr
  owned := fun r hr => by
    rcases List.mem_cons.mp hr with rfl | hr
    · exact howned
    · exact h.owned r hr
  ledger := h.ledger.congr fun rank page => by rw [reqsCount_cons, heq]; omega

theorem Kept.free {slots pages : List Nat} {dpRank : Nat}
    (h : Kept pool cache holders reqs loose)
    (hlaid : Laid cache.tree.pageSize slots pages)
    (heq : ∀ rank page, loose rank page = more rank page + shareOf dpRank pages rank page) :
    Kept pool (cache.free slots dpRank) holders reqs more where
  custody := h.custody
  plain := h.plain
  locked := h.locked
  owned := h.owned
  ledger := h.ledger.free h.page_pos hlaid fun rank page => by
    rw [heq, ← Nat.add_assoc]
    rfl

theorem Kept.take {pages : List Nat} {dpRank : Nat} {allocator : PoolAllocator}
    (h : Kept pool cache holders reqs loose)
    (takes : PoolAllocator.Takes cache.allocator dpRank pages allocator) :
    Kept pool { cache with allocator := allocator } holders reqs fun rank page =>
      loose rank page + shareOf dpRank pages rank page where
  custody := h.custody
  plain := h.plain
  locked := h.locked
  owned := h.owned
  ledger := (h.ledger.take takes).congr fun _ _ => Nat.add_assoc _ _ _

theorem Kept.congr (h : Kept pool cache holders reqs loose)
    (heq : ∀ rank page, loose rank page = more rank page) :
    Kept pool cache holders reqs more where
  custody := h.custody
  plain := h.plain
  locked := h.locked
  owned := h.owned
  ledger := h.ledger.congr fun rank page => by rw [heq]

/-- A change of the tree that keeps its content, with the holders it then has. -/
theorem Kept.setTree {tree : RadixCache} {others : List Nat}
    (h : Kept pool cache holders reqs loose) (content : SameContent cache.tree tree)
    (custody : Custody tree others) (locked : ∀ req ∈ reqs, req.lastNode ∈ others) :
    Kept pool { cache with tree := tree } others reqs loose where
  custody := custody
  plain := content.isEagle.trans h.plain
  locked := locked
  owned := fun r hr => (h.owned r hr).keep content.pageSize content.held
  ledger := by
    have := h.ledger.sameContent content
    rwa [← content.pageSize] at this

theorem Kept.incLockRef (h : Kept pool cache holders reqs loose) {node : Nat}
    {rows : List (TreeNode RadixNode)} (hpath : Path cache.tree.tree node rows) :
    Kept pool { cache with tree := (cache.tree.incLockRef node).1 } (node :: holders)
      reqs loose :=
  h.setTree (sameContent_incLockRef h.custody.valid hpath) (h.custody.incLockRef hpath)
    fun r hr => List.mem_cons_of_mem _ (h.locked r hr)

theorem Kept.decLockRef {node : Nat} (h : Kept pool cache (node :: holders) reqs loose)
    (locked : ∀ req ∈ reqs, req.lastNode ∈ holders) :
    Kept pool { cache with tree := (cache.tree.decLockRef node).1 } holders reqs loose := by
  obtain ⟨rows, hpath⟩ := h.custody.paths node (by simp)
  exact h.setTree (sameContent_decLockRef h.custody.valid hpath) h.custody.decLockRef locked

/-- The tree takes the pages past what it has of the key out of the loose ones. -/
theorem Kept.insert (h : Kept pool cache holders reqs loose)
    (henabled : cache.tree.disable = false) {key : RadixKey} {value pages : List Nat}
    (hids : PlainIds key) (halign : key.length % cache.tree.pageSize = 0)
    (hlen : value.length = key.length) (hlaid : Laid cache.tree.pageSize value pages) :
    ∃ tree n, cache.tree.insert key value = .ok (tree, n) ∧
      Inserted cache.tree key pages tree n ∧
      ∀ more, (∀ rank page, loose rank page = more rank page +
          shareOf key.rank (pages.drop (n / cache.tree.pageSize)) rank page) →
        Kept pool { cache with tree := tree } holders reqs more := by
  obtain ⟨tree, n, heq, custody, inserted⟩ :=
    h.custody.insert henabled h.plain hids halign hlen hlaid
  refine ⟨tree, n, heq, inserted, ?_⟩
  intro more hmore
  refine ⟨custody, inserted.isEagle.trans h.plain, h.locked, ?_, ?_⟩
  · intro r hr
    exact (h.owned r hr).keep inserted.pageSize inserted.held
  · refine h.ledger.setTree inserted.pageSize ?_
    intro rank page
    have hcount := inserted.count rank page
    have hshare := hmore rank page
    unfold shareOf at hshare
    rw [inserted.pageSize]
    omega

theorem Owned.touches_own (h : Owned cache.tree req) (valid : Valid cache.tree) {page : Nat} :
    Touches cache.tree.pageSize (req.row.drop req.cacheProtectedLen) page ↔
      page ∈ req.ownPages cache.tree.pageSize := by
  have hlaid := h.laid.drop valid.page_pos (req.cacheProtectedLen / cache.tree.pageSize)
  rw [Nat.div_mul_cancel (Nat.dvd_of_mod_eq_zero (h.protected_aligned valid))] at hlaid
  exact hlaid.touches valid.page_pos

/-- The tree-owned part of a row lies in nodes of the tree. -/
theorem Owned.touches_protected (h : Owned cache.tree req) (custody : Custody cache.tree holders)
    {page : Nat}
    (htouch : Touches cache.tree.pageSize (req.row.take req.cacheProtectedLen) page) :
    0 < cache.tree.treeCount req.key.rank page := by
  obtain ⟨rows, hpath, hspace, -, hslots⟩ := h.held
  rw [← hslots] at htouch
  obtain ⟨slot, hslot, hpage⟩ := htouch
  obtain ⟨n, hn, hslot⟩ := List.mem_flatMap.mp hslot
  rw [custody.treeCount_pos_iff]
  exact ⟨n, hpath.mem n hn, (hspace n hn).rank_eq, slot, hslot, hpage⟩

/-- The slots of a live request are slots of the pool, so none of them is 0. -/
theorem Kept.row_ne_zero (h : Kept pool cache holders (req :: reqs) loose) :
    ∀ slot ∈ req.row, slot ≠ 0 := by
  intro slot hslot hzero
  have howned := h.owned req (by simp)
  have htouch : Touches cache.tree.pageSize req.row 0 :=
    ⟨slot, hslot, by rw [hzero, Nat.zero_div]⟩
  have hpos : 0 < cache.tree.treeCount req.key.rank 0 +
      (reqsCount cache.tree.pageSize (req :: reqs) req.key.rank 0 + loose req.key.rank 0) := by
    rw [← List.take_append_drop req.cacheProtectedLen req.row, touches_append] at htouch
    rcases htouch with htouch | htouch
    · have := howned.touches_protected h.custody htouch
      omega
    · rw [howned.touches_own h.custody.valid, ← List.count_pos_iff] at htouch
      rw [reqsCount_cons, KvReq.countOn, shareOf_self]
      omega
  have := (h.ledger.page_pos hpos).1
  omega

theorem Kept.filter_row (h : Kept pool cache holders (req :: reqs) loose) {slots : List Nat}
    (hsub : ∀ slot ∈ slots, slot ∈ req.row) : slots.filter (· ≠ 0) = slots := by
  rw [List.filter_eq_self]
  intro slot hslot
  simpa using h.row_ne_zero slot (hsub slot hslot)

end Kept

/-! ### Finishing a request -/

section Finish

variable {pool : PoolShape} {cache : KvCache} {holders : List Nat} {reqs : List KvReq}
  {req : KvReq}

theorem pageAlignedLen_eq {tree : RadixCache} (hplain : tree.isEagle = false) (kvLen : Nat) :
    KvCache.pageAlignedLen tree kvLen = kvLen / tree.pageSize * tree.pageSize := by
  unfold KvCache.pageAlignedLen
  simp only [hplain, Bool.false_eq_true, if_false]
  split
  · rfl
  · rename_i hone
    rw [not_not.mp hone, Nat.div_one, Nat.mul_one]

theorem pageAlignedTokenLen_eq {tree : RadixCache} (hplain : tree.isEagle = false) (kvLen : Nat) :
    KvCache.pageAlignedTokenLen tree kvLen = kvLen / tree.pageSize * tree.pageSize := by
  unfold KvCache.pageAlignedTokenLen
  rw [hplain, pageAlignedLen_eq hplain]
  rfl

theorem oldPrefixLen_eq {tree : RadixCache} (hplain : tree.isEagle = false) (req : KvReq) :
    KvCache.oldPrefixLen tree req = req.cacheProtectedLen := by
  simp [KvCache.oldPrefixLen, hplain]

/-- The first `n` tokens of a request's key, when its row has slots for them. -/
theorem length_take_key {n : Nat} (hkey : n ≤ req.key.length) : (req.key.take n).length = n := by
  rw [RadixKey.length_take, Nat.min_eq_left hkey]

/-- A disabled tree owns no part of any row. -/
theorem Kept.protected_eq_zero {loose : Nat → Nat → Nat}
    (h : Kept pool cache holders (req :: reqs) loose) (hdisable : cache.tree.disable = true) :
    req.cacheProtectedLen = 0 := by
  have howned := h.owned req (by simp)
  obtain ⟨rows, hpath, -, -, hslots⟩ := howned.held
  have hnil : rows = [] := by
    apply List.eq_nil_iff_forall_not_mem.mpr
    intro n hn
    have hmem := hpath.mem n hn
    rw [h.custody.disabled hdisable] at hmem
    cases hmem
  have hlen := congrArg List.length hslots
  have := howned.low
  have := howned.high
  rw [hnil, List.flatMap_nil, List.length_nil, List.length_take] at hlen
  omega

/-- The page tail of the committed slots is freed unless pages have one slot. -/
theorem Kept.freeTail (h : Kept pool cache holders reqs
      (shareOf req.key.rank (req.ownPages cache.tree.pageSize)))
    (howned : Owned cache.tree req) :
    Kept pool
      (if cache.tree.pageSize ≠ 1 then
        cache.free ((req.row.take req.kvCommittedLen).drop
          (req.kvCommittedLen / cache.tree.pageSize * cache.tree.pageSize)) req.key.rank
      else cache) holders reqs fun rank page =>
      shareOf req.key.rank (req.pagesIn cache.tree.pageSize
        (req.cacheProtectedLen / cache.tree.pageSize)
        (req.kvCommittedLen / cache.tree.pageSize)) rank page +
      shareOf req.key.rank (req.pagesFrom cache.tree.pageSize
        (pagesFor cache.tree.pageSize req.kvCommittedLen)) rank page := by
  have hpage := h.page_pos
  have hfirst : req.cacheProtectedLen / cache.tree.pageSize ≤
      req.kvCommittedLen / cache.tree.pageSize := Nat.div_le_div_right howned.low
  have hsplit (rank page : Nat) := share_from req hfirst cache.tree.pageSize
    req.key.rank rank page
  split
  · refine h.free ((howned.laid.take hpage howned.high).drop hpage _) ?_
    intro rank page
    have htail := share_from req (div_le_pagesFor hpage req.kvCommittedLen)
      cache.tree.pageSize req.key.rank rank page
    rw [KvReq.ownPages, hsplit, htail, KvReq.pagesIn, KvReq.pagesIn]
    omega
  · rename_i hone
    refine h.congr ?_
    intro rank page
    rw [KvReq.ownPages, hsplit, not_not.mp hone, Nat.div_one, pagesFor, Nat.add_sub_cancel,
      Nat.div_one]

/-- An aligned part of the row goes to the tree as far as it is new there; what
the tree had already is freed, except for the slots the tree owns. -/
theorem Kept.handOver {loose : Nat → Nat → Nat} {len : Nat}
    (h : Kept pool cache holders reqs fun rank page =>
      shareOf req.key.rank (req.pagesIn cache.tree.pageSize
        (req.cacheProtectedLen / cache.tree.pageSize) (len / cache.tree.pageSize)) rank page +
      loose rank page)
    (henabled : cache.tree.disable = false) (howned : Owned cache.tree req)
    (halign : len % cache.tree.pageSize = 0) (hlow : req.cacheProtectedLen ≤ len)
    (hkey : len ≤ req.key.length) (hrow : len ≤ req.row.length) :
    ∃ tree n, cache.tree.insert (req.key.take len) (req.row.take len) = .ok (tree, n) ∧ n ≤ len ∧
      Inserted cache.tree (req.key.take len)
        ((pagesOf cache.tree.pageSize req.row).take (len / cache.tree.pageSize)) tree n ∧
      Kept pool
        (KvCache.free { cache with tree := tree } (slice req.row req.cacheProtectedLen n)
          req.key.rank) holders reqs loose := by
  have valid := h.custody.valid
  have hpage := valid.page_pos
  have hlen := length_take_key hkey
  have hlaid := howned.laid.take hpage hrow
  rw [pagesFor_of_dvd hpage halign] at hlaid
  obtain ⟨tree, n, heq, inserted, hkept⟩ := h.insert henabled (howned.ids.take len)
    (by rw [hlen]; exact halign) (by rw [hlen, List.length_take, Nat.min_eq_left hrow]) hlaid
  have hn : n ≤ len := hlen ▸ inserted.le
  -- The path the request holds is in the tree, so the report reaches past it.
  have hold : req.cacheProtectedLen ≤ n := by
    apply inserted.longest _ (req.row.take req.cacheProtectedLen) (howned.protected_aligned valid)
    · rw [hlen]
      exact hlow
    · rw [RadixKey.take_take, Nat.min_eq_left hlow]
      exact howned.held.stored valid
  refine ⟨tree, n, heq, hn, inserted, ?_⟩
  have hinsert := hkept (fun rank page => loose rank page + shareOf req.key.rank
    (req.pagesIn cache.tree.pageSize (req.cacheProtectedLen / cache.tree.pageSize)
      (n / cache.tree.pageSize)) rank page) (by
    intro rank page
    have hsplit := share_in req (Nat.div_le_div_right (c := cache.tree.pageSize) hold)
      (Nat.div_le_div_right hn) cache.tree.pageSize req.key.rank rank page
    have hpart : ((pagesOf cache.tree.pageSize req.row).take (len / cache.tree.pageSize)).drop
        (n / cache.tree.pageSize) = req.pagesIn cache.tree.pageSize (n / cache.tree.pageSize)
          (len / cache.tree.pageSize) := rfl
    rw [hsplit, hpart, RadixKey.rank_take]
    omega)
  refine hinsert.free ?_ fun rank page => rfl
  have hslice := howned.laid_slice valid (howned.protected_aligned valid) inserted.aligned
    (by omega : n ≤ req.row.length)
  change Laid tree.pageSize _ _
  rwa [inserted.pageSize]

/-- After `cache_finished_req` only the pages past the committed slots are still
the request's. -/
theorem Kept.cacheFinishedReq {isInsert : Bool}
    (h : Kept pool cache (req.lastNode :: holders) (req :: reqs) fun _ _ => 0)
    (hlocked : ∀ r ∈ reqs, r.lastNode ∈ holders)
    (hids : isInsert = true → req.kvCommittedLen ≤ req.key.length) :
    ∃ next, cache.cacheFinishedReq req isInsert = .ok next ∧
      next.tree.pageSize = cache.tree.pageSize ∧
      Kept pool next holders reqs (shareOf req.key.rank
        (req.pagesFrom cache.tree.pageSize
          (pagesFor cache.tree.pageSize req.kvCommittedLen))) := by
  have howned := h.owned req (by simp)
  have valid := h.custody.valid
  have hpage := valid.page_pos
  have hlow := howned.low
  have hhigh := howned.high
  have hfilter : (req.row.take req.kvCommittedLen).filter (· ≠ 0) =
      req.row.take req.kvCommittedLen := h.filter_row fun slot => List.mem_of_mem_take
  have hdrop : Kept pool cache (req.lastNode :: holders) reqs
      (shareOf req.key.rank (req.ownPages cache.tree.pageSize)) :=
    h.drop.congr fun rank page => Nat.zero_add _
  unfold KvCache.cacheFinishedReq
  simp only [hfilter]
  cases hdisable : cache.tree.disable with
  | true =>
    have hfree : Kept pool (cache.free (req.row.take req.kvCommittedLen) req.key.rank)
        (req.lastNode :: holders) reqs (shareOf req.key.rank
          (req.pagesFrom cache.tree.pageSize
            (pagesFor cache.tree.pageSize req.kvCommittedLen))) := by
      refine hdrop.free (howned.laid.take hpage hhigh) ?_
      intro rank page
      rw [KvReq.ownPages, h.protected_eq_zero hdisable, Nat.zero_div,
        share_from req (Nat.zero_le _), Nat.add_comm]
      rfl
    refine ⟨cache.free (req.row.take req.kvCommittedLen) req.key.rank, rfl, rfl, ?_⟩
    have hdec := hfree.decLockRef hlocked
    -- A disabled tree is not unlocked, and has nothing to unlock.
    have hsame : ((cache.free (req.row.take req.kvCommittedLen) req.key.rank).tree.decLockRef
        req.lastNode).1 = cache.tree := by
      change (cache.tree.decLockRef req.lastNode).1 = cache.tree
      rw [RadixCache.decLockRef, if_pos hdisable]
    rwa [hsame] at hdec
  | false =>
    have htail := hdrop.freeTail howned
    simp only [Bool.false_eq_true, if_false, pageAlignedLen_eq h.plain,
      pageAlignedTokenLen_eq h.plain, oldPrefixLen_eq h.plain, bind, Except.bind, pure, Except.pure]
    generalize hs : (if cache.tree.pageSize ≠ 1 then
        cache.free ((req.row.take req.kvCommittedLen).drop
          (req.kvCommittedLen / cache.tree.pageSize * cache.tree.pageSize)) req.key.rank
        else cache) = s at htail ⊢
    have htree : s.tree = cache.tree := by
      rw [← hs]
      split <;> rfl
    have hle : req.kvCommittedLen / cache.tree.pageSize * cache.tree.pageSize ≤
        req.kvCommittedLen := Nat.div_mul_le_self _ _
    have hfloor : req.cacheProtectedLen ≤
        req.kvCommittedLen / cache.tree.pageSize * cache.tree.pageSize := by
      rw [← Nat.div_mul_cancel (Nat.dvd_of_mod_eq_zero (howned.protected_aligned valid))]
      exact Nat.mul_le_mul_right _ (Nat.div_le_div_right hlow)
    have hwhole : req.kvCommittedLen / cache.tree.pageSize * cache.tree.pageSize /
        cache.tree.pageSize = req.kvCommittedLen / cache.tree.pageSize :=
      Nat.mul_div_cancel _ hpage
    rw [← htree] at htail howned hdisable hle hfloor hwhole valid ⊢
    cases isInsert with
    | true =>
      obtain ⟨tree, n, heq, hn, inserted, hkept⟩ := Kept.handOver
        (by rw [hwhole]; exact htail) hdisable howned (Nat.mul_mod_left _ _) hfloor
        (by have := hids rfl; omega) (by omega)
      rw [if_pos rfl, buildRadixKey, RadixKey.take_take, List.take_take, Nat.min_eq_left hle, heq]
      dsimp only
      rw [slice_take (hn.trans hle)]
      exact ⟨_, rfl, (decLockRef_pageSize _ _).trans inserted.pageSize, hkept.decLockRef hlocked⟩
    | false =>
      rw [if_neg Bool.false_ne_true, slice_take hle]
      refine ⟨_, rfl, decLockRef_pageSize _ _, Kept.decLockRef ?_ hlocked⟩
      have hslice := howned.laid_slice valid (howned.protected_aligned valid)
        (Nat.mul_mod_left (req.kvCommittedLen / s.tree.pageSize) s.tree.pageSize) (by omega)
      rw [hwhole] at hslice
      exact htail.free hslice fun rank page => Nat.add_comm _ _

/-- Releasing a request puts all its own pages back or into the tree. -/
theorem Kept.releaseKvCache {isInsert allowOverallocated : Bool} {next : KvCache}
    (h : Kept pool cache (req.lastNode :: holders) (req :: reqs) fun _ _ => 0)
    (hlocked : ∀ r ∈ reqs, r.lastNode ∈ holders)
    (hids : isInsert = true → req.kvCommittedLen ≤ req.key.length)
    (heq : cache.releaseKvCache req isInsert allowOverallocated = .ok next) :
    Kept pool next holders reqs fun _ _ => 0 := by
  have howned := h.owned req (by simp)
  have hpage := h.page_pos
  obtain ⟨s, hfinished, hsame, hkept⟩ := h.cacheFinishedReq hlocked hids
  unfold KvCache.releaseKvCache at heq
  simp only [hfinished, bind, Except.bind, pure, Except.pure, hsame] at heq
  split at heq
  · cases heq
  -- The first page without a committed slot starts here, at every page size.
  have hstart : (if cache.tree.pageSize > 1 then
      pagesFor cache.tree.pageSize req.kvCommittedLen * cache.tree.pageSize
      else req.kvCommittedLen) =
      pagesFor cache.tree.pageSize req.kvCommittedLen * cache.tree.pageSize := by
    split
    · rfl
    · have hone : cache.tree.pageSize = 1 := by omega
      rw [hone, pagesFor, Nat.add_sub_cancel, Nat.div_one, Nat.mul_one]
  rw [hstart] at heq
  have hlaid := howned.laid.drop hpage (pagesFor cache.tree.pageSize req.kvCommittedLen)
  have hfilter : (slice req.row (pagesFor cache.tree.pageSize req.kvCommittedLen *
      cache.tree.pageSize) req.row.length).filter (· ≠ 0) =
      req.row.drop (pagesFor cache.tree.pageSize req.kvCommittedLen * cache.tree.pageSize) := by
    rw [slice, List.take_length]
    exact h.filter_row fun slot => List.mem_of_mem_drop
  split at heq
  · rw [hfilter] at heq
    cases heq
    refine hkept.free (by rw [hsame]; exact hlaid) ?_
    intro rank page
    exact (Nat.zero_add _).symm
  · rename_i hend
    cases heq
    refine hkept.congr ?_
    intro rank page
    have hnil := hlaid.count
    rw [List.drop_eq_nil_of_le (by omega : req.row.length ≤ _), List.length_nil,
      pagesFor_zero hpage, List.length_eq_zero_iff] at hnil
    rw [KvReq.pagesFrom, hnil, shareOf_nil]

end Finish

/-! ### Caching a request that goes on -/

section Unfinished

variable {pool : PoolShape} {cache : KvCache} {holders : List Nat} {reqs : List KvReq}
  {req : KvReq}

/-- The path of a longer part of a key begins with the path of a shorter one. -/
theorem Held.take_eq {c : RadixCache} (valid : Valid c) {key : RadixKey} {m n short long : Nat}
    {left right : List Nat} (hshort : Held c short (key.take m) left)
    (hlong : Held c long (key.take n) right) (hmn : m ≤ n) (hn : n ≤ key.length) :
    left = right.take m := by
  have halign := hshort.aligned valid
  refine valid.tree.stored_unique valid.value_len halign (hshort.stored valid) ?_
  obtain ⟨rows, hcover, hslots⟩ := hlong.stored valid
  refine ⟨rows, ?_, ?_⟩
  · have := hcover.take m
    rwa [RadixKey.take_take, Nat.min_eq_left hmn] at this
  · rw [hslots, RadixKey.length_take, RadixKey.length_take, List.take_take]
    congr 1
    omega

/-- The tree-owned part of the row is read from the tree again; the request keeps
the pages past the aligned part. -/
theorem Owned.rewrite {tree : RadixCache} {newIndices : List Nat} {node : Nat}
    (howned : Owned tree req) (custody : Custody tree holders)
    (hold : req.cacheProtectedLen ≤ newIndices.length)
    (hle : newIndices.length ≤ req.kvCommittedLen) (hkey : newIndices.length ≤ req.key.length)
    (hheld : Held tree node (req.key.take newIndices.length) newIndices) :
    Owned tree { req with
      row := writeSlice req.row req.cacheProtectedLen (newIndices.drop req.cacheProtectedLen)
      lastMatchedPrefixLen := newIndices.length
      cacheProtectedLen := newIndices.length
      lastNode := node } ∧
    KvReq.ownPages tree.pageSize { req with
      row := writeSlice req.row req.cacheProtectedLen (newIndices.drop req.cacheProtectedLen)
      lastMatchedPrefixLen := newIndices.length
      cacheProtectedLen := newIndices.length
      lastNode := node } = req.pagesFrom tree.pageSize (newIndices.length / tree.pageSize) := by
  have valid := custody.valid
  have hpage := valid.page_pos
  have hhigh := howned.high
  have hrow : writeSlice req.row req.cacheProtectedLen (newIndices.drop req.cacheProtectedLen) =
      newIndices ++ req.row.drop newIndices.length := by
    rw [writeSlice, Held.take_eq valid howned.held hheld hold hkey, List.take_append_drop,
      List.length_drop, Nat.add_sub_cancel' hold]
  have halign : newIndices.length % tree.pageSize = 0 := by
    have := hheld.aligned valid
    rwa [RadixKey.length_take, Nat.min_eq_left hkey] at this
  obtain ⟨rows, hpath, hspace, hspell, hslots⟩ := hheld
  have hnew := custody.laid_path hpath
  rw [hslots] at hnew
  have hrest := howned.laid.drop hpage (newIndices.length / tree.pageSize)
  rw [Nat.div_mul_cancel (Nat.dvd_of_mod_eq_zero halign)] at hrest
  have hlaid := hnew.append hpage halign hrest
  have hcount := hnew.count
  rw [pagesFor_of_dvd hpage halign] at hcount
  rw [hrow]
  refine ⟨⟨howned.ids, ?_, hle, ?_, ?_⟩, ?_⟩
  · refine ⟨rows, hpath, hspace, hspell, ?_⟩
    dsimp only
    rw [hslots, List.take_left]
  · dsimp only
    rw [List.length_append, List.length_drop]
    omega
  · rw [hlaid.pagesOf_eq hpage]
    exact hlaid
  · dsimp only [KvReq.ownPages, KvReq.pagesFrom]
    rw [hlaid.pagesOf_eq hpage, ← hcount, List.drop_left]

theorem Kept.cacheUnfinishedReq {fillLen : Nat} {next : KvCache} {req' : KvReq}
    (h : Kept pool cache (req.lastNode :: holders) (req :: reqs) fun _ _ => 0)
    (hlocked : ∀ r ∈ reqs, r.lastNode ∈ holders) (hlow : req.cacheProtectedLen ≤ fillLen)
    (hslots : fillLen ≤ req.kvCommittedLen) (hids : fillLen ≤ req.key.length)
    (heq : cache.cacheUnfinishedReq req fillLen = .ok (next, req')) :
    Kept pool next (req'.lastNode :: holders) (req' :: reqs) fun _ _ => 0 := by
  have howned := h.owned req (by simp)
  have valid := h.custody.valid
  have hpage := valid.page_pos
  have hhigh := howned.high
  unfold KvCache.cacheUnfinishedReq at heq
  cases hdisable : cache.tree.disable with
  | true =>
    rw [if_pos hdisable] at heq
    cases heq
    exact h
  | false =>
    rw [if_neg (by rw [hdisable]; exact Bool.false_ne_true)] at heq
    have hle : fillLen / cache.tree.pageSize * cache.tree.pageSize ≤ fillLen :=
      Nat.div_mul_le_self _ _
    have hfloor : req.cacheProtectedLen ≤ fillLen / cache.tree.pageSize * cache.tree.pageSize := by
      rw [← Nat.div_mul_cancel (Nat.dvd_of_mod_eq_zero (howned.protected_aligned valid))]
      exact Nat.mul_le_mul_right _ (Nat.div_le_div_right hlow)
    have hvalue : (if cache.tree.pageSize ≠ 1 then (req.row.take fillLen).take
          (fillLen / cache.tree.pageSize * cache.tree.pageSize) else req.row.take fillLen) =
        req.row.take (fillLen / cache.tree.pageSize * cache.tree.pageSize) := by
      split
      · rw [List.take_take, Nat.min_eq_left hle]
      · rename_i hone
        rw [not_not.mp hone, Nat.div_one, Nat.mul_one]
    simp only [pageAlignedLen_eq h.plain, pageAlignedTokenLen_eq h.plain, oldPrefixLen_eq h.plain,
      hvalue, buildRadixKey, bind, Except.bind, pure, Except.pure] at heq
    have halign : fillLen / cache.tree.pageSize * cache.tree.pageSize % cache.tree.pageSize = 0 :=
      Nat.mul_mod_left _ _
    generalize fillLen / cache.tree.pageSize * cache.tree.pageSize = len at heq hle hfloor halign
    have hown : Kept pool cache (req.lastNode :: holders) reqs fun rank page =>
        shareOf req.key.rank (req.pagesIn cache.tree.pageSize
          (req.cacheProtectedLen / cache.tree.pageSize) (len / cache.tree.pageSize)) rank page +
        shareOf req.key.rank (req.pagesFrom cache.tree.pageSize
          (len / cache.tree.pageSize)) rank page := by
      refine h.drop.congr ?_
      intro rank page
      rw [Nat.zero_add, KvReq.countOn, KvReq.ownPages,
        share_from req (Nat.div_le_div_right hfloor)]
    obtain ⟨tree, n, hinsert, hn, inserted, hkept⟩ := hown.handOver hdisable howned halign hfloor
      (by omega) (by omega)
    obtain ⟨matched, result, hmatch, custody, content, held, hlenLe, hwhole⟩ :=
      hkept.custody.matchPrefix hkept.plain (howned.ids.take len)
    -- The whole aligned part has just been inserted, so it is found again.
    have hkeyLen : (req.key.take len).length = len := length_take_key (by omega)
    have hlen : result.deviceIndices.length = len := by
      obtain ⟨slots, hstored⟩ := inserted.stored
      rw [hwhole (inserted.disable.trans hdisable) _ slots hstored, hkeyLen]
      rw [hkeyLen]
      change len % tree.pageSize = 0
      rw [inserted.pageSize]
      exact halign
    rw [hinsert] at heq
    dsimp only at heq
    rw [slice_take (hn.trans hle)] at heq
    rw [hmatch] at heq
    cases heq
    have hfound := hkept.setTree content custody fun r hr =>
      List.mem_cons_of_mem _ (hlocked r hr)
    have hownedFound : Owned matched req :=
      (howned.keep inserted.pageSize inserted.held).keep content.pageSize content.held
    obtain ⟨oldRows, hold⟩ := custody.paths req.lastNode (by simp)
    have unlocks := sameContent_decLockRef custody.valid hold
    have hunlocked := hfound.decLockRef hlocked
    rw [RadixKey.take_take, hlen, Nat.min_self, ← hlen] at held
    have heldUnlocked := unlocks.held held
    obtain ⟨newRows, hnew, -⟩ := heldUnlocked
    have locks := sameContent_incLockRef hunlocked.custody.valid hnew
    have hlockedNew := hunlocked.incLockRef hnew
    have hownedNew := (hownedFound.keep unlocks.pageSize unlocks.held).keep locks.pageSize locks.held
    obtain ⟨hownedAfter, hownPages⟩ := hownedNew.rewrite hlockedNew.custody
      (by rw [hlen]; exact hfloor) (by omega) (by omega) (locks.held (unlocks.held held))
    refine hlockedNew.add (by simp) hownedAfter ?_
    intro rank page
    have hsize : ((matched.decLockRef req.lastNode).1.incLockRef result.lastDeviceNode).1.pageSize =
        cache.tree.pageSize :=
      locks.pageSize.trans (unlocks.pageSize.trans (content.pageSize.trans inserted.pageSize))
    rw [Nat.zero_add, KvReq.countOn, hownPages, hsize, hlen]

end Unfinished

/-! ### Starting a request and giving it slots -/

section Growth

variable {pool : PoolShape} {cache : KvCache} {holders : List Nat} {reqs : List KvReq}
  {req : KvReq} {loose : Nat → Nat → Nat}

theorem Kept.matchPrefix {key : RadixKey} {tree : RadixCache} {result : MatchResult}
    (h : Kept pool cache holders reqs loose) (hids : PlainIds key)
    (heq : cache.tree.matchPrefix key = .ok (tree, result)) :
    Kept pool { cache with tree := tree } holders reqs loose ∧
      Held tree result.lastDeviceNode (key.take result.deviceIndices.length)
        result.deviceIndices ∧ result.deviceIndices.length ≤ key.length := by
  obtain ⟨tree, result, heq', custody, content, held, hle, -⟩ :=
    h.custody.matchPrefix h.plain hids
  rw [heq] at heq'
  cases heq'
  exact ⟨h.setTree content custody h.locked, held, hle⟩

theorem Kept.startReq {key : RadixKey} {maxPrefixLen : Nat} {next : KvCache}
    (h : Kept pool cache holders reqs fun _ _ => 0) (hids : PlainIds key)
    (heq : cache.startReq key maxPrefixLen = .ok (next, req)) :
    Kept pool next (req.lastNode :: holders) (req :: reqs) fun _ _ => 0 := by
  unfold KvCache.startReq at heq
  cases hmatch : cache.tree.matchPrefix (key.take maxPrefixLen) with
  | error e =>
    rw [hmatch] at heq
    cases heq
  | ok found =>
    obtain ⟨tree, result⟩ := found
    rw [hmatch] at heq
    simp only [bind, Except.bind, pure, Except.pure] at heq
    cases heq
    obtain ⟨hfound, held, hle⟩ := h.matchPrefix (hids.take maxPrefixLen) hmatch
    rw [RadixKey.length_take] at hle
    rw [RadixKey.take_take, Nat.min_eq_left (by omega)] at held
    obtain ⟨rows, hpath, hspace, hspell, hslots⟩ := held
    have hlocked := hfound.incLockRef hpath
    have locks := sameContent_incLockRef hfound.custody.valid hpath
    have held := locks.held ⟨rows, hpath, hspace, hspell, hslots⟩
    have valid := hlocked.custody.valid
    have hlaid := hfound.custody.laid_path hpath
    rw [hslots, ← locks.pageSize] at hlaid
    have halign := held.aligned valid
    rw [RadixKey.length_take, Nat.min_eq_left (by omega)] at halign
    refine hlocked.add (by simp) ⟨hids, ?_, Nat.le_refl _, Nat.le_refl _, ?_⟩ ?_
    · rwa [List.take_length]
    · rw [hlaid.pagesOf_eq valid.page_pos]
      exact hlaid
    · -- All of the row is the tree's.
      intro rank page
      rw [KvReq.countOn, KvReq.ownPages, KvReq.pagesFrom, List.drop_eq_nil_of_le, shareOf_nil]
      rw [hlaid.pagesOf_eq valid.page_pos, hlaid.count, pagesFor_of_dvd valid.page_pos halign]

/-- A row that goes on over fresh pages gains these as its own. -/
theorem Owned.grow {tree : RadixCache} {slots fresh : List Nat} (howned : Owned tree req)
    (valid : Valid tree)
    (hlaid : Laid tree.pageSize (req.row ++ slots) (pagesOf tree.pageSize req.row ++ fresh)) :
    Owned tree { req with row := req.row ++ slots } ∧
      KvReq.ownPages tree.pageSize { req with row := req.row ++ slots } =
        req.ownPages tree.pageSize ++ fresh := by
  have hpage := valid.page_pos
  have hlow := howned.low
  have hhigh := howned.high
  refine ⟨⟨howned.ids, ?_, hlow, ?_, ?_⟩, ?_⟩
  · dsimp only
    rw [List.take_append_of_le_length (by omega)]
    exact howned.held
  · dsimp only
    rw [List.length_append]
    omega
  · rw [hlaid.pagesOf_eq hpage]
    exact hlaid
  · dsimp only [KvReq.ownPages, KvReq.pagesFrom]
    rw [hlaid.pagesOf_eq hpage, List.drop_append_of_le_length]
    rw [howned.laid.count]
    exact (Nat.div_le_div_right (by omega)).trans (div_le_pagesFor hpage _)

/-- Growing one request of a batch moves its fresh pages from the loose ones to
it. -/
theorem Kept.grow {g : Growth} {slots fresh : List Nat} {more : Nat → Nat → Nat}
    (h : Kept pool cache holders reqs loose) (hlocked : g.req.lastNode ∈ holders)
    (howned : Owned cache.tree g.req)
    (hlaid : Laid cache.tree.pageSize (g.req.row ++ slots)
      (pagesOf cache.tree.pageSize g.req.row ++ fresh))
    (heq : ∀ rank page, loose rank page = more rank page +
      g.req.countOn cache.tree.pageSize rank page + shareOf g.req.key.rank fresh rank page) :
    Kept pool cache holders (g.write slots :: reqs) more := by
  obtain ⟨hgrown, hpages⟩ := howned.grow h.custody.valid hlaid
  refine h.add hlocked hgrown ?_
  intro rank page
  have hshare := heq rank page
  rw [KvReq.countOn] at hshare ⊢
  rw [Growth.write, hpages, shareOf_append]
  dsimp only
  omega

/-- The requests of a batch are taken out, grown, and put back. -/
theorem Kept.writeAll {batch : List Growth} {others : List KvReq} {dpRank : Nat}
    (pages : List Nat) (more : Nat → Nat → Nat)
    (h : Kept pool cache holders (batch.map Growth.req ++ others) fun rank page =>
      more rank page + shareOf dpRank pages rank page)
    (hrank : ∀ g ∈ batch, g.req.key.rank = dpRank)
    (hpages : pages.length = PagedAllocator.newPages cache.tree.pageSize
      (batch.map Growth.toExtend)) :
    Kept pool cache holders (Growth.writeAll batch
      (batchSlots cache.tree.pageSize (batch.map Growth.toExtend) pages) ++ others) more := by
  have hpage := h.page_pos
  induction batch generalizing pages more with
  | nil =>
    refine h.congr ?_
    intro rank page
    rw [List.length_eq_zero_iff.mp hpages, shareOf_nil, Nat.add_zero]
  | cons g rest ih =>
    rw [List.map_cons, newPages_cons] at hpages
    have hown := h.owned g.req (by simp)
    have hlocked := h.locked g.req (by simp)
    have hsplit := List.take_append_drop (g.toExtend.newPages cache.tree.pageSize) pages
    have hfresh : (pages.take (g.toExtend.newPages cache.tree.pageSize)).length =
        g.toExtend.newPages cache.tree.pageSize := by
      rw [List.length_take]
      omega
    have hrest := ih (pages.drop (g.toExtend.newPages cache.tree.pageSize))
      (fun rank page => more rank page + g.req.countOn cache.tree.pageSize rank page +
        shareOf dpRank (pages.take (g.toExtend.newPages cache.tree.pageSize)) rank page)
      (h.drop.congr fun rank page => by
        conv_lhs => rw [← hsplit]
        rw [shareOf_append]
        omega)
      (fun r hr => hrank r (by simp [hr])) (by rw [List.length_drop]; omega)
    have hslots : (g.toExtend.slots cache.tree.pageSize
        (pages.take (g.toExtend.newPages cache.tree.pageSize))).length = g.extendLen :=
      length_slots hpage g.toExtend hfresh
    rw [Growth.writeAll, List.map_cons, batchSlots, List.take_left' hslots,
      List.drop_left' hslots, List.cons_append]
    refine hrest.grow hlocked hown (hown.laid.extend hpage rfl rfl hfresh) ?_
    intro rank page
    rw [hrank g (by simp)]

/-- The same with whole pages for requests that end at a page boundary. -/
theorem Kept.writePages {batch : List Growth} {others : List KvReq} {dpRank : Nat}
    (pages : List Nat) (more : Nat → Nat → Nat)
    (h : Kept pool cache holders (batch.map Growth.req ++ others) fun rank page =>
      more rank page + shareOf dpRank pages rank page)
    (hrank : ∀ g ∈ batch, g.req.key.rank = dpRank)
    (hwhole : ∀ g ∈ batch, g.req.row.length % cache.tree.pageSize = 0)
    (hpages : pages.length =
      (batch.map fun g => pagesFor cache.tree.pageSize g.extendLen).sum) :
    Kept pool cache holders (Growth.writePages cache.tree.pageSize batch
      (pages.flatMap (pageSlots cache.tree.pageSize)) ++ others) more := by
  have hpage := h.page_pos
  induction batch generalizing pages more with
  | nil =>
    refine h.congr ?_
    intro rank page
    rw [List.length_eq_zero_iff.mp hpages, shareOf_nil, Nat.add_zero]
  | cons g rest ih =>
    rw [List.map_cons, List.sum_cons] at hpages
    have hown := h.owned g.req (by simp)
    have hlocked := h.locked g.req (by simp)
    have hsplit := List.take_append_drop (pagesFor cache.tree.pageSize g.extendLen) pages
    have hroom : pagesFor cache.tree.pageSize g.extendLen ≤ pages.length := by omega
    have hrest := ih (pages.drop (pagesFor cache.tree.pageSize g.extendLen))
      (fun rank page => more rank page + g.req.countOn cache.tree.pageSize rank page +
        shareOf dpRank (pages.take (pagesFor cache.tree.pageSize g.extendLen)) rank page)
      (h.drop.congr fun rank page => by
        conv_lhs => rw [← hsplit]
        rw [shareOf_append]
        omega)
      (fun r hr => hrank r (by simp [hr])) (fun r hr => hwhole r (by simp [hr]))
      (by rw [List.length_drop]; omega)
    rw [Growth.writePages, take_flatMap_pageSlots hroom, drop_flatMap_pageSlots hroom,
      List.cons_append]
    have hlaid : Laid cache.tree.pageSize _ (pages.take (pagesFor cache.tree.pageSize g.extendLen)) :=
      .of_take hpage (by rw [List.length_take, Nat.min_eq_left hroom])
    refine hrest.grow hlocked hown (hown.laid.append hpage (hwhole g (by simp)) hlaid) ?_
    intro rank page
    rw [hrank g (by simp)]

end Growth
end SglJax.MemCache
