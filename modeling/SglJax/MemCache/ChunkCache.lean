import SglJax.MemCache.KvConservation

/-! `ChunkCache`, which keeps no tree, and the pages of a pool behind it: each one is
free or among the slots that somebody holds. -/
namespace SglJax.MemCache

/-! ### The cache -/

namespace ChunkCache

/-- `cache_finished_req` -/
def cacheFinishedReq (a : PoolAllocator) (row : List Nat) (kvCommittedLen dpRank : Nat) :
    PoolAllocator :=
  a.free (row.take kvCommittedLen) dpRank

/-- `release_kv_cache` with this cache; the row is kept up to `kv_allocated_len`. -/
def releaseKvCache (a : PoolAllocator) (row : List Nat) (kvCommittedLen dpRank : Nat)
    (allowOverallocated : Bool) : Except CacheError PoolAllocator :=
  let a := cacheFinishedReq a row kvCommittedLen dpRank
  let endP := row.length
  if !allowOverallocated && kvCommittedLen ≠ endP then
    .error .assertionError
  else
    let startP :=
      if a.pageSize > 1 then pagesFor a.pageSize kvCommittedLen * a.pageSize else kvCommittedLen
    if startP < endP then .ok (a.free ((slice row startP endP).filter (· ≠ 0)) dpRank)
    else .ok a

end ChunkCache

/-! ### Holdings -/

/-- Slots of a rank in somebody's hands. -/
structure Holding where
  dpRank : Nat
  slots : List Nat
deriving DecidableEq, Repr

namespace Holding

def count (pageSize rank page : Nat) (h : Holding) : Nat :=
  shareOf h.dpRank (pagesOf pageSize h.slots) rank page

def countAll (pageSize : Nat) (hs : List Holding) (rank page : Nat) : Nat :=
  (hs.map (count pageSize rank page)).sum

theorem countAll_cons (pageSize : Nat) (h : Holding) (hs : List Holding) (rank page : Nat) :
    countAll pageSize (h :: hs) rank page =
      h.count pageSize rank page + countAll pageSize hs rank page := by
  simp [countAll]

theorem countAll_perm {hs hs' : List Holding} (h : hs.Perm hs') (pageSize rank page : Nat) :
    countAll pageSize hs rank page = countAll pageSize hs' rank page :=
  (h.map _).sum_eq

/-- A holding that is to have slots up to a length. -/
structure Extension where
  held : Holding
  seqLen : Nat
  le : held.slots.length ≤ seqLen

namespace Extension

def extendLen (e : Extension) : Nat := e.seqLen - e.held.slots.length

/-- The entry in the arguments of `alloc_extend`. -/
def toExtend (e : Extension) : ExtendSeq :=
  ⟨e.held.slots.length, e.seqLen, lastLoc e.held.slots, e.le⟩

def write (e : Extension) (slots : List Nat) : Holding :=
  { e.held with slots := e.held.slots ++ slots }

/-- Each one takes its share of what the batch was given. -/
def writeAll : List Extension → List Nat → List Holding
  | [], _ => []
  | e :: rest, out => e.write (out.take e.extendLen) :: writeAll rest (out.drop e.extendLen)

end Extension

end Holding

/-- The pool as a ledger has it where there is no tree. -/
def noTree (pool : PoolShape) (a : PoolAllocator) : KvCache := ⟨a, .reset pool.pageSize true false⟩

/-- The pages that are not free are those under the holdings, each once. -/
structure PagesHeld (pool : PoolShape) (a : PoolAllocator) (hs : List Holding) : Prop where
  page_pos : 0 < pool.pageSize
  ledger : Ledger pool (noTree pool a) (Holding.countAll pool.pageSize hs)
  laid : ∀ h ∈ hs, Laid pool.pageSize h.slots (pagesOf pool.pageSize h.slots)

namespace PagesHeld

variable {pool : PoolShape} {a b : PoolAllocator} {hs hs' : List Holding} {h : Holding}

theorem pageSize (held : PagesHeld pool a hs) : a.pageSize = pool.pageSize := held.ledger.page

/-- A new allocator, with whole pages on every rank. -/
theorem init {size pageSize dpSize : Nat} (hpage : 1 < pageSize) (hdp : 0 < dpSize)
    (hsize : size % (pageSize * dpSize) = 0) :
    PagesHeld ⟨pageSize, size / pageSize / dpSize⟩ (.init size pageSize dpSize) [] := by
  have hpos : 0 < pageSize := by omega
  have hwhole : size / dpSize = size / pageSize / dpSize * pageSize := by
    obtain ⟨k, rfl⟩ := Nat.dvd_of_mod_eq_zero hsize
    rw [Nat.mul_assoc, Nat.mul_div_cancel_left _ hpos, Nat.mul_div_cancel_left _ hdp,
      Nat.mul_comm dpSize, ← Nat.mul_assoc, Nat.mul_div_cancel _ hdp, Nat.mul_comm]
  refine ⟨hpos, ?_, by simp⟩
  unfold noTree PoolAllocator.init
  rw [if_neg (by omega)]
  refine ⟨rfl, rfl, hwhole, rfl, ?_⟩
  intro rank page
  simp only [PoolAllocator.freeList, PagedAllocator.freeList, PagedAllocator.init,
    List.append_nil]
  rfl

theorem perm (held : PagesHeld pool a hs) (hperm : hs.Perm hs') : PagesHeld pool a hs' where
  page_pos := held.page_pos
  ledger := held.ledger.congr fun rank page => Holding.countAll_perm hperm _ rank page
  laid := fun h hmem => held.laid h (hperm.mem_iff.mpr hmem)

theorem pagesOf_nil (hpage : 0 < pool.pageSize) : pagesOf pool.pageSize [] = [] :=
  (Laid.nil hpage).pagesOf_eq hpage

theorem nothing (held : PagesHeld pool a hs) (dpRank : Nat) :
    PagesHeld pool a (⟨dpRank, []⟩ :: hs) where
  page_pos := held.page_pos
  ledger := held.ledger.congr fun rank page => by
    rw [Holding.countAll_cons, Holding.count, pagesOf_nil held.page_pos, shareOf_nil,
      Nat.zero_add]
  laid := by
    intro x hx
    rcases List.mem_cons.mp hx with rfl | hx
    · rw [pagesOf_nil held.page_pos]
      exact .nil held.page_pos
    · exact held.laid x hx

theorem dropNothing (held : PagesHeld pool a (h :: hs)) (hnil : h.slots = []) :
    PagesHeld pool a hs where
  page_pos := held.page_pos
  ledger := held.ledger.congr fun rank page => by
    rw [Holding.countAll_cons, Holding.count, hnil, pagesOf_nil held.page_pos, shareOf_nil,
      Nat.zero_add]
  laid := fun x hx => held.laid x (List.mem_cons_of_mem _ hx)

/-- The pages of the first slots, and those after them. -/
theorem parts (held : PagesHeld pool a (h :: hs)) {n : Nat} (hn : n ≤ h.slots.length) :
    PagesHeld pool a (⟨h.dpRank, h.slots.take n⟩ ::
      ⟨h.dpRank, h.slots.drop (pagesFor pool.pageSize n * pool.pageSize)⟩ :: hs) := by
  have hpage := held.page_pos
  have hlaid := held.laid h List.mem_cons_self
  have htake := hlaid.take hpage hn
  have hdrop := hlaid.drop hpage (pagesFor pool.pageSize n)
  refine ⟨hpage, ?_, ?_⟩
  · refine held.ledger.congr ?_
    intro rank page
    rw [Holding.countAll_cons, Holding.countAll_cons, Holding.countAll_cons, Holding.count,
      Holding.count, Holding.count, htake.pagesOf_eq hpage, hdrop.pagesOf_eq hpage, ← Nat.add_assoc,
      ← shareOf_append, List.take_append_drop]
  · intro x hx
    rcases List.mem_cons.mp hx with rfl | hx
    · rw [htake.pagesOf_eq hpage]
      exact htake
    · rcases List.mem_cons.mp hx with rfl | hx
      · rw [hdrop.pagesOf_eq hpage]
        exact hdrop
      · exact held.laid x (List.mem_cons_of_mem _ hx)

/-- Slots from a page boundary on go to somebody else. -/
theorem split (held : PagesHeld pool a (h :: hs)) {n : Nat} (hn : n ≤ h.slots.length)
    (hwhole : n % pool.pageSize = 0) :
    PagesHeld pool a (⟨h.dpRank, h.slots.take n⟩ :: ⟨h.dpRank, h.slots.drop n⟩ :: hs) := by
  have hparts := held.parts hn
  rw [pagesFor_of_dvd held.page_pos hwhole,
    Nat.div_mul_cancel (Nat.dvd_of_mod_eq_zero hwhole)] at hparts
  exact hparts

/-- Slots in the last page that are not used belong to who has the page. -/
theorem shorten (held : PagesHeld pool a (h :: hs)) {n : Nat} (hn : n ≤ h.slots.length)
    (hlast : h.slots.length ≤ pagesFor pool.pageSize n * pool.pageSize) :
    PagesHeld pool a (⟨h.dpRank, h.slots.take n⟩ :: hs) := by
  have hparts := (held.parts hn).perm (List.Perm.swap _ _ _)
  exact hparts.dropNothing (List.drop_eq_nil_of_le hlast)

theorem free (held : PagesHeld pool a (h :: hs)) : PagesHeld pool (a.free h.slots h.dpRank) hs where
  page_pos := held.page_pos
  ledger := held.ledger.free held.page_pos (held.laid h List.mem_cons_self) fun rank page => by
    rw [Holding.countAll_cons, Nat.add_comm]
    rfl
  laid := fun x hx => held.laid x (List.mem_cons_of_mem _ hx)

/-- No page has the number 0, and so no held slot has it. -/
theorem filter_slots (held : PagesHeld pool a (h :: hs)) {slots : List Nat}
    (hsub : ∀ slot ∈ slots, slot ∈ h.slots) : slots.filter (· ≠ 0) = slots := by
  rw [List.filter_eq_self]
  intro slot hslot
  have hne : slot ≠ 0 := by
    intro hzero
    have htouch : Touches pool.pageSize h.slots 0 :=
      ⟨slot, hsub slot hslot, by rw [hzero, Nat.zero_div]⟩
    rw [(held.laid h List.mem_cons_self).touches held.page_pos, ← List.count_pos_iff] at htouch
    have hpos : 0 < (noTree pool a).tree.treeCount h.dpRank 0 +
        Holding.countAll pool.pageSize (h :: hs) h.dpRank 0 := by
      rw [Holding.countAll_cons, Holding.count, shareOf_self]
      omega
    have := (held.ledger.page_pos hpos).1
    omega
  simpa using hne

theorem releaseKvCache (held : PagesHeld pool a (h :: hs)) {kvCommittedLen : Nat}
    (hle : kvCommittedLen ≤ h.slots.length) {allowOverallocated : Bool}
    (heq : ChunkCache.releaseKvCache a h.slots kvCommittedLen h.dpRank allowOverallocated =
      .ok b) : PagesHeld pool b hs := by
  have hpage := held.page_pos
  have hsize : (a.free (h.slots.take kvCommittedLen) h.dpRank).pageSize = pool.pageSize :=
    (a.sameSettings_free _ _).pageSize.trans held.pageSize
  -- The first page without a committed slot starts here, at every page size.
  have hstart : (if pool.pageSize > 1 then pagesFor pool.pageSize kvCommittedLen * pool.pageSize
      else kvCommittedLen) = pagesFor pool.pageSize kvCommittedLen * pool.pageSize := by
    by_cases hone : pool.pageSize > 1
    · rw [if_pos hone]
    · have hone' : pool.pageSize = 1 := by omega
      rw [if_neg hone, hone', pagesFor, Nat.add_sub_cancel, Nat.div_one, Nat.mul_one]
  have hparts := held.parts hle
  have hfilter : (slice h.slots (pagesFor pool.pageSize kvCommittedLen * pool.pageSize)
      h.slots.length).filter (· ≠ 0) =
      h.slots.drop (pagesFor pool.pageSize kvCommittedLen * pool.pageSize) := by
    rw [slice, List.take_length]
    exact held.filter_slots fun slot => List.mem_of_mem_drop
  unfold ChunkCache.releaseKvCache ChunkCache.cacheFinishedReq at heq
  dsimp only at heq
  split at heq
  · cases heq
  rw [hsize, hstart, hfilter] at heq
  split at heq
  · cases heq
    exact hparts.free.free
  · rename_i hend
    cases heq
    exact hparts.free.dropNothing (List.drop_eq_nil_of_le (not_lt.mp hend))

/-- An allocation that found nothing may have merged the lists. -/
theorem takesNothing {dpRank : Nat} (held : PagesHeld pool a hs)
    (takes : PoolAllocator.Takes a dpRank [] b) : PagesHeld pool b hs where
  page_pos := held.page_pos
  ledger := (held.ledger.take takes).congr fun rank page => by rw [shareOf_nil, Nat.add_zero]
  laid := held.laid

/-- The pages an allocation took are held by who asked. -/
theorem took {dpRank : Nat} {pages : List Nat} (held : PagesHeld pool a hs)
    (takes : PoolAllocator.Takes a dpRank pages b) :
    PagesHeld pool b (⟨dpRank, pages.flatMap (pageSlots pool.pageSize)⟩ :: hs) := by
  have hpage := held.page_pos
  have hlaid := Laid.of_take hpage (pagesFor_mul hpage pages.length)
  rw [← length_flatMap_pageSlots pages, List.take_length] at hlaid
  refine ⟨hpage, ?_, ?_⟩
  · refine (held.ledger.take takes).congr ?_
    intro rank page
    rw [Holding.countAll_cons, Holding.count, hlaid.pagesOf_eq hpage, Nat.add_comm]
  · intro x hx
    rcases List.mem_cons.mp hx with rfl | hx
    · dsimp only
      rw [hlaid.pagesOf_eq hpage]
      exact hlaid
    · exact held.laid x hx

theorem alloc (held : PagesHeld pool a hs) {needSize dpRank : Nat} {out : Option (List Nat)}
    (heq : a.alloc needSize dpRank = .ok (b, out)) :
    match out with
    | none => PagesHeld pool b hs
    | some slots => slots.length = needSize ∧ PagesHeld pool b (⟨dpRank, slots⟩ :: hs) := by
  have hpos : 0 < a.pageSize := by
    rw [held.pageSize]
    exact held.page_pos
  rcases PoolAllocator.alloc_cases hpos heq with ⟨rfl, takes⟩ | ⟨pages, rfl, hlen, takes⟩
  · exact held.takesNothing takes
  · dsimp only
    rw [held.pageSize] at hlen ⊢
    exact ⟨(length_flatMap_pageSlots pages).trans hlen, held.took takes⟩

/-- A holding goes on in its last page and then in fresh ones. -/
theorem extendOne (seq : ExtendSeq) {fresh : List Nat}
    (held : PagesHeld pool a (h :: ⟨h.dpRank, fresh.flatMap (pageSlots pool.pageSize)⟩ :: hs))
    (hbefore : seq.prefixLen = h.slots.length) (hlast : seq.lastLoc = lastLoc h.slots)
    (hfresh : fresh.length = seq.newPages pool.pageSize) :
    PagesHeld pool a ({ h with slots := h.slots ++ seq.slots pool.pageSize fresh } :: hs) := by
  have hpage := held.page_pos
  have hlaid := (held.laid h List.mem_cons_self).extend hpage hbefore hlast hfresh
  have hpages := Laid.of_take hpage (pagesFor_mul hpage fresh.length)
  rw [← length_flatMap_pageSlots fresh, List.take_length] at hpages
  refine ⟨hpage, ?_, ?_⟩
  · refine held.ledger.congr ?_
    intro rank page
    rw [Holding.countAll_cons, Holding.countAll_cons, Holding.countAll_cons, Holding.count,
      Holding.count, Holding.count, hpages.pagesOf_eq hpage, hlaid.pagesOf_eq hpage,
      ← Nat.add_assoc,
      ← shareOf_append]
  · intro x hx
    rcases List.mem_cons.mp hx with rfl | hx
    · dsimp only
      rw [hlaid.pagesOf_eq hpage]
      exact hlaid
    · exact held.laid x (List.mem_cons_of_mem _ (List.mem_cons_of_mem _ hx))

/-- The holdings of a batch share what it was given. -/
theorem writeAll {batch : List Holding.Extension} {dpRank : Nat} (pages : List Nat)
    (held : PagesHeld pool a (⟨dpRank, pages.flatMap (pageSlots pool.pageSize)⟩ ::
      (batch.map Holding.Extension.held ++ hs)))
    (hrank : ∀ e ∈ batch, e.held.dpRank = dpRank)
    (hpages : pages.length = PagedAllocator.newPages pool.pageSize
      (batch.map Holding.Extension.toExtend)) :
    PagesHeld pool a (Holding.Extension.writeAll batch
      (batchSlots pool.pageSize (batch.map Holding.Extension.toExtend) pages) ++ hs) := by
  have hpage := held.page_pos
  induction batch generalizing pages hs with
  | nil =>
    rw [List.map_nil, newPages_nil, List.length_eq_zero_iff] at hpages
    apply held.dropNothing
    rw [hpages]
    rfl
  | cons e rest ih =>
    rw [List.map_cons, newPages_cons] at hpages
    obtain rfl := hrank e List.mem_cons_self
    have hroom : e.toExtend.newPages pool.pageSize ≤ pages.length := by omega
    have hfresh : (pages.take (e.toExtend.newPages pool.pageSize)).length =
        e.toExtend.newPages pool.pageSize := by
      rw [List.length_take]
      omega
    have hsplit := held.split (n := e.toExtend.newPages pool.pageSize * pool.pageSize)
      (by
        dsimp only
        rw [length_flatMap_pageSlots]
        exact Nat.mul_le_mul_right _ hroom)
      (Nat.mul_mod_left _ _)
    dsimp only at hsplit
    rw [take_flatMap_pageSlots hroom, drop_flatMap_pageSlots hroom, List.map_cons,
      List.cons_append] at hsplit
    -- the next holding beside its pages
    have hnext := hsplit.perm (((List.Perm.swap _ _ _).cons _).trans (List.Perm.swap _ _ _))
    have hgrown := hnext.extendOne e.toExtend rfl rfl hfresh
    have hmoved := hgrown.perm ((List.Perm.swap _ _ _).trans
      (List.perm_middle.symm.cons _))
    have hleft : (pages.drop (e.toExtend.newPages pool.pageSize)).length =
        PagedAllocator.newPages pool.pageSize (rest.map Holding.Extension.toExtend) := by
      rw [List.length_drop]
      omega
    have hrest := ih (pages.drop (e.toExtend.newPages pool.pageSize)) hmoved
      (fun x hx => hrank x (List.mem_cons_of_mem _ hx)) hleft
    have hslots : (e.toExtend.slots pool.pageSize
        (pages.take (e.toExtend.newPages pool.pageSize))).length = e.extendLen :=
      length_slots hpage e.toExtend hfresh
    rw [Holding.Extension.writeAll, List.map_cons, batchSlots, List.take_left' hslots,
      List.drop_left' hslots, List.cons_append]
    exact hrest.perm List.perm_middle

theorem allocExtend (held : PagesHeld pool a (hs' ++ hs)) {batch : List Holding.Extension}
    {dpRank : Nat} {out : List Nat} (hbatch : batch.map Holding.Extension.held = hs')
    (hrank : ∀ e ∈ batch, e.held.dpRank = dpRank)
    (heq : a.allocExtend (batch.map Holding.Extension.toExtend)
      ((batch.map Holding.Extension.toExtend).map ExtendSeq.extendLen).sum dpRank =
        .ok (b, some out)) :
    PagesHeld pool b (Holding.Extension.writeAll batch out ++ hs) := by
  have hpos : 0 < a.pageSize := by
    rw [held.pageSize]
    exact held.page_pos
  subst hbatch
  rcases PoolAllocator.allocExtend_cases hpos heq with ⟨hnone, -⟩ | ⟨pages, hout, hlen, takes⟩
  · cases hnone
  · cases hout
    rw [held.pageSize] at hlen ⊢
    exact (held.took takes).writeAll pages hrank hlen

end PagesHeld

/-! ### The partition -/

/-- Each page of the rank is free or under the slots of one holding, and not both. -/
structure OneHolder (pagesPerRank pageSize : Nat) (a : PoolAllocator) (hs : List Holding)
    (rank : Nat) : Prop where
  cover : ∀ page, page ∈ Set.Icc 1 pagesPerRank ↔ page ∈ a.freeList rank ∨
    ∃ h ∈ hs, h.dpRank = rank ∧ Touches pageSize h.slots page
  free_once : (a.freeList rank).Nodup
  free_apart : ∀ page ∈ a.freeList rank, ∀ h ∈ hs, h.dpRank = rank →
    ¬ Touches pageSize h.slots page
  held_once : hs.Pairwise fun h h' => h.dpRank = rank → h'.dpRank = rank → ∀ page,
    Touches pageSize h.slots page → ¬ Touches pageSize h'.slots page

namespace PagesHeld

variable {pool : PoolShape} {a : PoolAllocator} {hs : List Holding} {h : Holding}

theorem count_pos_iff (held : PagesHeld pool a hs) (hmem : h ∈ hs) {rank page : Nat} :
    0 < h.count pool.pageSize rank page ↔
      h.dpRank = rank ∧ Touches pool.pageSize h.slots page := by
  rw [(held.laid h hmem).touches held.page_pos, Holding.count, shareOf]
  by_cases hrank : rank = h.dpRank
  · rw [if_pos hrank, List.count_pos_iff]
    exact (and_iff_right hrank.symm).symm
  · rw [if_neg hrank]
    simp [Ne.symm hrank]

theorem countAll_pos_iff (held : PagesHeld pool a hs) {rank page : Nat} :
    0 < Holding.countAll pool.pageSize hs rank page ↔
      ∃ h ∈ hs, h.dpRank = rank ∧ Touches pool.pageSize h.slots page := by
  unfold Holding.countAll
  rw [Nat.pos_iff_ne_zero, ne_eq, List.sum_eq_zero_iff]
  constructor
  · intro hsum
    by_contra hnone
    apply hsum
    intro n hn
    obtain ⟨h, hmem, rfl⟩ := List.mem_map.mp hn
    by_contra hne
    exact hnone ⟨h, hmem, (held.count_pos_iff hmem).mp (Nat.pos_of_ne_zero hne)⟩
  · rintro ⟨h, hmem, hrest⟩ hzero
    have hpos := (held.count_pos_iff hmem).mpr hrest
    have := hzero _ (List.mem_map_of_mem hmem)
    omega

theorem pairwise_of_countAll {pageSize rank : Nat} {hs : List Holding}
    (hone : ∀ page, Holding.countAll pageSize hs rank page ≤ 1) :
    hs.Pairwise fun h h' => ∀ page, 0 < h.count pageSize rank page →
      ¬ 0 < h'.count pageSize rank page := by
  induction hs with
  | nil => exact .nil
  | cons h hs ih =>
    simp only [Holding.countAll_cons] at hone
    refine .cons ?_ (ih fun page => by have := hone page; omega)
    intro h' hmem page hpos hpos'
    have hle : h'.count pageSize rank page ≤ Holding.countAll pageSize hs rank page :=
      List.le_sum_of_mem (List.mem_map_of_mem hmem)
    have := hone page
    omega

theorem oneHolder (held : PagesHeld pool a hs) (rank : Nat) :
    OneHolder pool.pagesPerRank pool.pageSize a hs rank := by
  have hcount : ∀ page, (a.freeList rank).count page +
      Holding.countAll pool.pageSize hs rank page =
      (List.range' 1 pool.pagesPerRank).count page := held.ledger.count rank
  have hone := count_range_le pool.pagesPerRank
  constructor
  · intro page
    have hmem : page ∈ Set.Icc 1 pool.pagesPerRank ↔
        0 < (List.range' 1 pool.pagesPerRank).count page := by
      rw [List.count_pos_iff, List.mem_range'_1, Set.mem_Icc]
      omega
    have := hcount page
    rw [hmem, ← List.count_pos_iff, ← held.countAll_pos_iff]
    omega
  · apply List.nodup_iff_count_le_one.mpr
    intro page
    have := hcount page
    have := hone page
    omega
  · intro page hfree h hmem hrank htouch
    have hpos := held.countAll_pos_iff.mpr ⟨h, hmem, hrank, htouch⟩
    rw [← List.count_pos_iff] at hfree
    have := hcount page
    have := hone page
    omega
  · have hsum : ∀ page, Holding.countAll pool.pageSize hs rank page ≤ 1 := by
      intro page
      have := hcount page
      have := hone page
      omega
    refine (pairwise_of_countAll hsum).imp_of_mem ?_
    intro h h' hmem hmem' hdisjoint hrank hrank' page htouch htouch'
    exact hdisjoint page ((held.count_pos_iff hmem).mpr ⟨hrank, htouch⟩)
      ((held.count_pos_iff hmem').mpr ⟨hrank', htouch'⟩)

end PagesHeld

end SglJax.MemCache
