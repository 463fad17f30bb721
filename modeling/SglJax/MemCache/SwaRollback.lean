import SglJax.MemCache.SwaAllocator

/-! Failing allocations of `SWATokenToKVPoolAllocator`. When the window pool runs
out after the FULL pool has served a batch, the FULL slots are freed again, and
`free` works on whole pages: it also takes the page a sequence already owns and
only continues in. -/
namespace SglJax.MemCache

namespace SwaAllocator

/-- A pool of an allocator with this page size. The pools are never put into a
free group themselves. -/
structure PagedPool (pageSize : Nat) (pool : PoolAllocator) (a : PagedAllocator) : Prop where
  eq : pool = .paged a
  page : a.pageSize = pageSize
  group : a.isNotInFreeGroup = true

/-- Both pools are paged with the given page size. -/
def Paged (pageSize : Nat) (s : SwaAllocator) : Prop :=
  (∃ a, PagedPool pageSize s.full a) ∧ ∃ b, PagedPool pageSize s.swa b

/-- The allocator states that runs reach. -/
inductive Reachable (pageSize : Nat) : SwaAllocator → Prop where
  | init (size sizeSwa dpSize : Nat) : Reachable pageSize (init size sizeSwa pageSize dpSize)
  | alloc {s t : SwaAllocator} {needSize dpRank : Nat} {out : Option (List Nat)}
      (h : Reachable pageSize s) (heq : s.alloc needSize dpRank = .ok (t, out)) :
      Reachable pageSize t
  | allocExtend {s t : SwaAllocator} {batch : List ExtendSeq} {tokens dpRank : Nat}
      {out : Option (List Nat)} (h : Reachable pageSize s)
      (heq : s.allocExtend batch tokens dpRank = .ok (t, out)) : Reachable pageSize t
  | allocDecode {s t : SwaAllocator} {batch : List DecodeSeq} {dpRank : Nat}
      {out : Option (List Nat)} (h : Reachable pageSize s)
      (heq : s.allocDecode batch dpRank = .ok (t, out)) : Reachable pageSize t
  | free {s t : SwaAllocator} {indices : List Nat} {dpRank : Nat} (h : Reachable pageSize s)
      (heq : s.free indices dpRank = .ok t) : Reachable pageSize t
  | freeFull {s : SwaAllocator} (h : Reachable pageSize s) (indices : List Nat) (dpRank : Nat) :
      Reachable pageSize (s.freeFull indices dpRank)
  | freeSwa {s : SwaAllocator} (h : Reachable pageSize s) (indices : List Nat) (dpRank : Nat) :
      Reachable pageSize (s.freeSwa indices dpRank)
  | transferSwaMapping {s t : SwaAllocator} {source target : List Nat} {dpRank : Nat}
      (h : Reachable pageSize s) (heq : s.transferSwaMapping source target dpRank = .ok t) :
      Reachable pageSize t
  | freeGroupBegin {s : SwaAllocator} (h : Reachable pageSize s) :
      Reachable pageSize s.freeGroupBegin
  | freeGroupEnd {s : SwaAllocator} (h : Reachable pageSize s) (dpSize : Nat) :
      Reachable pageSize (s.freeGroupEnd dpSize)

section Pools

variable {pageSize : Nat} {pool : PoolAllocator} {a : PagedAllocator}

theorem PagedPool.of_sameSettings {b : PagedAllocator} (h : PagedPool pageSize pool a)
    (same : PagedAllocator.SameSettings a b) : PagedPool pageSize (.paged b) b :=
  ⟨rfl, same.pageSize.trans h.page, same.isNotInFreeGroup.trans h.group⟩

theorem PagedPool.free (h : PagedPool pageSize pool a) (indices : List Nat) (dpRank : Nat) :
    ∃ b, PagedPool pageSize (pool.free indices dpRank) b := by
  obtain rfl := h.eq
  exact ⟨_, h.of_sameSettings (a.sameSettings_free dpRank indices)⟩

private theorem sameSettings_dropFree (pages taken dpRank : Nat) :
    PagedAllocator.SameSettings a ((a.reserve pages dpRank).dropFree taken dpRank) := by
  obtain ⟨h1, h2, h3, h4⟩ := a.sameSettings_reserve dpRank pages
  exact ⟨h1, h2, h3, h4⟩

theorem PagedPool.alloc (h : PagedPool pageSize pool a) {needSize dpRank : Nat}
    {next : PoolAllocator} {out : Option (List Nat)}
    (heq : pool.alloc needSize dpRank = .ok (next, out)) : ∃ b, PagedPool pageSize next b := by
  obtain rfl := h.eq
  unfold PoolAllocator.alloc PagedAllocator.alloc at heq
  dsimp only at heq
  split at heq
  · cases heq
  · split at heq <;> cases heq
    · exact ⟨_, h.of_sameSettings (a.sameSettings_reserve dpRank _)⟩
    · exact ⟨_, h.of_sameSettings (sameSettings_dropFree _ _ _)⟩

theorem PagedPool.allocExtend (h : PagedPool pageSize pool a) {batch : List ExtendSeq}
    {tokens dpRank : Nat} {next : PoolAllocator} {out : Option (List Nat)}
    (heq : pool.allocExtend batch tokens dpRank = .ok (next, out)) :
    ∃ b, PagedPool pageSize next b := by
  obtain rfl := h.eq
  unfold PoolAllocator.allocExtend PagedAllocator.allocExtend at heq
  dsimp only at heq
  split at heq
  · cases heq
    exact ⟨_, h.of_sameSettings (a.sameSettings_reserve dpRank _)⟩
  · simp only [bind, Except.bind] at heq
    split at heq
    · cases heq
    · cases heq
      exact ⟨_, h.of_sameSettings (sameSettings_dropFree _ _ _)⟩

theorem PagedPool.allocDecode (h : PagedPool pageSize pool a) {batch : List DecodeSeq}
    {dpRank : Nat} {next : PoolAllocator} {out : Option (List Nat)}
    (heq : pool.allocDecode batch dpRank = .ok (next, out)) :
    ∃ b, PagedPool pageSize next b := by
  obtain rfl := h.eq
  unfold PoolAllocator.allocDecode PagedAllocator.allocDecode at heq
  dsimp only at heq
  split at heq
  · cases heq
    exact ⟨_, h.of_sameSettings (a.sameSettings_reserve dpRank _)⟩
  · simp only [bind, Except.bind] at heq
    split at heq
    · cases heq
    · cases heq
      exact ⟨_, h.of_sameSettings (sameSettings_dropFree _ _ _)⟩

end Pools

theorem Paged.init {pageSize : Nat} (hpage : pageSize ≠ 1) (size sizeSwa dpSize : Nat) :
    Paged pageSize (init size sizeSwa pageSize dpSize) := by
  unfold SwaAllocator.init PoolAllocator.init
  rw [if_neg hpage, if_neg hpage]
  exact ⟨⟨_, rfl, rfl, rfl⟩, _, rfl, rfl, rfl⟩

section Steps

variable {pageSize : Nat} {s t : SwaAllocator}

theorem Paged.freeFull (h : Paged pageSize s) (indices : List Nat) (dpRank : Nat) :
    Paged pageSize (s.freeFull indices dpRank) := by
  unfold SwaAllocator.freeFull
  split
  · exact ⟨h.1.choose_spec.free indices dpRank, h.2⟩
  · exact h

theorem Paged.freeSwa (h : Paged pageSize s) (indices : List Nat) (dpRank : Nat) :
    Paged pageSize (s.freeSwa indices dpRank) := by
  unfold SwaAllocator.freeSwa
  dsimp only
  split
  · exact ⟨h.1, h.2.choose_spec.free _ dpRank⟩
  · exact h

theorem Paged.flushRank (h : Paged pageSize s) (rank : Nat) :
    Paged pageSize (s.flushRank rank) := by
  have hfull : Paged pageSize (s.flushFull rank) := by
    unfold flushFull
    split
    · exact ⟨h.1.choose_spec.free _ rank, h.2⟩
    · exact h
  unfold SwaAllocator.flushRank flushSwa
  split
  · exact ⟨hfull.1, hfull.2.choose_spec.free _ rank⟩
  · exact hfull

theorem Paged.freeGroupEnd (h : Paged pageSize s) (dpSize : Nat) :
    Paged pageSize (s.freeGroupEnd dpSize) := by
  have hfold : ∀ (ranks : List Nat) (u : SwaAllocator), Paged pageSize u →
      Paged pageSize (ranks.foldl SwaAllocator.flushRank u) := by
    intro ranks
    induction ranks with
    | nil => exact fun u hu => hu
    | cons rank ranks ih => exact fun u hu => ih _ (hu.flushRank rank)
  exact hfold (List.range dpSize) _ h

theorem Paged.setMapping (h : Paged pageSize s) (dpRank : Nat) (indices values : List Nat) :
    Paged pageSize (s.setMapping dpRank indices values) := h

/-- The allocation calls only replace the pools by what the pools' own calls
return, and may free slots of the FULL pool. -/
theorem Paged.alloc (h : Paged pageSize s) {needSize dpRank : Nat} {out : Option (List Nat)}
    (heq : s.alloc needSize dpRank = .ok (t, out)) : Paged pageSize t := by
  unfold SwaAllocator.alloc at heq
  split at heq
  · cases heq; exact h
  · split at heq
    · cases heq; exact h
    · simp only [bind, Except.bind] at heq
      split at heq
      · cases heq
      · rename_i full hfull
        split at heq
        · cases heq
        · rename_i swa hswa
          obtain ⟨a, ha⟩ := h.1.choose_spec.alloc hfull
          obtain ⟨b, hb⟩ := h.2.choose_spec.alloc hswa
          split at heq <;> cases heq
          · exact ⟨⟨a, ha⟩, b, hb⟩
          · exact ⟨ha.free _ _, b, hb⟩

theorem Paged.allocExtend (h : Paged pageSize s) {batch : List ExtendSeq} {tokens dpRank : Nat}
    {out : Option (List Nat)} (heq : s.allocExtend batch tokens dpRank = .ok (t, out)) :
    Paged pageSize t := by
  unfold SwaAllocator.allocExtend at heq
  simp only [bind, Except.bind] at heq
  split at heq
  · cases heq
  · rename_i full hfull
    obtain ⟨a, ha⟩ := h.1.choose_spec.allocExtend hfull
    split at heq
    · cases heq
      exact ⟨⟨a, ha⟩, h.2⟩
    · split at heq
      · cases heq
      · rename_i swa hswa
        obtain ⟨b, hb⟩ := h.2.choose_spec.allocExtend hswa
        split at heq <;> cases heq
        · exact ⟨ha.free _ _, b, hb⟩
        · exact ⟨⟨a, ha⟩, b, hb⟩

theorem Paged.allocDecode (h : Paged pageSize s) {batch : List DecodeSeq} {dpRank : Nat}
    {out : Option (List Nat)} (heq : s.allocDecode batch dpRank = .ok (t, out)) :
    Paged pageSize t := by
  unfold SwaAllocator.allocDecode at heq
  simp only [bind, Except.bind] at heq
  split at heq
  · cases heq
  · rename_i full hfull
    obtain ⟨a, ha⟩ := h.1.choose_spec.allocDecode hfull
    split at heq
    · cases heq
      exact ⟨⟨a, ha⟩, h.2⟩
    · split at heq
      · cases heq
      · rename_i swa hswa
        obtain ⟨b, hb⟩ := h.2.choose_spec.allocDecode hswa
        split at heq <;> cases heq
        · exact ⟨ha.free _ _, b, hb⟩
        · exact ⟨⟨a, ha⟩, b, hb⟩

theorem Reachable.paged (h : Reachable pageSize s) (hpage : 1 < pageSize) : Paged pageSize s := by
  induction h with
  | init size sizeSwa dpSize => exact .init (by omega) size sizeSwa dpSize
  | alloc _ heq ih => exact ih.alloc heq
  | allocExtend _ heq ih => exact ih.allocExtend heq
  | allocDecode _ heq ih => exact ih.allocDecode heq
  | free _ heq ih =>
    unfold SwaAllocator.free at heq
    split at heq
    · cases heq; exact ih
    · dsimp only at heq
      split at heq
      · cases heq
      · split at heq <;> cases heq
        exact (ih.freeFull _ _).freeSwa _ _
  | freeFull _ indices dpRank ih => exact ih.freeFull indices dpRank
  | freeSwa _ indices dpRank ih => exact ih.freeSwa indices dpRank
  | transferSwaMapping _ heq ih =>
    unfold SwaAllocator.transferSwaMapping at heq
    split at heq
    · cases heq
    · split at heq
      · cases heq
      · split at heq <;> cases heq
        exact Paged.freeFull (ih.setMapping _ _ _ |>.setMapping _ _ _) _ _
  | freeGroupBegin _ ih => exact ih
  | freeGroupEnd _ dpSize ih => exact ih.freeGroupEnd dpSize

end Steps

/-! ### When a failed allocation leaves no trace -/

/-- The same pages are free and the same slots are mapped. -/
structure Unchanged (s t : SwaAllocator) : Prop where
  full : ∀ dpRank page, page ∈ t.full.freeList dpRank ↔ page ∈ s.full.freeList dpRank
  swa : ∀ dpRank page, page ∈ t.swa.freeList dpRank ↔ page ∈ s.swa.freeList dpRank
  mapping : t.fullToSwa = s.fullToSwa

/-- The sequence's last token sits in a slot of a live request: at the offset
its length gives, in a page that is not free. -/
structure TailHeld (pageSize : Nat) (s : SwaAllocator) (dpRank : Nat) (seq : ExtendSeq) :
    Prop where
  nonneg : 0 ≤ seq.lastLoc
  offset : (seq.lastLoc.toNat + 1) % pageSize = seq.prefixLen % pageSize
  held : seq.lastLoc.toNat / pageSize ∉ s.full.freeList dpRank

/-- Sequences with tokens end in a slot of a live request. -/
def LiveBatch (pageSize : Nat) (s : SwaAllocator) (dpRank : Nat) (batch : List ExtendSeq) :
    Prop :=
  ∀ seq ∈ batch, 0 < seq.prefixLen → TailHeld pageSize s dpRank seq

/-- The FULL pool can serve the batch but the window pool cannot. -/
def WindowRunsOut (s : SwaAllocator) (dpRank pages : Nat) : Prop :=
  pages ≤ (s.full.freeList dpRank).length ∧ (s.swa.freeList dpRank).length < pages

/-- Some sequence that is extended goes on inside a page it already has. -/
def ContinuesPage (pageSize : Nat) (batch : List ExtendSeq) : Prop :=
  ∃ seq ∈ batch, 0 < seq.extendLen ∧ seq.prefixLen % pageSize ≠ 0

section Rollback

variable {pageSize : Nat} {s : SwaAllocator} {dpRank : Nat}

theorem TailHeld.touches_part1 {seq : ExtendSeq} (hpage : 0 < pageSize)
    (h : TailHeld pageSize s dpRank seq) {page : Nat} :
    Touches pageSize (seq.part1 pageSize) page ↔
      0 < seq.part1Size pageSize ∧ page = seq.lastLoc.toNat / pageSize :=
  seq.touches_part1 hpage (Int.toNat_of_nonneg h.nonneg).symm h.offset

open PagedAllocator (newPages)

theorem touches_part1_pos {seq : ExtendSeq} {page : Nat}
    (h : Touches pageSize (seq.part1 pageSize) page) : 0 < seq.part1Size pageSize := by
  obtain ⟨slot, hslot, -⟩ := h
  rw [← ExtendSeq.length_part1]
  exact List.length_pos_of_mem hslot

/-- The window pool is asked for the same lengths at its own slots. -/
def swaBatch (s : SwaAllocator) (dpRank : Nat) (batch : List ExtendSeq) : List ExtendSeq :=
  batch.map fun seq => { seq with lastLoc := s.mapAt dpRank seq.lastLoc }

theorem newPages_swaBatch (s : SwaAllocator) (dpRank : Nat) (batch : List ExtendSeq) :
    newPages pageSize (s.swaBatch dpRank batch) = newPages pageSize batch := by
  simp [newPages, swaBatch, Function.comp_def]

theorem extendLen_swaBatch (s : SwaAllocator) (dpRank : Nat) (batch : List ExtendSeq) :
    ((s.swaBatch dpRank batch).map ExtendSeq.extendLen).sum =
      (batch.map ExtendSeq.extendLen).sum := by
  rw [swaBatch, List.map_map]
  rfl

/-- What the pages of the FULL pool are after it has served a batch and taken
the slots back. -/
theorem mem_freeList_rollback {a : PagedAllocator} (hpage : 0 < a.pageSize)
    (hgroup : a.isNotInFreeGroup = true) {batch : List ExtendSeq}
    (hroom : newPages a.pageSize batch ≤
      ((a.reserve (newPages a.pageSize batch) dpRank).freePages dpRank).length)
    {taken : List Nat} (htaken : taken =
      ((a.reserve (newPages a.pageSize batch) dpRank).freePages dpRank).take
        (newPages a.pageSize batch)) {other page : Nat} :
    page ∈ (((a.reserve (newPages a.pageSize batch) dpRank).dropFree
        (newPages a.pageSize batch) dpRank).free (batchSlots a.pageSize batch taken)
          dpRank).freeList other ↔
      page ∈ a.freeList other ∨
        (other = dpRank ∧ ∃ seq ∈ batch, Touches a.pageSize (seq.part1 a.pageSize) page) := by
  set n := newPages a.pageSize batch with hn
  have hsame := a.sameSettings_reserve dpRank n
  have hgroup' : ((a.reserve n dpRank).dropFree n dpRank).isNotInFreeGroup = true :=
    hsame.isNotInFreeGroup.trans hgroup
  by_cases hrank : other = dpRank
  · subst hrank
    have hsplit := (a.reserve n other).freeList_dropFree other n
    have hperm := a.freeList_reserve other n other
    have hlen : n = taken.length := by
      rw [htaken, List.length_take]
      omega
    rw [PagedAllocator.mem_freeList_free _ other hgroup', ← hperm.mem_iff, hsplit, ← htaken,
      List.mem_append]
    change page ∈ _ ∨ Touches (a.reserve n other).pageSize _ page ↔ _
    rw [hsame.pageSize, touches_batchSlots hpage batch hlen]
    tauto
  · rw [PagedAllocator.freeList_free_of_ne _ dpRank hgroup' _ hrank,
      PagedAllocator.freeList_dropFree_of_ne _ dpRank n hrank,
      (a.freeList_reserve dpRank n other).mem_iff]
    tauto

/-- The three ways `alloc_extend` can go. -/
theorem allocExtend_paged (dpRank : Nat) {a b : PagedAllocator} (hfull : PagedPool pageSize s.full a)
    (hswa : PagedPool pageSize s.swa b) (hpage : 0 < pageSize) (batch : List ExtendSeq) :
    ((a.freeList dpRank).length < newPages pageSize batch ∧
      s.allocExtend batch (batch.map ExtendSeq.extendLen).sum dpRank =
        .ok ({ s with full := .paged (a.reserve (newPages pageSize batch) dpRank) }, none)) ∨
    (newPages pageSize batch ≤ (a.freeList dpRank).length ∧
      (b.freeList dpRank).length < newPages pageSize batch ∧
      newPages pageSize batch ≤
        ((a.reserve (newPages pageSize batch) dpRank).freePages dpRank).length ∧
      s.allocExtend batch (batch.map ExtendSeq.extendLen).sum dpRank =
        .ok ({ s with
          full := .paged (((a.reserve (newPages pageSize batch) dpRank).dropFree
            (newPages pageSize batch) dpRank).free (batchSlots pageSize batch
              (((a.reserve (newPages pageSize batch) dpRank).freePages dpRank).take
                (newPages pageSize batch))) dpRank)
          swa := .paged (b.reserve (newPages pageSize batch) dpRank) }, none)) ∨
    (newPages pageSize batch ≤ (b.freeList dpRank).length ∧
      ∃ t out, s.allocExtend batch (batch.map ExtendSeq.extendLen).sum dpRank =
        .ok (t, some out)) := by
  obtain ⟨hfullEq, hfullPage, -⟩ := hfull
  obtain ⟨hswaEq, hswaPage, -⟩ := hswa
  have hpa : 0 < a.pageSize := hfullPage ▸ hpage
  have hpb : 0 < b.pageSize := hswaPage ▸ hpage
  have hbatch : (batch.map fun seq => { seq with lastLoc := s.mapAt dpRank seq.lastLoc }) =
      s.swaBatch dpRank batch := rfl
  have hserved := b.allocExtend_cases dpRank hpb (s.swaBatch dpRank batch)
  rw [extendLen_swaBatch, newPages_swaBatch, hswaPage] at hserved
  have hfirst := a.allocExtend_cases dpRank hpa batch
  rw [hfullPage] at hfirst
  unfold SwaAllocator.allocExtend
  rw [hfullEq, hswaEq, hbatch]
  simp only [PoolAllocator.allocExtend]
  rcases hfirst with ⟨hlack, heq⟩ | ⟨hroom, hfree, heq⟩
  · left
    refine ⟨hlack, ?_⟩
    rw [heq]
    rfl
  · right
    rw [heq]
    rcases hserved with ⟨hlack, heq'⟩ | ⟨hroom', -, heq'⟩
    · left
      refine ⟨hroom, hlack, hfree, ?_⟩
      simp only [Except.map, Prod.map, id, bind, Except.bind, heq']
      rfl
    · right
      refine ⟨hroom', ?_⟩
      simp only [Except.map, Prod.map, id, bind, Except.bind, heq']
      exact ⟨_, _, rfl⟩

/-- `alloc_extend` is atomic on this input. -/
def AtomicExtend (s : SwaAllocator) (batch : List ExtendSeq) (dpRank : Nat) : Prop :=
  ∀ t, s.allocExtend batch (batch.map ExtendSeq.extendLen).sum dpRank = .ok (t, none) →
    Unchanged s t

def AtomicDecode (s : SwaAllocator) (batch : List DecodeSeq) (dpRank : Nat) : Prop :=
  ∀ t, s.allocDecode batch dpRank = .ok (t, none) → Unchanged s t

theorem atomicExtend_iff (h : Paged pageSize s) (hpage : 0 < pageSize) {batch : List ExtendSeq}
    (live : LiveBatch pageSize s dpRank batch) :
    AtomicExtend s batch dpRank ↔
      ¬ (WindowRunsOut s dpRank (newPages pageSize batch) ∧ ContinuesPage pageSize batch) := by
  obtain ⟨⟨a, hfull⟩, b, hswa⟩ := h
  have hfullList (r : Nat) : s.full.freeList r = a.freeList r := by rw [hfull.eq]; rfl
  have hswaList (r : Nat) : s.swa.freeList r = b.freeList r := by rw [hswa.eq]; rfl
  have hreserve (c : PagedAllocator) (n r page : Nat) :
      page ∈ (c.reserve n dpRank).freeList r ↔ page ∈ c.freeList r :=
    (c.freeList_reserve dpRank n r).mem_iff
  unfold AtomicExtend WindowRunsOut
  rw [hfullList, hswaList]
  rcases allocExtend_paged dpRank hfull hswa hpage batch with
    ⟨hlack, heq⟩ | ⟨hroom, hlack, hfree, heq⟩ | ⟨hroom, t, out, heq⟩
  · -- The FULL pool fails first and has taken nothing.
    refine iff_of_true ?_ (by omega)
    intro t ht
    rw [heq] at ht
    cases ht
    refine ⟨fun r page => ?_, fun r page => Iff.rfl, rfl⟩
    rw [hfullList]
    exact hreserve a _ r page
  · have hmem := @mem_freeList_rollback dpRank a (hfull.page ▸ hpage) hfull.group batch
    rw [hfull.page] at hmem
    constructor
    · rintro hatomic ⟨-, seq, hseq, hext, hmod⟩
      have htail := live seq hseq (Nat.pos_of_ne_zero fun hzero => hmod (by simp [hzero]))
      refine htail.held ?_
      rw [← (hatomic _ heq).full dpRank]
      refine (hmem hfree rfl).mpr (.inr ⟨rfl, seq, hseq, ?_⟩)
      exact (htail.touches_part1 hpage).mpr ⟨(seq.part1Size_pos_iff hpage).mpr ⟨hext, hmod⟩, rfl⟩
    · intro hcond t ht
      rw [heq] at ht
      cases ht
      refine ⟨fun r page => ?_, fun r page => ?_, rfl⟩
      · rw [hfullList]
        refine (hmem hfree rfl).trans ⟨?_, .inl⟩
        rintro (hpageFree | ⟨-, seq, hseq, htouch⟩)
        · exact hpageFree
        · have hpart := (seq.part1Size_pos_iff hpage).mp (touches_part1_pos htouch)
          exact absurd ⟨⟨hroom, hlack⟩, seq, hseq, hpart⟩ hcond
      · rw [hswaList]
        exact hreserve b _ r page
  · refine iff_of_true ?_ (by omega)
    intro t ht
    rw [heq] at ht
    cases ht

theorem allocDecode_eq (h : Paged pageSize s) (hpage : 0 < pageSize) (batch : List DecodeSeq) :
    s.allocDecode batch dpRank = s.allocExtend (batch.map DecodeSeq.toExtend)
      ((batch.map DecodeSeq.toExtend).map ExtendSeq.extendLen).sum dpRank := by
  obtain ⟨⟨a, hfull⟩, b, hswa⟩ := h
  have hbatch : (batch.map fun seq => { seq with lastLoc := (s.mapAt dpRank seq.lastLoc : Int) }).map
      DecodeSeq.toExtend = s.swaBatch dpRank (batch.map DecodeSeq.toExtend) := by
    simp [swaBatch, DecodeSeq.toExtend, Function.comp_def]
  unfold SwaAllocator.allocDecode SwaAllocator.allocExtend
  rw [hfull.eq, hswa.eq]
  simp only [PoolAllocator.allocDecode, PoolAllocator.allocExtend]
  rw [a.allocDecode_eq dpRank (hfull.page ▸ hpage), b.allocDecode_eq dpRank (hswa.page ▸ hpage),
    hbatch, extendLen_swaBatch]
  rfl

/-- A failed `alloc_extend` or `alloc_decode` leaves the free pages of both pools
and the mapping as they were, except when the window pool runs out after the
FULL pool has served a batch in which some sequence goes on inside a page. -/
theorem failed_alloc_unchanged_iff (h : Reachable pageSize s) (hpage : 1 < pageSize)
    {extend : List ExtendSeq} {decode : List DecodeSeq}
    (liveExtend : LiveBatch pageSize s dpRank extend)
    (liveDecode : LiveBatch pageSize s dpRank (decode.map DecodeSeq.toExtend)) :
    (AtomicExtend s extend dpRank ↔
      ¬ (WindowRunsOut s dpRank (newPages pageSize extend) ∧
        ∃ seq ∈ extend, 0 < seq.extendLen ∧ seq.prefixLen % pageSize ≠ 0)) ∧
    (AtomicDecode s decode dpRank ↔
      ¬ (WindowRunsOut s dpRank (PagedAllocator.newDecodePages pageSize decode) ∧
        ∃ seq ∈ decode, (seq.seqLen - 1) % pageSize ≠ 0)) := by
  have hpos : 0 < pageSize := by omega
  have hpaged := h.paged hpage
  refine ⟨atomicExtend_iff hpaged hpos liveExtend, ?_⟩
  have hsame : AtomicDecode s decode dpRank ↔
      AtomicExtend s (decode.map DecodeSeq.toExtend) dpRank := by
    unfold AtomicDecode AtomicExtend
    rw [allocDecode_eq hpaged hpos]
  have hcontinues : ContinuesPage pageSize (decode.map DecodeSeq.toExtend) ↔
      ∃ seq ∈ decode, (seq.seqLen - 1) % pageSize ≠ 0 := by
    constructor
    · rintro ⟨_, hmem, -, hmod⟩
      obtain ⟨seq, hseq, rfl⟩ := List.mem_map.mp hmem
      exact ⟨seq, hseq, hmod⟩
    · rintro ⟨seq, hseq, hmod⟩
      exact ⟨_, List.mem_map_of_mem hseq, by simp, hmod⟩
  rw [hsame, atomicExtend_iff hpaged hpos liveDecode, newDecodePages_eq hpos, hcontinues]

end Rollback

/-! One request holds slot 2, the first slot of page 1, and the window pool has
no other page. -/

def firstToken : List ExtendSeq := [⟨0, 1, -1, by decide⟩]

/-- The request's next two tokens: one more slot of page 1, one of a new page. -/
def nextTokens : List ExtendSeq := [⟨1, 3, 2, by decide⟩]

def oneHeld : SwaAllocator :=
  match (init 8 2 2 1).allocExtend firstToken 1 0 with
  | .ok (s, _) => s
  | .error _ => init 8 2 2 1

theorem oneHeld_reachable : Reachable 2 oneHeld := by
  have heq : (init 8 2 2 1).allocExtend firstToken 1 0 = .ok (oneHeld, some [2]) := rfl
  exact .allocExtend (.init 8 2 1) heq

theorem nextTokens_live : LiveBatch 2 oneHeld 0 nextTokens := by
  intro seq hseq _
  obtain rfl : seq = ⟨1, 3, 2, by decide⟩ := List.mem_singleton.mp hseq
  exact ⟨by decide, by decide, by decide⟩

/-- The failed call hands page 1 back although the request still holds it. -/
theorem oneHeld_rollback_frees_live_page :
    Reachable 2 oneHeld ∧ LiveBatch 2 oneHeld 0 nextTokens ∧
      ∃ t, oneHeld.allocExtend nextTokens 2 0 = .ok (t, none) ∧
        1 ∉ oneHeld.full.freeList 0 ∧ 1 ∈ t.full.freeList 0 ∧ ¬ Unchanged oneHeld t := by
  refine ⟨oneHeld_reachable, nextTokens_live, _, rfl, by decide, by decide, ?_⟩
  intro h
  exact absurd ((h.full 0 1).mp (by decide)) (by decide)

theorem oneHeld_unchanged_iff :
    (AtomicExtend oneHeld nextTokens 0 ↔
      ¬ (WindowRunsOut oneHeld 0 (PagedAllocator.newPages 2 nextTokens) ∧
        ∃ seq ∈ nextTokens, 0 < seq.extendLen ∧ seq.prefixLen % 2 ≠ 0)) ∧
    (AtomicDecode oneHeld [⟨2, 2, by decide⟩] 0 ↔
      ¬ (WindowRunsOut oneHeld 0 (PagedAllocator.newDecodePages 2 [⟨2, 2, by decide⟩]) ∧
        ∃ seq ∈ [(⟨2, 2, by decide⟩ : DecodeSeq)], (seq.seqLen - 1) % 2 ≠ 0)) := by
  refine failed_alloc_unchanged_iff oneHeld_reachable (by decide) nextTokens_live ?_
  intro seq hseq _
  obtain rfl : seq = ⟨1, 2, 2, by decide⟩ := List.mem_singleton.mp hseq
  exact ⟨by decide, by decide, by decide⟩

end SwaAllocator
end SglJax.MemCache
