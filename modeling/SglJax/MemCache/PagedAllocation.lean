import SglJax.MemCache.PageLayout

/-! What a batch gets from the paged allocator, sequence by sequence. -/
namespace SglJax.MemCache

/-- `last_loc` is the slot of the last token, or `-1`, at the offset that the
length gives. -/
structure ExtendSeq.Consistent (pageSize : Nat) (seq : ExtendSeq) : Prop where
  lastLoc_ge : -1 ≤ seq.lastLoc
  offset : (seq.lastLoc + 1) % pageSize = (seq.prefixLen : Int) % pageSize

/-- Within a page the slots of a row count up. -/
def Contiguous (pageSize : Nat) (row : List Nat) : Prop :=
  ∀ p j first slot, j < pageSize → row[p * pageSize]? = some first →
    row[p * pageSize + j]? = some slot → slot = first + j

/-- A page beyond the row has no slots, so only the pages of the row are looked at. -/
theorem contiguous_iff {pageSize : Nat} {row : List Nat} : Contiguous pageSize row ↔
    ∀ p < row.length, ∀ j < pageSize, ∀ first ∈ row[p * pageSize]?,
      ∀ slot ∈ row[p * pageSize + j]?, slot = first + j := by
  refine ⟨fun h p _ j hj first hfirst slot => h p j first slot hj hfirst, ?_⟩
  intro h p j first slot hj hfirst hslot
  have hplace := (List.getElem?_eq_some_iff.mp hfirst).1
  have hp : p ≤ p * pageSize := Nat.le_mul_of_pos_right p (Nat.zero_lt_of_lt hj)
  exact h p (hp.trans_lt hplace) j hj first hfirst slot hslot

instance (pageSize : Nat) (row : List Nat) : Decidable (Contiguous pageSize row) :=
  decidable_of_iff _ contiguous_iff.symm

/-- A sequence with the new pages and the indices it gets. -/
structure Grant where
  seq : ExtendSeq
  pages : List Nat
  indices : List Nat

/-- The pages are as many as the lengths ask for, every token has an index, and
the row of the sequence can go on with them. -/
structure Grant.Exact (pageSize : Nat) (g : Grant) : Prop where
  count : g.pages.length = pagesFor pageSize g.seq.seqLen - pagesFor pageSize g.seq.prefixLen
  filled : g.indices.length = g.seq.extendLen
  inside : ∀ slot ∈ g.indices, slot / pageSize ∈ g.pages ∨
    ∃ loc : Nat, g.seq.lastLoc = loc ∧ slot / pageSize = loc / pageSize
  contiguous : ∀ row : List Nat, row.length = g.seq.prefixLen →
    (∀ slot, row.getLast? = some slot → g.seq.lastLoc = slot) → Contiguous pageSize row →
    Contiguous pageSize (row ++ g.indices)

/-- A batch got the indices `out` from the pages that `b` lacks. -/
structure GivesExactly (a b : PagedAllocator) (dpRank : Nat) (batch : List ExtendSeq)
    (out : List Nat) (given : List Grant) : Prop where
  seqs : given.map Grant.seq = batch
  indices : given.flatMap Grant.indices = out
  exact : ∀ g ∈ given, g.Exact a.pageSize
  consumed : (a.freeList dpRank).Perm (given.flatMap Grant.pages ++ b.freeList dpRank)
  count : (given.flatMap Grant.pages).length = (batch.map fun seq =>
    pagesFor a.pageSize seq.seqLen - pagesFor a.pageSize seq.prefixLen).sum
  other : ∀ rank, rank ≠ dpRank → b.freeList rank = a.freeList rank
  distinct : (a.freeList dpRank).Nodup → given.Pairwise fun g h => g.pages.Disjoint h.pages

section Sequence

variable {pageSize : Nat} {seq : ExtendSeq} {pages : List Nat}

/-- A slot of a sequence comes after its last one, or stands in a new page. -/
theorem slots_getElem? (hpage : 0 < pageSize) {k slot : Nat}
    (hslot : (seq.slots pageSize pages)[k]? = some slot) :
    (k < seq.part1Size pageSize ∧ slot = (seq.lastLoc + 1 + k).toNat) ∨
    (seq.part1Size pageSize ≤ k ∧ k < seq.extendLen ∧ ∃ page,
      pages[(k - seq.part1Size pageSize) / pageSize]? = some page ∧
      slot = page * pageSize + (k - seq.part1Size pageSize) % pageSize) := by
  have hle : seq.part1Size pageSize ≤ seq.extendLen := seq.part1Size_le
  rw [ExtendSeq.slots] at hslot
  rcases Nat.lt_or_ge k (seq.part1Size pageSize) with hlt | hge
  · left
    rw [List.getElem?_append_left (by simpa using hlt), ExtendSeq.part1, List.getElem?_map,
      List.getElem?_range hlt, Option.map_some] at hslot
    exact ⟨hlt, (Option.some.inj hslot).symm⟩
  · right
    rw [List.getElem?_append_right (by simpa using hge), ExtendSeq.length_part1,
      List.getElem?_take] at hslot
    split at hslot
    · rw [getElem?_flatMap_pageSlots hpage, Option.map_eq_some_iff] at hslot
      obtain ⟨page, hget, rfl⟩ := hslot
      exact ⟨hge, by omega, page, hget, rfl⟩
    · cases hslot

/-- Only a sequence inside a page goes on after its last slot. -/
theorem ExtendSeq.Consistent.lastLoc_eq (h : seq.Consistent pageSize) (hpage : 0 < pageSize)
    (hpart : 0 < seq.part1Size pageSize) :
    ∃ loc : Nat, seq.lastLoc = loc ∧ (loc + 1) % pageSize = seq.prefixLen % pageSize := by
  have hmod := ((seq.part1Size_pos_iff hpage).mp hpart).2
  obtain ⟨loc, hloc⟩ : ∃ loc : Nat, seq.lastLoc = loc := by
    refine ⟨seq.lastLoc.toNat, ?_⟩
    have hge := h.lastLoc_ge
    have hoffset := h.offset
    rw [Int.toNat_of_nonneg]
    by_contra hneg
    have hlast : seq.lastLoc = -1 := by omega
    rw [hlast, show (-1 : Int) + 1 = 0 from rfl, Int.zero_emod] at hoffset
    exact hmod (by exact_mod_cast hoffset.symm)
  refine ⟨loc, hloc, ?_⟩
  have hoffset := h.offset
  rw [hloc] at hoffset
  exact_mod_cast hoffset

theorem slots_inside (h : seq.Consistent pageSize) (hpage : 0 < pageSize) {slot : Nat}
    (hslot : slot ∈ seq.slots pageSize pages) : slot / pageSize ∈ pages ∨
      ∃ loc : Nat, seq.lastLoc = loc ∧ slot / pageSize = loc / pageSize := by
  rw [ExtendSeq.slots] at hslot
  rcases List.mem_append.mp hslot with hslot | hslot
  · right
    have hpart : 0 < seq.part1Size pageSize := by
      rw [← ExtendSeq.length_part1]
      exact List.length_pos_of_mem hslot
    obtain ⟨loc, hloc, hoffset⟩ := h.lastLoc_eq hpage hpart
    exact ⟨loc, hloc, ((seq.touches_part1 hpage hloc hoffset).mp ⟨slot, hslot, rfl⟩).2⟩
  · left
    obtain ⟨page, hmem, hslot⟩ := List.mem_flatMap.mp (List.mem_of_mem_take hslot)
    rw [div_of_mem_pageStart le_rfl hslot]
    exact hmem

/-- A row goes on within its last page, then in pages of its own. -/
theorem contiguous_append (hpage : 0 < pageSize) {row : List Nat}
    (hlen : row.length = seq.prefixLen)
    (hlast : ∀ slot, row.getLast? = some slot → seq.lastLoc = slot)
    (hrow : Contiguous pageSize row) :
    Contiguous pageSize (row ++ seq.slots pageSize pages) := by
  intro p j first slot hj hfirst hslot
  have hcap := le_pagesFor_mul hpage seq.prefixLen
  have hpart : seq.part1Size pageSize = min seq.extendLen
    (pagesFor pageSize seq.prefixLen * pageSize - seq.prefixLen) := rfl
  rcases Nat.lt_or_ge (p * pageSize) row.length with hstart | hstart
  · rw [List.getElem?_append_left hstart] at hfirst
    rcases Nat.lt_or_ge (p * pageSize + j) row.length with hend | hend
    · rw [List.getElem?_append_left hend] at hslot
      exact hrow p j first slot hj hfirst hslot
    · -- The page that the row ends in: the new slots count on from the last one.
      rw [List.getElem?_append_right hend] at hslot
      have hlt := (lt_pagesFor_iff hpage).mpr (hlen ▸ hstart)
      have hpages := Nat.mul_le_mul_right pageSize (Nat.succ_le_of_lt hlt)
      rw [Nat.succ_mul] at hpages
      have hpos : row.length - 1 < row.length := by omega
      obtain ⟨final, hfinal⟩ : ∃ final, row[row.length - 1]? = some final :=
        ⟨_, List.getElem?_eq_getElem hpos⟩
      have hloc := hlast final (by rw [List.getLast?_eq_getElem?, hfinal])
      have hcount := hrow p (row.length - 1 - p * pageSize) first final (by omega) hfirst (by
        rw [Nat.add_sub_cancel' (by omega), hfinal])
      rcases slots_getElem? hpage hslot with ⟨-, rfl⟩ | ⟨hge, hlong, -⟩
      · rw [hloc]
        omega
      · omega
  · rw [List.getElem?_append_right hstart] at hfirst
    rw [List.getElem?_append_right (by omega)] at hslot
    have hle : pagesFor pageSize seq.prefixLen ≤ p := by
      by_contra hnot
      have := (lt_pagesFor_iff hpage).mp (Nat.lt_of_not_le hnot)
      omega
    have hmul := Nat.mul_le_mul_right pageSize hle
    obtain ⟨d, rfl⟩ := Nat.exists_eq_add_of_le hle
    rw [Nat.add_mul] at hmul hstart hfirst hslot
    rcases slots_getElem? hpage hfirst with ⟨hlt, -⟩ | ⟨hge, hlong, page, hget, rfl⟩
    · omega
    · have hbase : pagesFor pageSize seq.prefixLen * pageSize + d * pageSize - row.length -
          seq.part1Size pageSize = d * pageSize := by omega
      rcases slots_getElem? hpage hslot with ⟨hlt, -⟩ | ⟨-, -, other, hother, rfl⟩
      · omega
      · have hplace : pagesFor pageSize seq.prefixLen * pageSize + d * pageSize + j - row.length -
            seq.part1Size pageSize = d * pageSize + j := by omega
        rw [hbase, Nat.mul_div_cancel _ hpage] at hget
        rw [hplace, Nat.mul_comm, Nat.mul_add_div hpage, Nat.div_eq_of_lt hj, Nat.add_zero,
          hget] at hother
        cases hother
        have hoffset : (d * pageSize + j) % pageSize = j := by
          rw [Nat.mul_comm, Nat.mul_add_mod, Nat.mod_eq_of_lt hj]
        rw [hbase, hplace, Nat.mul_mod_left, hoffset, Nat.add_zero]

theorem grant_exact (h : seq.Consistent pageSize) (hpage : 0 < pageSize)
    (hcount : pages.length = seq.newPages pageSize) :
    (Grant.mk seq pages (seq.slots pageSize pages)).Exact pageSize where
  count := hcount
  filled := length_slots hpage seq hcount
  inside := fun _ hslot => slots_inside h hpage hslot
  contiguous := fun _ hlen hlast hrow => contiguous_append hpage hlen hlast hrow

end Sequence

section Batch

variable {pageSize : Nat}

theorem PagedAllocator.freeList_reserve_of_ne (a : PagedAllocator) (pages : Nat)
    {dpRank other : Nat} (h : other ≠ dpRank) :
    (a.reserve pages dpRank).freeList other = a.freeList other := by
  unfold reserve mergeAndSortFree freeList
  split
  · split
    · simp [Function.update_of_ne h]
    · rfl
  · rfl

open PagedAllocator (newPages)

/-- The sequences take their pages off the front one after the other. -/
theorem batchSlots_given (hpage : 0 < pageSize) {batch : List ExtendSeq}
    (hbatch : ∀ seq ∈ batch, seq.Consistent pageSize) {pages : List Nat}
    (hcount : pages.length = newPages pageSize batch) :
    ∃ given : List Grant, given.map Grant.seq = batch ∧
      given.flatMap Grant.indices = batchSlots pageSize batch pages ∧
      given.flatMap Grant.pages = pages ∧ ∀ g ∈ given, g.Exact pageSize := by
  induction batch generalizing pages with
  | nil => exact ⟨[], rfl, rfl, (List.length_eq_zero_iff.mp hcount).symm, by simp⟩
  | cons seq rest ih =>
    rw [newPages_cons] at hcount
    have htaken : (pages.take (seq.newPages pageSize)).length = seq.newPages pageSize := by
      rw [List.length_take]
      omega
    have hleft : (pages.drop (seq.newPages pageSize)).length = newPages pageSize rest := by
      rw [List.length_drop]
      omega
    obtain ⟨given, hseqs, hout, hpages, hexact⟩ :=
      ih (fun other hother => hbatch other (List.mem_cons_of_mem _ hother)) hleft
    have hfirst := grant_exact (hbatch seq List.mem_cons_self) hpage htaken
    refine ⟨_ :: given, ?_, ?_, ?_, List.forall_mem_cons.mpr ⟨hfirst, hexact⟩⟩
    · rw [List.map_cons, hseqs]
    · rw [List.flatMap_cons, hout, batchSlots]
    · rw [List.flatMap_cons, hpages, List.take_append_drop]

/-- A batch that gets anything gets it exactly. -/
theorem allocExtend_gives {a b : PagedAllocator} (hpage : 0 < a.pageSize) {dpRank : Nat}
    {batch : List ExtendSeq} (hbatch : ∀ seq ∈ batch, seq.Consistent a.pageSize) {out : List Nat}
    (h : a.allocExtend batch (batch.map ExtendSeq.extendLen).sum dpRank = .ok (b, some out)) :
    ∃ given, GivesExactly a b dpRank batch out given := by
  rcases a.allocExtend_cases dpRank hpage batch with ⟨-, heq⟩ | ⟨-, hroom, heq⟩
  · rw [heq] at h
    cases h
  · rw [heq] at h
    cases h
    have hlen : (((a.reserve (newPages a.pageSize batch) dpRank).freePages dpRank).take
        (newPages a.pageSize batch)).length = newPages a.pageSize batch := by
      rw [List.length_take, Nat.min_eq_left hroom]
    obtain ⟨given, hseqs, hout, hpages, hexact⟩ := batchSlots_given hpage hbatch hlen
    have hconsumed : (a.freeList dpRank).Perm (given.flatMap Grant.pages ++
        ((a.reserve (newPages a.pageSize batch) dpRank).dropFree
          (newPages a.pageSize batch) dpRank).freeList dpRank) := by
      rw [hpages, ← PagedAllocator.freeList_dropFree]
      exact (a.freeList_reserve dpRank _ dpRank).symm
    refine ⟨given, hseqs, hout, hexact, hconsumed, ?_, ?_, ?_⟩
    · rw [hpages, hlen]
      rfl
    · intro rank hrank
      rw [PagedAllocator.freeList_dropFree_of_ne _ _ _ hrank,
        PagedAllocator.freeList_reserve_of_ne _ _ hrank]
    · intro hnodup
      have hgiven := (List.nodup_append.mp (hconsumed.nodup_iff.mp hnodup)).1
      exact (List.nodup_flatMap.mp hgiven).2

/-- Extending and decoding give a batch exactly the pages that its lengths ask for,
and decoding is extending by one token. -/
theorem paged_alloc_exact (a : PagedAllocator) (hpage : 0 < a.pageSize) (dpRank : Nat) :
    (∀ batch : List ExtendSeq, (∀ seq ∈ batch, seq.Consistent a.pageSize) → ∀ b out,
      a.allocExtend batch (batch.map ExtendSeq.extendLen).sum dpRank = .ok (b, some out) →
      ∃ given, GivesExactly a b dpRank batch out given) ∧
    (∀ batch : List DecodeSeq, (∀ seq ∈ batch, seq.toExtend.Consistent a.pageSize) → ∀ b out,
      a.allocDecode batch dpRank = .ok (b, some out) →
      ∃ given, GivesExactly a b dpRank (batch.map DecodeSeq.toExtend) out given) ∧
    ∀ batch : List DecodeSeq,
      a.allocExtend (batch.map DecodeSeq.toExtend) batch.length dpRank =
        a.allocDecode batch dpRank := by
  have hone (batch : List DecodeSeq) :
      ((batch.map DecodeSeq.toExtend).map ExtendSeq.extendLen).sum = batch.length := by
    induction batch with
    | nil => rfl
    | cons seq rest ih =>
      rw [List.map_cons, List.map_cons, List.sum_cons, ih, DecodeSeq.extendLen_toExtend,
        List.length_cons, Nat.add_comm]
  refine ⟨fun batch hbatch b out h => allocExtend_gives hpage hbatch h, ?_, ?_⟩
  · intro batch hbatch b out h
    rw [a.allocDecode_eq dpRank hpage] at h
    refine allocExtend_gives hpage ?_ h
    intro seq hseq
    obtain ⟨decode, hdecode, rfl⟩ := List.mem_map.mp hseq
    exact hbatch decode hdecode
  · intro batch
    rw [a.allocDecode_eq dpRank hpage, hone]

/-- Four pages of four slots. -/
def fourPages : PagedAllocator := .init 16 4 1

/-- A sequence that has two slots of a page goes on in it and takes one more. -/
theorem fourPages_exact : ∃ b given,
    fourPages.allocExtend [⟨2, 7, 21, by decide⟩] 5 0 = .ok (b, some [22, 23, 4, 5, 6]) ∧
    GivesExactly fourPages b 0 [⟨2, 7, 21, by decide⟩] [22, 23, 4, 5, 6] given := by
  have hconsistent : ∀ seq ∈ [(⟨2, 7, 21, by decide⟩ : ExtendSeq)],
      seq.Consistent fourPages.pageSize := by
    intro seq hseq
    rw [List.mem_singleton.mp hseq]
    exact ⟨by decide, by decide⟩
  obtain ⟨given, hgiven⟩ :=
    (paged_alloc_exact fourPages (by decide) 0).1 _ hconsistent _ [22, 23, 4, 5, 6] rfl
  exact ⟨_, given, rfl, hgiven⟩

end Batch
end SglJax.MemCache
