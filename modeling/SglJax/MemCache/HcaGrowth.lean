import SglJax.MemCache.HcaRollback

/-! `ensure_compressed_capacity` checks in total per rank that the growth fits and then
grows one request after the other. After the check no request is left without pages. -/
namespace SglJax.MemCache.Hca

variable {pool : Pool} {reqs : Requests} {a : Allocator} {W C : Nat → Nat → List Nat} {r i : Nat}

/-- A slot of a live request. -/
def Allocator.Live (a : Allocator) (reqIndex : Nat) : Prop := ∃ r, a.reqPoolIdx r = some reqIndex

/-- A row of the batch that `grow` can follow. -/
structure Growth (pool : Pool) (a : Allocator) (row : Nat × Nat) : Prop where
  live : a.Live row.1
  aligned : pool.pageSize ∣ row.2
  bounded : row.2 ≤ pool.maxEntries

theorem neededByRank_cons (a : Allocator) (row : Nat × Nat) (rest : List (Nat × Nat))
    (rank : Nat) : a.neededByRank (row :: rest) rank =
      (if a.requestDpRanks row.1 = rank then row.2 - a.compressedCapacity row.1 else 0) +
        a.neededByRank rest rank := by
  simp [Allocator.neededByRank]

/-- What one request got is not needed again. -/
theorem neededByRank_le {compressedAllocator : PagedAllocator} {compressedSlots : Nat → List Nat}
    {newCapacity : Nat} (hle : a.compressedCapacity i ≤ newCapacity) (rows : List (Nat × Nat))
    (rank : Nat) : Allocator.neededByRank { a with
        compressedAllocator
        compressedSlots
        compressedCapacity := Function.update a.compressedCapacity i newCapacity } rows rank ≤
      a.neededByRank rows rank := by
  induction rows with
  | nil => exact le_rfl
  | cons row rows ih =>
    rw [neededByRank_cons, neededByRank_cons]
    apply Nat.add_le_add _ ih
    dsimp only
    split
    · by_cases hrow : row.1 = i
      · rw [hrow, Function.update_self]
        omega
      · rw [Function.update_of_ne hrow]
    · exact le_rfl

/-- One request grows by whole pages. -/
theorem CompressedOwned.extend (hslots : SlotsOwned pool reqs a)
    (h : CompressedOwned pool reqs ∅ a C) (hr : a.reqPoolIdx r = some i) {newCapacity : Nat}
    (hlt : a.compressedCapacity i < newCapacity) (haligned : pool.pageSize ∣ newCapacity)
    (hbounded : newCapacity ≤ pool.maxEntries)
    (hroom : newCapacity - a.compressedCapacity i ≤
      a.compressedAllocator.availableSize (reqs.rank r)) :
    ∃ compressedAllocator slots C',
      a.compressedAllocator.alloc (newCapacity - a.compressedCapacity i) (reqs.rank r) =
        .ok (compressedAllocator, some slots) ∧
      (compressedAllocator.availableSize (reqs.rank r) +
          (newCapacity - a.compressedCapacity i) =
        a.compressedAllocator.availableSize (reqs.rank r)) ∧
      (∀ other, other ≠ reqs.rank r → compressedAllocator.availableSize other =
        a.compressedAllocator.availableSize other) ∧
      CompressedOwned pool reqs ∅ { a with
        compressedAllocator
        compressedSlots := Function.update a.compressedSlots i
          ((a.compressedSlots i).take (a.compressedCapacity i) ++ slots ++
            (a.compressedSlots i).drop newCapacity)
        compressedCapacity := Function.update a.compressedCapacity i newCapacity } C' := by
  have hpage := h.tier.pageSize_pos
  obtain ⟨n, hn⟩ := Nat.dvd_sub haligned (h.aligned i)
  rw [Nat.mul_comm] at hn
  have hcount : n ≤ (a.compressedAllocator.freeList (reqs.rank r)).length := by
    rw [h.tier.availableSize_eq, hn] at hroom
    exact Nat.le_of_mul_le_mul_right hroom hpage
  obtain ⟨compressedAllocator, fresh, halloc, hlen, htier, hleft, hothers⟩ :=
    h.tier.alloc (hslots.lt hr) hcount
  have hsize : (fresh.flatMap (pageSlots pool.pageSize)).length =
      newCapacity - a.compressedCapacity i := by
    rw [length_flatMap_pageSlots, hlen, hn]
  have hrow := h.row i
  have hold : ((a.compressedSlots i).take (a.compressedCapacity i)).length =
      a.compressedCapacity i := by
    rw [List.length_take, hrow]
    omega
  have htake : ((a.compressedSlots i).take (a.compressedCapacity i) ++
      fresh.flatMap (pageSlots pool.pageSize) ++ (a.compressedSlots i).drop newCapacity).take
        newCapacity = (a.compressedSlots i).take (a.compressedCapacity i) ++
          fresh.flatMap (pageSlots pool.pageSize) := by
    apply List.take_left'
    rw [List.length_append, hold, hsize]
    omega
  refine ⟨compressedAllocator, _, _, by rw [hn]; exact halloc, ?_, ?_, htier, ?_, ?_, ?_, ?_, ?_,
    ?_⟩
  · rw [htier.availableSize_eq, h.tier.availableSize_eq, hn, ← hleft, Nat.add_mul]
  · intro other hne
    rw [htier.availableSize_eq, h.tier.availableSize_eq, hothers other hne]
  · intro j
    dsimp only
    by_cases hji : j = i
    · rw [hji, Function.update_self, List.length_append, List.length_append, hold, hsize,
        List.length_drop, hrow]
      omega
    · rw [Function.update_of_ne hji]
      exact h.row j
  · intro j
    dsimp only
    by_cases hji : j = i
    · rw [hji, Function.update_self]
      exact haligned
    · rw [Function.update_of_ne hji]
      exact h.aligned j
  · intro j
    dsimp only
    by_cases hji : j = i
    · rw [hji, Function.update_self]
      exact hbounded
    · rw [Function.update_of_ne hji]
      exact h.bounded j
  · intro q j hq
    dsimp only at hq ⊢
    by_cases hji : j = i
    · rw [hji] at hq ⊢
      rw [hslots.single hq hr, Function.update_self, Function.update_self, htake,
        PageTier.give_self]
      apply (h.laid r i hr).append hpage
      · rw [hold]
        exact Nat.mod_eq_zero_of_dvd (h.aligned i)
      · have hlaid : Laid pool.pageSize ((fresh.flatMap (pageSlots pool.pageSize)).take
            (newCapacity - a.compressedCapacity i)) fresh :=
          .of_take hpage (by rw [hn, pagesFor_mul hpage, hlen])
        rwa [← hsize, List.take_length] at hlaid
    · rw [Function.update_of_ne hji, Function.update_of_ne hji, PageTier.give_holder hji]
      exact h.laid q j hq
  · intro rank j hne
    by_cases hji : j = i
    · subst hji
      by_cases hrank : rank = reqs.rank r
      · exact ⟨r, hr, hrank.symm⟩
      · rw [PageTier.give_rank hrank] at hne
        exact h.only rank j hne
    · rw [PageTier.give_holder hji] at hne
      exact h.only rank j hne
  · intro j hne
    dsimp only at hne
    by_cases hji : j = i
    · exact ⟨r, Set.notMem_empty r, hji ▸ hr⟩
    · rw [Function.update_of_ne hji] at hne
      exact h.capacity j hne

/-- Only the compressed tier changed. -/
def Allocator.OnlyCompressed (a b : Allocator) : Prop :=
  b = { a with
    compressedAllocator := b.compressedAllocator
    compressedSlots := b.compressedSlots
    compressedCapacity := b.compressedCapacity }

theorem Allocator.OnlyCompressed.slots {b : Allocator} (h : a.OnlyCompressed b)
    (hslots : SlotsOwned pool reqs a) : SlotsOwned pool reqs b := by
  rw [show b = _ from h]
  exact ⟨hslots.request, hslots.recurrent, hslots.both, hslots.ranked⟩

theorem Allocator.OnlyCompressed.window {b : Allocator} (h : a.OnlyCompressed b)
    (hwindow : WindowOwned pool reqs ∅ a W) : WindowOwned pool reqs ∅ b W := by
  rw [show b = _ from h]
  exact ⟨hwindow.tier, hwindow.row, hwindow.rank, hwindow.laid, hwindow.only⟩

/-- Growth that fits in total goes through for every request. -/
theorem grow_owned {rows : List (Nat × Nat)} (hslots : SlotsOwned pool reqs a)
    (hwindow : WindowOwned pool reqs ∅ a W) (hcompressed : CompressedOwned pool reqs ∅ a C)
    (hrows : ∀ row ∈ rows, Growth pool a row)
    (hroom : ∀ rank < pool.dpSize,
      a.neededByRank rows rank ≤ a.compressedAllocator.availableSize rank) :
    ∃ b C', a.grow rows = (b, .ok ()) ∧ a.OnlyCompressed b ∧
      CompressedOwned pool reqs ∅ b C' := by
  induction rows generalizing a C with
  | nil => exact ⟨a, C, rfl, rfl, hcompressed⟩
  | cons row rows ih =>
    obtain ⟨reqIndex, newCapacity⟩ := row
    obtain ⟨⟨r, hr⟩, haligned, hbounded⟩ := hrows _ List.mem_cons_self
    have hrest : ∀ row ∈ rows, Growth pool a row :=
      fun row hrow => hrows row (List.mem_cons_of_mem _ hrow)
    unfold Allocator.grow
    dsimp only at hr haligned hbounded ⊢
    by_cases hle : newCapacity ≤ a.compressedCapacity reqIndex
    · rw [if_pos hle]
      apply ih hslots hwindow hcompressed hrest
      intro rank hrank
      have := hroom rank hrank
      rw [neededByRank_cons] at this
      omega
    rw [if_neg hle, hwindow.rank r reqIndex hr (Set.notMem_empty r)]
    have hown := hroom (reqs.rank r) (hslots.ranked r (by rw [hr]; rfl))
    rw [neededByRank_cons, if_pos (hwindow.rank r reqIndex hr (Set.notMem_empty r))] at hown
    dsimp only at hown
    obtain ⟨compressedAllocator, slots, C', halloc, hleft, hothers, hextended⟩ :=
      hcompressed.extend hslots hr (Nat.lt_of_not_le hle) haligned hbounded (by omega)
    rw [halloc]
    dsimp only
    set b : Allocator := { a with
      compressedAllocator
      compressedSlots := Function.update a.compressedSlots reqIndex
        ((a.compressedSlots reqIndex).take (a.compressedCapacity reqIndex) ++ slots ++
          (a.compressedSlots reqIndex).drop newCapacity)
      compressedCapacity := Function.update a.compressedCapacity reqIndex newCapacity } with hb
    have hstep : a.OnlyCompressed b := rfl
    have hneeded (rank : Nat) : b.neededByRank rows rank ≤ a.neededByRank rows rank :=
      neededByRank_le (Nat.le_of_not_le hle) rows rank
    obtain ⟨c, C'', hgrow, honly, howned⟩ := ih (hstep.slots hslots) (hstep.window hwindow)
      hextended (fun row hrow => ⟨(hrest row hrow).live, (hrest row hrow).aligned,
        (hrest row hrow).bounded⟩) (by
      intro rank hrank
      apply (hneeded rank).trans
      change _ ≤ compressedAllocator.availableSize rank
      by_cases hsame : rank = reqs.rank r
      · rw [hsame]
        omega
      · rw [hothers rank hsame]
        have := hroom rank hrank
        rw [neededByRank_cons] at this
        omega)
    refine ⟨c, C'', hgrow, ?_, howned⟩
    unfold Allocator.OnlyCompressed at honly ⊢
    rw [honly]

theorem align_le {value entries pageSize : Nat} (hpage : 0 < pageSize)
    (hle : value ≤ align entries pageSize) : align value pageSize ≤ align entries pageSize := by
  change pagesFor pageSize value * pageSize ≤ pagesFor pageSize entries * pageSize
  change value ≤ pagesFor pageSize entries * pageSize at hle
  have hmono := pagesFor_mono hpage hle
  rw [pagesFor_mul hpage] at hmono
  exact Nat.mul_le_mul_right _ hmono

/-- The batch names live requests where its lengths are positive. -/
def Allocator.LiveRows (a : Allocator) (reqPoolIndices seqLens : List Int) : Prop :=
  ∀ row ∈ reqPoolIndices.zip seqLens, 0 < row.2 → 0 ≤ row.1 → a.Live row.1.toNat

theorem checkBatch_ok {reqPoolIndices seqLens : List Int}
    (h : Allocator.checkBatch pool reqPoolIndices seqLens = .ok ()) :
    reqPoolIndices.length = seqLens.length ∧ (∀ n ∈ seqLens, 0 ≤ n) ∧
      ∀ row ∈ reqPoolIndices.zip seqLens, 0 < row.2 → 0 ≤ row.1 ∧ row.1 < pool.maxNumRequests := by
  unfold Allocator.checkBatch at h
  split at h
  · cases h
  rename_i hlen
  split at h
  · cases h
  rename_i hneg
  split at h
  · cases h
  rename_i hslot
  refine ⟨not_not.mp hlen, ?_, ?_⟩
  · intro n hn
    by_contra hlt
    exact hneg (List.any_eq_true.mpr ⟨n, hn, decide_eq_true (by omega)⟩)
  · intro row hrow hpos
    by_contra hout
    exact hslot (List.any_eq_true.mpr ⟨row, hrow, decide_eq_true ⟨hpos, by omega⟩⟩)

/-- All requests of the batch grow, or nothing changes. -/
theorem ensureCompressedCapacity_owned (h : Owned pool reqs a) {reqPoolIndices seqLens : List Int}
    (hlive : a.LiveRows reqPoolIndices seqLens) :
    Owned pool reqs (a.ensureCompressedCapacity pool reqPoolIndices seqLens).1 ∧
      ((a.ensureCompressedCapacity pool reqPoolIndices seqLens).2 = .ok () ∨
        (a.ensureCompressedCapacity pool reqPoolIndices seqLens).1 = a) := by
  obtain ⟨hslots, ⟨W, hwindow⟩, ⟨C, hcompressed⟩⟩ := id h
  have hpage := hwindow.tier.pageSize_pos
  unfold Allocator.ensureCompressedCapacity
  cases hcheck : Allocator.checkBatch pool reqPoolIndices seqLens with
  | error raised => exact ⟨h, .inr rfl⟩
  | ok =>
    dsimp only
    split
    · exact ⟨h, .inr rfl⟩
    rename_i hlong
    set rows := (Allocator.desired pool reqPoolIndices seqLens).map fun row =>
      (row.1, if row.2 ≠ 0 then align row.2 pool.pageSize else 0) with hdef
    split
    · exact ⟨h, .inr rfl⟩
    rename_i hfind
    have hrows : ∀ row ∈ rows, Growth pool a row := by
      intro row hrow
      obtain ⟨⟨reqIndex, value⟩, hdesired, rfl⟩ := List.mem_map.mp hrow
      have hbounded : value ≤ pool.maxEntries := by
        by_contra hlt
        exact hlong (List.any_eq_true.mpr ⟨_, hdesired, decide_eq_true (Nat.lt_of_not_le hlt)⟩)
      obtain ⟨entry, hentry, heq⟩ := List.mem_map.mp hdesired
      obtain ⟨hmem, hpos⟩ := List.mem_filter.mp hentry
      have hpos : 0 < entry.2 := of_decide_eq_true hpos
      have hslot := hlive entry hmem hpos ((checkBatch_ok hcheck).2.2 entry hmem hpos).1
      rw [Prod.mk.injEq] at heq
      refine ⟨heq.1 ▸ hslot, ?_, ?_⟩
      · dsimp only
        split
        · exact Nat.dvd_mul_left _ _
        · exact Nat.dvd_zero _
      · dsimp only
        split
        · exact align_le hpage hbounded
        · exact Nat.zero_le _
    have hroom : ∀ rank < pool.dpSize,
        a.neededByRank rows rank ≤ a.compressedAllocator.availableSize rank := by
      intro rank hrank
      have hfits := List.find?_eq_none.mp hfind rank (List.mem_range.mpr hrank)
      exact Nat.le_of_not_lt fun hlt => hfits (decide_eq_true hlt)
    obtain ⟨b, C', hgrow, honly, howned⟩ := grow_owned hslots hwindow hcompressed hrows hroom
    rw [hgrow]
    exact ⟨⟨honly.slots hslots, ⟨W, honly.window hwindow⟩, ⟨C', howned⟩⟩, .inl rfl⟩

end SglJax.MemCache.Hca
