import SglJax.Foundation.Results
import SglJax.MemCache.HcaRuns

/-! The page tables of a batch list the pages of its requests, and a window of
consecutive positions has a slot for each of them. -/
namespace SglJax.MemCache.Hca

variable {pool : Pool} {reqs : Requests} {a : Allocator} {W C : Nat → Nat → List Nat} {r i : Nat}

/-! ### Rows of a table -/

/-- The pages between two starts of a table. -/
def rowOf (pageSize : Nat) (pages cu : List Nat) (k : Nat) : List Nat :=
  (pages.drop (cu.getD k 0 / pageSize)).take ((cu.getD (k + 1) 0 - cu.getD k 0) / pageSize)

theorem cumulative_zero (start : Nat) (sizes : List Nat) :
    (Allocator.cumulative start sizes)[0]? = some start := by
  cases sizes <;> rfl

theorem cumulative_flatten (pageSize : Nat) {rows : List (List Nat)} {row : List Nat} {k : Nat}
    (hk : rows[k]? = some row) (start : Nat) :
    ∃ d, (Allocator.cumulative start (rows.map fun row => row.length * pageSize))[k]? =
        some (start + d * pageSize) ∧
      (Allocator.cumulative start (rows.map fun row => row.length * pageSize))[k + 1]? =
        some (start + (d + row.length) * pageSize) ∧
      (rows.flatten.drop d).take row.length = row := by
  induction rows generalizing start k with
  | nil => cases hk
  | cons first rows ih =>
    rw [List.map_cons, Allocator.cumulative, List.getElem?_cons_succ]
    cases k with
    | zero =>
      rw [List.getElem?_cons_zero, Option.some.injEq] at hk
      subst hk
      refine ⟨0, ?_, ?_, ?_⟩
      · rw [List.getElem?_cons_zero, Nat.zero_mul, Nat.add_zero]
      · rw [cumulative_zero, Nat.zero_add]
      · rw [List.drop_zero, List.flatten_cons, List.take_left]
    | succ k =>
      rw [List.getElem?_cons_succ] at hk ⊢
      obtain ⟨d, hstart, hend, hrow⟩ := ih hk (start + first.length * pageSize)
      refine ⟨first.length + d, ?_, ?_, ?_⟩
      · rw [hstart, Nat.add_mul, Nat.add_assoc]
      · rw [hend, Nat.add_assoc first.length, Nat.add_mul first.length, Nat.add_assoc start]
      · rw [List.flatten_cons, ← List.drop_drop, List.drop_left, hrow]

theorem rowOf_flatten {pageSize : Nat} (hpage : 0 < pageSize) {rows : List (List Nat)}
    {row : List Nat} {k : Nat} (hk : rows[k]? = some row) :
    rowOf pageSize rows.flatten
      (Allocator.cumulative 0 (rows.map fun row => row.length * pageSize)) k = row := by
  obtain ⟨d, hstart, hend, hrow⟩ := cumulative_flatten pageSize hk 0
  rw [Nat.zero_add] at hstart hend
  rw [rowOf, List.getD_eq_getElem?_getD, List.getD_eq_getElem?_getD, hstart, hend,
    Option.getD_some, Option.getD_some, Nat.mul_div_cancel _ hpage, Nat.add_mul,
    Nat.add_sub_cancel_left, Nat.mul_div_cancel _ hpage, hrow]

theorem map_length_zipWith {ι : Type} {f : ι → Nat → List Nat} {size : Nat → Nat} {pageSize : Nat}
    {idx : List ι} {lens : List Nat} (hlen : idx.length = lens.length)
    (h : ∀ (k : Nat) i n, idx[k]? = some i → lens[k]? = some n → (f i n).length = size n) :
    ((List.zipWith f idx lens).map fun row => row.length * pageSize) =
      lens.map fun n => size n * pageSize := by
  apply List.ext_getElem?
  intro k
  rw [List.getElem?_map, List.getElem?_map, List.getElem?_zipWith]
  rcases Nat.lt_or_ge k lens.length with hlt | hge
  · have hidx := List.getElem?_eq_getElem (hlen ▸ hlt : k < idx.length)
    have hlens := List.getElem?_eq_getElem hlt
    rw [hidx, hlens]
    simp [h k _ _ hidx hlens]
  · rw [List.getElem?_eq_none hge, List.getElem?_eq_none (hlen ▸ hge)]
    rfl

/-! ### Pages of a request -/

/-- A live request of the rank has the page in its window. -/
def Allocator.HoldsWindow (pool : Pool) (reqs : Requests) (a : Allocator) (rank r page : Nat) :
    Prop :=
  reqs.rank r = rank ∧ ∃ i, a.reqPoolIdx r = some i ∧
    Touches pool.pageSize (a.windowSlots i) page

/-- A live request of the rank has the page under its compressed capacity. -/
def Allocator.HoldsCompressed (pool : Pool) (reqs : Requests) (a : Allocator)
    (rank r page : Nat) : Prop :=
  reqs.rank r = rank ∧ ∃ i, a.reqPoolIdx r = some i ∧
    Touches pool.pageSize ((a.compressedSlots i).take (a.compressedCapacity i)) page

theorem holdsWindow_iff (h : WindowOwned pool reqs ∅ a W) (hslots : SlotsOwned pool reqs a)
    {rank page : Nat} : a.HoldsWindow pool reqs rank r page ↔
      ∃ i < pool.maxNumRequests, reqs.onRank rank a.reqPoolIdx r = some i ∧
        page ∈ W rank i := by
  constructor
  · rintro ⟨rfl, i, hr, htouch⟩
    rw [Requests.onRank, if_pos rfl]
    exact ⟨i, hslots.lt hr, hr,
      ((h.laid r i hr (Set.notMem_empty r)).touches h.tier.pageSize_pos).mp htouch⟩
  · rintro ⟨i, -, hr, hmem⟩
    unfold Requests.onRank at hr
    split at hr
    · rename_i hrank
      subst hrank
      exact ⟨rfl, i, hr,
        ((h.laid r i hr (Set.notMem_empty r)).touches h.tier.pageSize_pos).mpr hmem⟩
    · cases hr

theorem holdsCompressed_iff (h : CompressedOwned pool reqs ∅ a C)
    (hslots : SlotsOwned pool reqs a) {rank page : Nat} :
    a.HoldsCompressed pool reqs rank r page ↔
      ∃ i < pool.maxNumRequests, reqs.onRank rank a.reqPoolIdx r = some i ∧
        page ∈ C rank i := by
  constructor
  · rintro ⟨rfl, i, hr, htouch⟩
    rw [Requests.onRank, if_pos rfl]
    exact ⟨i, hslots.lt hr, hr, ((h.laid r i hr).touches h.tier.pageSize_pos).mp htouch⟩
  · rintro ⟨i, -, hr, hmem⟩
    unfold Requests.onRank at hr
    split at hr
    · rename_i hrank
      subst hrank
      exact ⟨rfl, i, hr, ((h.laid r i hr).touches h.tier.pageSize_pos).mpr hmem⟩
    · cases hr

theorem onRank_single (hslots : SlotsOwned pool reqs a) (rank : Nat) (r r' i : Nat)
    (hr : reqs.onRank rank a.reqPoolIdx r = some i)
    (hr' : reqs.onRank rank a.reqPoolIdx r' = some i) : r = r' := by
  unfold Requests.onRank at hr hr'
  split at hr
  · split at hr'
    · exact hslots.single hr hr'
    · cases hr'
  · cases hr

/-- A window page of a rank is free or in the window of one live request of that rank. -/
theorem window_owner (h : WindowOwned pool reqs ∅ a W) (hslots : SlotsOwned pool reqs a)
    {rank page : Nat} (hpage : page ∈ List.range' 1 pool.windowPagesPerRank) :
    ∃! r : Option Nat, r.elim (page ∈ a.windowAllocator.freeList rank) fun r =>
      a.HoldsWindow pool reqs rank r page := by
  refine (h.tier.ledger rank).existsUnique (reqs.onRank rank a.reqPoolIdx)
    (a.HoldsWindow pool reqs rank) (fun r page => holdsWindow_iff h hslots) ?_
    (onRank_single hslots rank) hpage
  intro i page hmem
  obtain ⟨r, -, hr, rfl⟩ := h.only rank i (List.ne_nil_of_mem hmem)
  exact ⟨r, by rw [Requests.onRank, if_pos rfl, hr]⟩

theorem compressed_owner (h : CompressedOwned pool reqs ∅ a C) (hslots : SlotsOwned pool reqs a)
    {rank page : Nat} (hpage : page ∈ List.range' 1 pool.compressedPagesPerRank) :
    ∃! r : Option Nat, r.elim (page ∈ a.compressedAllocator.freeList rank) fun r =>
      a.HoldsCompressed pool reqs rank r page := by
  refine (h.tier.ledger rank).existsUnique (reqs.onRank rank a.reqPoolIdx)
    (a.HoldsCompressed pool reqs rank) (fun r page => holdsCompressed_iff h hslots) ?_
    (onRank_single hslots rank) hpage
  intro i page hmem
  obtain ⟨r, hr, rfl⟩ := h.only rank i (List.ne_nil_of_mem hmem)
  exact ⟨r, by rw [Requests.onRank, if_pos rfl, hr]⟩

/-! ### The ring of a window -/

/-- The slot of a position under the pages of a row. -/
def slotAt (pageSize : Nat) (row : List Nat) (position : Nat) : Nat :=
  row.getD (position / pageSize) 0 * pageSize + position % pageSize

/-- Positions less than a ring apart have slots of their own. -/
theorem ring_distinct {pageSize n : Nat} {pages : List Nat} (hpage : 0 < pageSize)
    (hnodup : pages.Nodup) {p q : Nat} (hpq : p < q) (hnear : q < p + pages.length * pageSize)
    (hq : q < n * pageSize) :
    slotAt pageSize ((List.range n).map fun k => pages.getD (k % pages.length) 0) p ≠
      slotAt pageSize ((List.range n).map fun k => pages.getD (k % pages.length) 0) q := by
  have hring : 0 < pages.length := by
    by_contra hnone
    rw [Nat.eq_zero_of_not_pos hnone, Nat.zero_mul] at hnear
    omega
  have hat {x : Nat} (hx : x < n * pageSize) :
      ((List.range n).map fun k => pages.getD (k % pages.length) 0).getD (x / pageSize) 0 =
        pages.get ⟨x / pageSize % pages.length, Nat.mod_lt _ hring⟩ := by
    have hdiv : x / pageSize < n := Nat.div_lt_of_lt_mul (by rwa [Nat.mul_comm])
    have hmod := Nat.mod_lt (x / pageSize) hring
    rw [List.getD_eq_getElem?_getD, List.getElem?_map, List.getElem?_range hdiv, Option.map_some,
      Option.getD_some, List.getD_eq_getElem?_getD, List.getElem?_eq_getElem hmod,
      Option.getD_some, List.get_eq_getElem]
  intro heq
  unfold slotAt at heq
  rw [hat (hpq.trans hq), hat hq] at heq
  -- Equal slots are at equal offsets of equal pages.
  have hoffset : p % pageSize = q % pageSize := by
    have hmod := congrArg (· % pageSize) heq
    simpa [Nat.mul_add_mod_self_right, Nat.mod_eq_of_lt, Nat.mod_lt _ hpage] using hmod
  have hsame : p / pageSize % pages.length = q / pageSize % pages.length := by
    rw [hoffset] at heq
    have hpages := Nat.eq_of_mul_eq_mul_right hpage (Nat.add_right_cancel heq)
    exact congrArg Fin.val (hnodup.injective_get hpages)
  have hp := Nat.div_add_mod p pageSize
  have hq' := Nat.div_add_mod q pageSize
  have hless : p / pageSize < q / pageSize := by
    apply Nat.lt_of_mul_lt_mul_left (a := pageSize)
    omega
  have hclose : q / pageSize - p / pageSize < pages.length := by
    apply Nat.lt_of_mul_lt_mul_left (a := pageSize)
    rw [Nat.mul_sub, Nat.mul_comm pageSize pages.length]
    omega
  have hzero := Nat.sub_mod_eq_zero_of_mod_eq hsame.symm
  rw [Nat.mod_eq_of_lt hclose] at hzero
  omega

/-! ### The tables of a batch -/

theorem length_windowRow (pool : Pool) (a : Allocator) (reqIndex : Int) (seqLen : Nat) :
    (a.windowRow pool reqIndex seqLen).length = Allocator.logicalPages pool seqLen := by
  unfold Allocator.windowRow
  split
  · rw [List.length_map, List.length_range]
  · rename_i hzero
    have hpage : 0 < pool.pageSize := Nat.lt_of_lt_of_le Nat.two_pos pool.pageSize_ge
    rw [not_not.mp hzero, Allocator.logicalPages, pagesFor_zero hpage]
    rfl

theorem logicalPages_of_pos (hpage : 0 < pool.pageSize) {len : Nat} (h : 0 < len) :
    Allocator.logicalPages pool len = pagesFor pool.pageSize len := by
  have hpos := (lt_pagesFor_iff hpage).mpr (show 0 * pool.pageSize < len by omega)
  unfold Allocator.logicalPages
  omega

/-- The pages of a length within the capacity lie under the capacity. -/
theorem CompressedOwned.logicalPages_le (h : CompressedOwned pool reqs ∅ a C) {len : Nat}
    (hpos : 0 < len) (hlen : len ≤ a.compressedCapacity i) :
    Allocator.logicalPages pool len * pool.pageSize ≤ a.compressedCapacity i := by
  have hpage := h.tier.pageSize_pos
  obtain ⟨n, hn⟩ := h.aligned i
  rw [logicalPages_of_pos hpage hpos]
  have hmono := pagesFor_mono hpage hlen
  rw [hn, Nat.mul_comm, pagesFor_mul hpage] at hmono
  rw [hn, Nat.mul_comm pool.pageSize]
  exact Nat.mul_le_mul_right _ hmono

theorem CompressedOwned.length_row (h : CompressedOwned pool reqs ∅ a C) {reqIndex : Int}
    {len : Nat} (hlen : 0 < len → len ≤ a.compressedCapacity reqIndex.toNat) :
    (a.compressedRow pool reqIndex len).length = Allocator.logicalPages pool len := by
  have hpage := h.tier.pageSize_pos
  unfold Allocator.compressedRow
  split
  · rename_i hne
    have hpos := Nat.pos_of_ne_zero hne
    have hroom := (h.logicalPages_le hpos (hlen hpos)).trans (h.bounded reqIndex.toNat)
    rw [pagesOf, List.length_map, List.length_range, List.length_take, h.row,
      Nat.min_eq_left hroom, pagesFor_mul hpage]
  · rename_i hzero
    rw [not_not.mp hzero, Allocator.logicalPages, pagesFor_zero hpage]
    rfl

/-- What the tables say of one request of the batch, by its length. -/
structure Listed (pool : Pool) (reqs : Requests) (a : Allocator) (tables : Allocator.PageTables)
    (k r seqLen : Nat) : Prop where
  windowCount : (rowOf pool.pageSize tables.windowPages tables.windowCu k).length =
    pagesFor pool.pageSize seqLen
  window : ∀ page ∈ rowOf pool.pageSize tables.windowPages tables.windowCu k,
    a.HoldsWindow pool reqs (reqs.rank r) r page
  ring : ∀ p q, p < q → q < p + pool.windowSize →
    q < pagesFor pool.pageSize seqLen * pool.pageSize →
    slotAt pool.pageSize (rowOf pool.pageSize tables.windowPages tables.windowCu k) p ≠
      slotAt pool.pageSize (rowOf pool.pageSize tables.windowPages tables.windowCu k) q
  compressedCount : 0 < seqLen / pool.compressRatio →
    (rowOf pool.pageSize tables.compressedPages tables.compressedCu k).length =
      pagesFor pool.pageSize (seqLen / pool.compressRatio)
  compressed : 0 < seqLen / pool.compressRatio →
    ∀ page ∈ rowOf pool.pageSize tables.compressedPages tables.compressedCu k,
      a.HoldsCompressed pool reqs (reqs.rank r) r page

theorem windowRow_listed (hslots : SlotsOwned pool reqs a) (h : WindowOwned pool reqs ∅ a W)
    (hr : a.reqPoolIdx r = some i) {seqLen : Nat} (hpos : 0 < seqLen) :
    (∀ page ∈ a.windowRow pool i seqLen, a.HoldsWindow pool reqs (reqs.rank r) r page) ∧
    ∀ p q, p < q → q < p + pool.windowSize → q < pagesFor pool.pageSize seqLen * pool.pageSize →
      slotAt pool.pageSize (a.windowRow pool i seqLen) p ≠
        slotAt pool.pageSize (a.windowRow pool i seqLen) q := by
  have hpage := h.tier.pageSize_pos
  have hlaid := h.laid r i hr (Set.notMem_empty r)
  have hcount : (W (reqs.rank r) i).length * pool.pageSize = pool.windowSize := by
    rw [hlaid.count, h.row i, pagesFor_mod hpage pool.windowSize_mod]
  have hring : 0 < (W (reqs.rank r) i).length := by
    by_contra hnone
    rw [Nat.eq_zero_of_not_pos hnone, Nat.zero_mul] at hcount
    exact absurd hcount (Nat.ne_of_lt pool.windowSize_pos)
  unfold Allocator.windowRow
  rw [if_pos (Nat.ne_of_gt hpos), Int.toNat_natCast, hlaid.pagesOf_eq hpage,
    logicalPages_of_pos hpage hpos]
  constructor
  · intro page hmem
    obtain ⟨k, -, rfl⟩ := List.mem_map.mp hmem
    have hmod := Nat.mod_lt k hring
    refine ⟨rfl, i, hr, (hlaid.touches hpage).mpr ?_⟩
    rw [List.getD_eq_getElem?_getD, List.getElem?_eq_getElem hmod, Option.getD_some]
    exact List.getElem_mem hmod
  · intro p q hpq hnear hq
    exact ring_distinct hpage ((h.tier.ledger _).nodup_held (hslots.lt hr)) hpq
      (by rw [hcount]; exact hnear) hq

theorem compressedRow_listed (h : CompressedOwned pool reqs ∅ a C)
    (hr : a.reqPoolIdx r = some i) {len : Nat} (hpos : 0 < len)
    (hlen : len ≤ a.compressedCapacity i) :
    ∀ page ∈ a.compressedRow pool i len, a.HoldsCompressed pool reqs (reqs.rank r) r page := by
  have hpage := h.tier.pageSize_pos
  have hroom := h.logicalPages_le hpos hlen
  have hlaid := h.laid r i hr
  unfold Allocator.compressedRow
  rw [if_pos (Nat.ne_of_gt hpos), Int.toNat_natCast]
  have htake := hlaid.take hpage (n := Allocator.logicalPages pool len * pool.pageSize) (by
    rw [List.length_take, h.row]
    have := h.bounded i
    omega)
  rw [List.take_take, Nat.min_eq_left hroom] at htake
  rw [htake.pagesOf_eq hpage]
  intro page hmem
  exact ⟨rfl, i, hr, (hlaid.touches hpage).mpr (List.mem_of_mem_take hmem)⟩

/-- The tables list the pages of every live request of the batch. -/
theorem pageTables_listed (h : Owned pool reqs a) {reqPoolIndices seqLens : List Int}
    {tables : Allocator.PageTables} (htables : a.pageTables pool reqPoolIndices seqLens = .ok tables)
    {k seqLen : Nat} (hindex : reqPoolIndices[k]? = some (i : Int))
    (hr : a.reqPoolIdx r = some i) (hseq : seqLens[k]? = some (seqLen : Int))
    (hpos : 0 < seqLen) : Listed pool reqs a tables k r seqLen := by
  obtain ⟨hslots, ⟨W, hwindow⟩, ⟨C, hcompressed⟩⟩ := h
  have hpage := hwindow.tier.pageSize_pos
  unfold Allocator.pageTables at htables
  obtain ⟨⟨⟩, hcheck, htables⟩ := bind_eq_ok.mp htables
  split at htables
  · cases htables
  rename_i hcovered
  cases htables
  obtain ⟨hshape, -, -⟩ := checkBatch_ok hcheck
  have hshape' : reqPoolIndices.length = (seqLens.map Int.toNat).length := by
    rw [List.length_map, hshape]
  have hlens : (seqLens.map Int.toNat)[k]? = some seqLen := by
    rw [List.getElem?_map, hseq]
    rfl
  have hclens : ((seqLens.map Int.toNat).map (· / pool.compressRatio))[k]? =
      some (seqLen / pool.compressRatio) := by
    rw [List.getElem?_map, hlens]
    rfl
  -- The capacity covers every row of the batch, of whatever slot it is.
  have hcover : ∀ (k : Nat) (j : Int) (len : Nat), reqPoolIndices[k]? = some j →
      ((seqLens.map Int.toNat).map (· / pool.compressRatio))[k]? = some len → 0 < len →
      len ≤ a.compressedCapacity j.toNat := by
    intro k j len hj hlen hlenPos
    rw [List.getElem?_map, List.getElem?_map, Option.map_map, Option.map_eq_some_iff] at hlen
    obtain ⟨n, hn, rfl⟩ := hlen
    have hnPos : 0 < n := by
      by_contra hle
      rw [Function.comp_apply, Int.toNat_of_nonpos (by omega), Nat.zero_div] at hlenPos
      exact absurd hlenPos (Nat.lt_irrefl 0)
    have hmem : (j, n) ∈ reqPoolIndices.zip seqLens := by
      apply List.mem_of_getElem? (i := k)
      rw [List.getElem?_zip_eq_some]
      exact ⟨hj, hn⟩
    by_contra hlt
    refine hcovered (List.any_eq_true.mpr ⟨(j.toNat, n.toNat / pool.compressRatio), ?_,
      decide_eq_true (Nat.lt_of_not_le hlt)⟩)
    exact List.mem_map.mpr ⟨(j, n), List.mem_filter.mpr ⟨hmem, decide_eq_true hnPos⟩, rfl⟩
  have hwindowRow : rowOf pool.pageSize
      (List.zipWith (a.windowRow pool) reqPoolIndices (seqLens.map Int.toNat)).flatten
      (Allocator.cumulative 0 ((seqLens.map Int.toNat).map fun len =>
        Allocator.logicalPages pool len * pool.pageSize)) k = a.windowRow pool i seqLen := by
    rw [← map_length_zipWith hshape' fun _ j n _ _ => length_windowRow pool a j n]
    apply rowOf_flatten hpage
    rw [List.getElem?_zipWith, hindex, hlens]
  have hcompressedRow : rowOf pool.pageSize
      (List.zipWith (a.compressedRow pool) reqPoolIndices
        ((seqLens.map Int.toNat).map (· / pool.compressRatio))).flatten
      (Allocator.cumulative 0 (((seqLens.map Int.toNat).map (· / pool.compressRatio)).map fun len =>
        Allocator.logicalPages pool len * pool.pageSize)) k =
      a.compressedRow pool i (seqLen / pool.compressRatio) := by
    have hsizes : ((List.zipWith (a.compressedRow pool) reqPoolIndices
        ((seqLens.map Int.toNat).map (· / pool.compressRatio))).map fun row =>
          row.length * pool.pageSize) =
        ((seqLens.map Int.toNat).map (· / pool.compressRatio)).map fun len =>
          Allocator.logicalPages pool len * pool.pageSize :=
      map_length_zipWith (hshape'.trans (List.length_map _).symm) fun k j n hj hn =>
        hcompressed.length_row (hcover k j n hj hn)
    rw [← hsizes]
    apply rowOf_flatten hpage
    rw [List.getElem?_zipWith, hindex, hclens]
  have hlisted := windowRow_listed hslots hwindow hr hpos
  have hroom := hcover k i _ hindex hclens
  refine ⟨?_, ?_, ?_, ?_, ?_⟩
  · dsimp only
    rw [hwindowRow, length_windowRow, logicalPages_of_pos hpage hpos]
  · dsimp only
    rw [hwindowRow]
    exact hlisted.1
  · dsimp only
    rw [hwindowRow]
    exact hlisted.2
  · intro hlen
    dsimp only
    rw [hcompressedRow, hcompressed.length_row hroom, logicalPages_of_pos hpage hlen]
  · intro hlen
    dsimp only
    rw [hcompressedRow]
    exact compressedRow_listed hcompressed hr hlen (hroom hlen)

/-- In every reachable state each page of the two tiers is free or belongs to one live
request of the rank, a call that fails leaves everything as it was, and the page tables
list the pages of the requests. A request without compressed records has no pages in
the compressed tier, and the table has page 0 for it. -/
theorem tiers_owned (pool : Pool) (reqs : Requests) (a : Allocator)
    (h : Reachable pool reqs a) :
    (∀ rank, ∀ page ∈ List.range' 1 pool.windowPagesPerRank,
      ∃! r : Option Nat, r.elim (page ∈ a.windowAllocator.freeList rank) fun r =>
        a.HoldsWindow pool reqs rank r page) ∧
    (∀ rank, ∀ page ∈ List.range' 1 pool.compressedPagesPerRank,
      ∃! r : Option Nat, r.elim (page ∈ a.compressedAllocator.freeList rank) fun r =>
        a.HoldsCompressed pool reqs rank r page) ∧
    (∀ i, pool.pageSize ∣ a.compressedCapacity i) ∧
    (∀ c : Call, c.Proper a → (a.call pool reqs c).2.failed = true →
      Restored a (a.call pool reqs c).1) ∧
    ∀ reqPoolIndices seqLens tables, a.pageTables pool reqPoolIndices seqLens = .ok tables →
      ∀ (k r i seqLen : Nat), reqPoolIndices[k]? = some (i : Int) → a.reqPoolIdx r = some i →
        seqLens[k]? = some (seqLen : Int) → 0 < seqLen → Listed pool reqs a tables k r seqLen := by
  have howned := reachable_owned h
  obtain ⟨hslots, ⟨W, hwindow⟩, ⟨C, hcompressed⟩⟩ := id howned
  refine ⟨?_, ?_, hcompressed.aligned, ?_, ?_⟩
  · intro rank page hpage
    exact window_owner hwindow hslots hpage
  · intro rank page hpage
    exact compressed_owner hcompressed hslots hpage
  · intro c hproper
    exact (call_owned howned hproper).2
  · intro reqPoolIndices seqLens tables htables k r i seqLen hindex hr hseq hpos
    exact pageTables_listed howned htables hindex hr hseq hpos

/-- Two requests with windows of two pages of two slots, one record for two tokens. -/
def smallPool : Pool where
  size := 16
  pageSize := 2
  maxNumRequests := 2
  maxContextLen := 8
  windowSize := 4
  compressRatio := 2
  dpSize := 1
  recurrentSize := 2
  pageSize_ge := le_rfl
  windowSize_mod := rfl
  windowSize_pos := Nat.succ_pos 3
  compressRatio_pos := Nat.two_pos
  dpSize_pos := Nat.one_pos

def oneRank : Requests := ⟨fun _ => none⟩

def seatSeven : Call := .alloc [7] (fun _ => false) ⟨fun _ => false, false⟩

/-- Request 7 has its window. -/
def seated : Allocator := ((Allocator.init smallPool).call smallPool oneRank seatSeven).1

theorem seated_reachable : Reachable smallPool oneRank seated :=
  .call seatSeven .init (List.nodup_singleton 7)

theorem seated_idx : seated.reqPoolIdx 7 = some 0 := by decide +kernel

/-- Request 7 has grown to five tokens. -/
def grown : Allocator :=
  (seated.call smallPool oneRank (.ensureCompressedCapacity [0] [5])).1

theorem grown_reachable : Reachable smallPool oneRank grown := by
  refine .call (.ensureCompressedCapacity [0] [5]) seated_reachable ?_
  intro row hrow _ _
  rw [List.mem_singleton.mp hrow]
  exact ⟨7, seated_idx⟩

/-- The window of request 7 wraps around after two pages. -/
theorem grown_tables :
    (∃! r : Option Nat, r.elim (1 ∈ grown.windowAllocator.freeList 0) fun r =>
      grown.HoldsWindow smallPool oneRank 0 r 1) ∧
    Listed smallPool oneRank grown ⟨[1, 2, 1], [0, 6], [1], [0, 2], [2]⟩ 0 7 5 :=
  have h := tiers_owned smallPool oneRank grown grown_reachable
  ⟨h.1 0 1 (by decide), h.2.2.2.2 [0] [5] _ (by decide +kernel) 0 7 0 5 rfl
    (by decide +kernel) rfl (by decide)⟩

/-- One token is no record yet, so the compressed table has page 0 for it. -/
theorem seated_dummyPage : ¬ ∀ (pool : Pool) (reqs : Requests) (a : Allocator),
    Reachable pool reqs a →
    ∀ reqPoolIndices seqLens tables, a.pageTables pool reqPoolIndices seqLens = .ok tables →
      ∀ (k r i seqLen : Nat), reqPoolIndices[k]? = some (i : Int) → a.reqPoolIdx r = some i →
        seqLens[k]? = some (seqLen : Int) → 0 < seqLen →
        ∀ page ∈ rowOf pool.pageSize tables.compressedPages tables.compressedCu k,
          a.HoldsCompressed pool reqs (reqs.rank r) r page := by
  intro h
  obtain ⟨-, i, hi, slot, hslot, -⟩ := h smallPool oneRank seated seated_reachable [0] [1]
    ⟨[1], [0, 2], [0], [0, 2], [0]⟩ (by decide +kernel) 0 7 0 1 rfl seated_idx rfl (by decide) 0
    (by decide)
  rw [seated_idx, Option.some.injEq] at hi
  rw [← hi, show seated.compressedCapacity 0 = 0 by decide +kernel, List.take_zero] at hslot
  cases hslot

end SglJax.MemCache.Hca
