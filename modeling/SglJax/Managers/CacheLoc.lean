import SglJax.Foundation.AxisArrays
import SglJax.MemCache.PagedAllocation

/-! `cache_loc`: the slots of a batch, packed page by page in one segment for each dp
rank. The rows are read by one gather of page starts over the flat table. -/
namespace SglJax.Managers.CacheLoc

open Foundation MemCache

/-- `req_to_token`, whose rows have one width. -/
structure TokenTable where
  rows : List (List Nat)
  maxContextLen : Nat
  width : ∀ row ∈ rows, row.length = maxContextLen

/-- The requests of a dp rank. -/
structure RankInfo where
  seqLens : List Nat
  reqPoolIndices : List Nat
  same_length : reqPoolIndices.length = seqLens.length

inductive ForwardMode where
  | extend
  | decode
  | mixed
  | idle
  | targetVerify
  | draftExtend
  | dummyFirst
deriving DecidableEq, Repr

namespace ForwardMode

def isExtend (mode : ForwardMode) : Bool :=
  mode = .extend || mode = .mixed || mode = .draftExtend || mode = .targetVerify

def isSpecExtend (mode : ForwardMode) : Bool := mode = .targetVerify || mode = .draftExtend

end ForwardMode

/-! ### The size of the segments -/

/-- The rungs of one bucket. -/
def rungsOf (pageSize : Nat) (caps : List Int) (bs big : Nat) : List Nat :=
  let rungs : List Int := caps.map fun cap => (bs * cap + pageSize - 1) / pageSize * pageSize
  npUnique (big :: (rungs.filter fun rung => 0 < rung ∧ rung < (big : Int)).map Int.toNat)

/-- `spec_cache_loc_rungs` -/
def specCacheLocRungs (bsPaddings cacheLocPaddings : List Nat) (pageSize : Nat)
    (caps : List Int) : List (List Nat) :=
  List.zipWith (rungsOf pageSize caps) bsPaddings cacheLocPaddings

/-- `((lens + page_size - 1) // page_size) * page_size` -/
def alignedLens (pageSize : Nat) (lens : List Nat) : List Nat :=
  lens.map fun len => pagesFor pageSize len * pageSize

/-- `spec_cache_loc_needs`; a rank without requests has no lengths. -/
def specCacheLocNeeds (perRankLens : List (List Nat)) (perDpBs pageSize : Nat) : List Nat :=
  perRankLens.map fun lens =>
    if lens = [] then 0
    else
      let aligned := alignedLens pageSize lens
      max aligned.sum (perDpBs * aligned.foldl max 0)

def fitCacheLocPadding (cacheLocPaddings perRankNeeds : List Nat) (dpSize : Nat) :
    Except ArrayError Nat :=
  let need := perRankNeeds.foldl max 0
  match cacheLocPaddings.find? fun padding =>
      padding % dpSize = 0 ∧ need ≤ padding / dpSize with
  | some padding => .ok padding
  | none =>
    match cacheLocPaddings.getLast? with
    | some padding => .ok padding
    | none => .error .index

/-- `pad_to_bucket`: the place of the bucket. -/
def padToBucket (value : Nat) (buckets : List Nat) : Except ArrayError Nat :=
  match buckets.findIdx? (value ≤ ·) with
  | some i => .ok i
  | none => .error .value

def lastPadding (paddings : List Nat) : Except ArrayError Nat := item paddings (-1)

/-- The settings that the size depends on. -/
structure LocSettings where
  mode : ForwardMode
  bsPaddings : List Nat
  cacheLocPaddings : List Nat
  pageSize : Nat
  perDpBsSize : Nat
  dpSize : Nat
  caps : List Int
  specCacheLocFit : Bool
  speculative : Bool

/-- `total_cache_loc_size` -/
def totalCacheLocSize (cfg : LocSettings) (perRankLens : List (List Nat)) :
    Except ArrayError Nat := do
  let needs := specCacheLocNeeds perRankLens cfg.perDpBsSize cfg.pageSize
  if cfg.mode.isExtend then
    let total ← lastPadding cfg.cacheLocPaddings
    if cfg.cacheLocPaddings.length > 1 ∧ cfg.mode.isSpecExtend then
      let bs ← lastPadding cfg.bsPaddings
      fitCacheLocPadding (rungsOf cfg.pageSize cfg.caps bs total) needs cfg.dpSize
    else return total
  else
    let bsIndex ← padToBucket (cfg.perDpBsSize * cfg.dpSize) cfg.bsPaddings
    let total ← item cfg.cacheLocPaddings (bsIndex : Int)
    if cfg.specCacheLocFit ∧ cfg.speculative ∧ cfg.cacheLocPaddings.length > 1 then
      let rungs ← item (specCacheLocRungs cfg.bsPaddings cfg.cacheLocPaddings cfg.pageSize cfg.caps)
        (bsIndex : Int)
      let fitted ← fitCacheLocPadding rungs needs cfg.dpSize
      return min total fitted
    else return total

/-! ### The gather -/

/-- `np.cumsum` -/
def cumsum : Nat → List Nat → List Nat
  | _, [] => []
  | acc, x :: xs => (acc + x) :: cumsum (acc + x) xs

/-- `offsets` -/
def offsets (aligned : List Nat) : List Nat :=
  match aligned with
  | [] => []
  | _ :: _ => 0 :: cumsum 0 aligned.dropLast

/-- `np.repeat` -/
def repeatEach (xs : List Int) (counts : List Nat) : List Int :=
  (xs.zip counts).flatMap fun (x, n) => List.replicate n x

/-- `flat_src` -/
def flatSrc (pageSize maxContextLen : Nat) (info : RankInfo) : List Int :=
  let aligned := alignedLens pageSize info.seqLens
  let nPages := aligned.map (· / pageSize)
  let pageCum := (offsets aligned).map (· / pageSize)
  let rowBase := info.reqPoolIndices.map (· * maxContextLen)
  let bases := List.zipWith (fun (base cum : Nat) => (base : Int) - (cum * pageSize : Nat))
    rowBase pageCum
  List.zipWith (· + ·) (repeatEach bases nPages) ((arange nPages.sum).map (· * pageSize))

/-- An assignment to a slice of the buffer. -/
def storeSlice (buf : List Nat) (start : Nat) (values : List Nat) : Except ArrayError (List Nat) :=
  if start + values.length ≤ buf.length then
    .ok (buf.take start ++ values ++ buf.drop (start + values.length))
  else .error .value

/-- The body of the loop over the ranks of `_merge_cache_loc`. -/
def fillRank (table : TokenTable) (pageSize : Nat) (info : RankInfo) (offsetBs : Nat)
    (buf : List Nat) : Except ArrayError (List Nat) :=
  let aligned := alignedLens pageSize info.seqLens
  if pageSize > 1 then
    let totalPages := (aligned.map (· / pageSize)).sum
    if totalPages > 0 then do
      let pageStarts ← takeAlongAxis table.rows.flatten
        (flatSrc pageSize table.maxContextLen info)
      storeSlice buf offsetBs (pageStarts.flatMap fun start => (List.range pageSize).map (start + ·))
    else .ok buf
  else
    ((info.seqLens.zip info.reqPoolIndices).zip (offsets aligned)).foldlM (fun buf req => do
      let row ← item table.rows (req.1.2 : Int)
      if row.length < req.1.1 then .error .value
      else storeSlice buf (req.2 + offsetBs) (row.take req.1.1)) buf

/-- The loop over the ranks; the segments have a fixed stride. -/
def fillRanks (table : TokenTable) (pageSize perDpCacheLocSize : Nat) :
    List RankInfo → Nat → List Nat → Except ArrayError (List Nat)
  | [], _, buf => .ok buf
  | info :: rest, offsetBs, buf => do
    let buf ← if info.seqLens.length = 0 then .ok buf
      else fillRank table pageSize info offsetBs buf
    fillRanks table pageSize perDpCacheLocSize rest (offsetBs + perDpCacheLocSize) buf

/-- `_merge_cache_loc` on the persistent buffer of the pool; the result is its
view. -/
def mergeCacheLoc (cfg : LocSettings) (table : TokenTable) (reqsInfo : List RankInfo)
    (cacheLocHostBuf : List Nat) : Except ArrayError (List Nat) := do
  let total ← totalCacheLocSize cfg (reqsInfo.map RankInfo.seqLens)
  if cacheLocHostBuf.length < total then .error .assertion
  else fillRanks table cfg.pageSize (total / cfg.dpSize) reqsInfo 0 (cacheLocHostBuf.take total)

/-! ### Running sums -/

/-- The sums of what comes before each entry. -/
def before : Nat → List Nat → List Nat
  | _, [] => []
  | acc, x :: xs => acc :: before (acc + x) xs

theorem offsets_eq (aligned : List Nat) : offsets aligned = before 0 aligned := by
  have hcons (acc x : Nat) (xs : List Nat) :
      acc :: cumsum acc (x :: xs).dropLast = before acc (x :: xs) := by
    induction xs generalizing acc x with
    | nil => rfl
    | cons y ys ih =>
      rw [List.dropLast_cons_of_ne_nil (List.cons_ne_nil y ys), cumsum, ih]
      rfl
  cases aligned with
  | nil => rfl
  | cons x xs => exact hcons 0 x xs

theorem before_pages {pageSize : Nat} (hpage : 0 < pageSize) (acc : Nat) (pages : List Nat) :
    (before (acc * pageSize) (pages.map (· * pageSize))).map (· / pageSize) = before acc pages := by
  induction pages generalizing acc with
  | nil => rfl
  | cons n pages ih =>
    rw [List.map_cons, before, before, List.map_cons, Nat.mul_div_cancel _ hpage, ← Nat.add_mul, ih]

theorem length_before (acc : Nat) (xs : List Nat) : (before acc xs).length = xs.length := by
  induction xs generalizing acc with
  | nil => rfl
  | cons x xs ih => rw [before, List.length_cons, List.length_cons, ih]

/-! ### Where the gather reads -/

/-- The pages of a request start at these places of the flat table. -/
def pageStartsOf (pageSize maxContextLen : Nat) (req : Nat × Nat) : List Nat :=
  (List.range req.2).map fun p => req.1 * maxContextLen + p * pageSize

/-- A request's base, less the pages before it, plus the ramp over all pages. -/
theorem ramp_eq {pageSize maxContextLen acc : Nat} {rowIdx pages : List Nat}
    (hlen : rowIdx.length = pages.length) :
    List.zipWith (· + ·)
        (repeatEach (List.zipWith (fun (base cum : Nat) => (base : Int) - (cum * pageSize : Nat))
          (rowIdx.map (· * maxContextLen)) (before acc pages)) pages)
        ((List.range' acc pages.sum).map fun g => ((g * pageSize : Nat) : Int)) =
      ((rowIdx.zip pages).flatMap (pageStartsOf pageSize maxContextLen)).map Nat.cast := by
  induction pages generalizing acc rowIdx with
  | nil => simp [repeatEach, before]
  | cons n pages ih =>
    obtain ⟨idx, rest, rfl⟩ := List.exists_cons_of_length_eq_add_one hlen
    rw [List.length_cons, List.length_cons, Nat.add_right_cancel_iff] at hlen
    have hrest := @ih (acc + n) rest hlen
    rw [repeatEach] at hrest ⊢
    rw [List.map_cons, before, List.zipWith_cons_cons, List.zip_cons_cons, List.flatMap_cons,
      List.sum_cons, ← List.range'_append_1, List.map_append, List.zipWith_append (by simp),
      hrest, List.zip_cons_cons, List.flatMap_cons, List.map_append]
    congr 1
    apply List.ext_getElem?
    intro p
    by_cases hp : p < n
    · simp only [List.getElem?_zipWith, List.getElem?_replicate, hp, if_true, List.getElem?_map,
        List.getElem?_range', pageStartsOf, List.getElem?_range, Option.map_some]
      push_cast
      congr 1
      ring
    · rw [List.getElem?_eq_none (by simp; omega), List.getElem?_eq_none (by
        simp [pageStartsOf]; omega)]

/-- The requests of a rank with their pages. -/
def requests (pageSize : Nat) (info : RankInfo) : List (Nat × Nat) :=
  info.reqPoolIndices.zip (info.seqLens.map (pagesFor pageSize))

theorem flatSrc_eq {pageSize : Nat} (hpage : 0 < pageSize) (maxContextLen : Nat)
    (info : RankInfo) : flatSrc pageSize maxContextLen info =
      ((requests pageSize info).flatMap (pageStartsOf pageSize maxContextLen)).map Nat.cast := by
  have haligned : alignedLens pageSize info.seqLens =
      (info.seqLens.map (pagesFor pageSize)).map (· * pageSize) := by
    rw [alignedLens, List.map_map]
    rfl
  have hpages : (alignedLens pageSize info.seqLens).map (· / pageSize) =
      info.seqLens.map (pagesFor pageSize) := by
    rw [alignedLens, List.map_map]
    apply List.map_congr_left
    intro len _
    exact Nat.mul_div_cancel _ hpage
  have hramp : (arange (info.seqLens.map (pagesFor pageSize)).sum).map (· * (pageSize : Int)) =
      (List.range' 0 (info.seqLens.map (pagesFor pageSize)).sum).map
        fun g => ((g * pageSize : Nat) : Int) := by
    rw [arange, tab, List.map_map, List.range_eq_range']
    apply List.map_congr_left
    intro g _
    push_cast
    rfl
  unfold flatSrc
  dsimp only
  rw [hpages, hramp, offsets_eq, haligned, ← Nat.zero_mul pageSize, before_pages hpage,
    Nat.zero_mul]
  exact ramp_eq (by rw [info.same_length, List.length_map])

/-- A place of the flat table lies in one row. -/
theorem getElem?_flatten {rows : List (List Nat)} {width idx q : Nat} {row : List Nat}
    (hwidth : ∀ row ∈ rows, row.length = width) (hrow : rows[idx]? = some row) (hq : q < width) :
    rows.flatten[idx * width + q]? = row[q]? := by
  induction rows generalizing idx with
  | nil => cases hrow
  | cons first rest ih =>
    have hfirst := hwidth first List.mem_cons_self
    rw [List.flatten_cons]
    cases idx with
    | zero =>
      cases hrow
      rw [Nat.zero_mul, Nat.zero_add, List.getElem?_append_left (by omega)]
    | succ idx =>
      have hplace : (idx + 1) * width + q = first.length + (idx * width + q) := by
        rw [hfirst, Nat.add_mul]
        omega
      rw [hplace, List.getElem?_append_right (Nat.le_add_right _ _), Nat.add_sub_cancel_left]
      exact ih (fun row hrow => hwidth row (List.mem_cons_of_mem _ hrow)) hrow

/-! ### What a segment holds -/

/-- The pages of a row, each counted on from its first slot. -/
def pageCells (pageSize : Nat) (row : List Nat) (pages : Nat) : List Nat :=
  (List.range pages).flatMap fun p =>
    (List.range pageSize).map fun k => row.getD (p * pageSize) 0 + k

theorem length_pageCells (pageSize : Nat) (row : List Nat) (pages : Nat) :
    (pageCells pageSize row pages).length = pages * pageSize := by
  simp [pageCells, List.length_flatMap]

theorem getElem?_pageCells {pageSize pages i : Nat} (hpage : 0 < pageSize) (row : List Nat)
    (hi : i < pages * pageSize) : (pageCells pageSize row pages)[i]? =
      some (row.getD (i / pageSize * pageSize) 0 + i % pageSize) := by
  induction pages with
  | zero => simp at hi
  | succ pages ih =>
    have hlen := length_pageCells pageSize row pages
    rw [Nat.add_mul, Nat.one_mul] at hi
    rw [pageCells, List.range_succ, List.flatMap_append]
    rcases Nat.lt_or_ge i (pages * pageSize) with hlt | hge
    · rw [List.getElem?_append_left (hlen.symm ▸ hlt)]
      exact ih hlt
    · obtain ⟨k, rfl⟩ := Nat.exists_eq_add_of_le hge
      have hk : k < pageSize := by omega
      change ((pageCells pageSize row pages) ++ _)[_]? = _
      rw [List.getElem?_append_right (by omega), hlen, Nat.add_sub_cancel_left,
        List.flatMap_singleton, List.getElem?_map, List.getElem?_range hk, Option.map_some,
        Nat.mul_comm pages, Nat.mul_add_div hpage, Nat.div_eq_of_lt hk, Nat.mul_add_mod,
        Nat.mod_eq_of_lt hk, Nat.add_zero, Nat.mul_comm pageSize]

/-- A row contiguous within its pages is read back as it is. -/
theorem pageCells_take {pageSize len : Nat} (hpage : 0 < pageSize) {row : List Nat}
    (hlen : len ≤ row.length) (hrow : Contiguous pageSize (row.take len)) :
    (pageCells pageSize row (pagesFor pageSize len)).take len = row.take len := by
  apply List.ext_getElem?
  intro i
  rw [List.getElem?_take, List.getElem?_take]
  split
  · rename_i hi
    have hcap := le_pagesFor_mul hpage len
    have hfirst : i / pageSize * pageSize ≤ i := Nat.div_mul_le_self i pageSize
    have hplace : i / pageSize * pageSize + i % pageSize = i := by
      rw [Nat.mul_comm]
      exact Nat.div_add_mod i pageSize
    have hstart := List.getElem?_eq_getElem (l := row) (i := i / pageSize * pageSize) (by omega)
    have hslot := List.getElem?_eq_getElem (l := row) (i := i) (by omega)
    have hcount := hrow (i / pageSize) (i % pageSize) _ _ (Nat.mod_lt i hpage)
      (by rw [List.getElem?_take, if_pos (by omega), hstart])
      (by rw [hplace, List.getElem?_take, if_pos hi, hslot])
    rw [getElem?_pageCells hpage row (by omega), List.getD_eq_getElem?_getD, hstart, hslot,
      Option.getD_some, hcount]
  · rfl

/-- The rank's requests one after the other. -/
def rankCells (table : TokenTable) (pageSize : Nat) (info : RankInfo) : List Nat :=
  (requests pageSize info).flatMap fun req =>
    pageCells pageSize (table.rows.getD req.1 []) req.2

/-- Every request of the rank has a row that is long enough for it, with slots
contiguous within each page. -/
structure Backed (table : TokenTable) (pageSize : Nat) (info : RankInfo) : Prop where
  fits : ∀ len ∈ info.seqLens, len ≤ table.maxContextLen
  row : ∀ idx ∈ info.reqPoolIndices, idx < table.rows.length
  contiguous : ∀ (r len idx : Nat) (row : List Nat), info.seqLens[r]? = some len →
    info.reqPoolIndices[r]? = some idx → table.rows[idx]? = some row →
    Contiguous pageSize (row.take len)

def alignedTotal (pageSize : Nat) (info : RankInfo) : Nat := (alignedLens pageSize info.seqLens).sum

theorem sum_pages (pageSize : Nat) (info : RankInfo) :
    (info.seqLens.map (pagesFor pageSize)).sum * pageSize = alignedTotal pageSize info := by
  rw [alignedTotal, alignedLens, ← List.sum_map_mul_right]

theorem length_rankCells (table : TokenTable) (pageSize : Nat) (info : RankInfo) :
    (rankCells table pageSize info).length = alignedTotal pageSize info := by
  rw [← sum_pages, rankCells, List.length_flatMap]
  have hmap : (requests pageSize info).map (fun req =>
      (pageCells pageSize (table.rows.getD req.1 []) req.2).length) =
      ((requests pageSize info).map Prod.snd).map (· * pageSize) := by
    rw [List.map_map]
    apply List.map_congr_left
    intro req _
    exact length_pageCells _ _ _
  rw [hmap, requests, List.map_snd_zip (by rw [info.same_length, List.length_map]),
    ← List.sum_map_mul_right, List.map_map]
  rfl

/-- The gather and the broadcast give the rank's cells. -/
theorem gather_eq {table : TokenTable} {pageSize : Nat} {info : RankInfo} (hpage : 0 < pageSize)
    (h : Backed table pageSize info) :
    ∃ starts, takeAlongAxis table.rows.flatten (flatSrc pageSize table.maxContextLen info) =
        .ok starts ∧
      (starts.flatMap fun start => (List.range pageSize).map (start + ·)) =
        rankCells table pageSize info := by
  have hread (req : Nat × Nat) (hreq : req ∈ requests pageSize info) (p : Nat) (hp : p < req.2) :
      table.rows.flatten[req.1 * table.maxContextLen + p * pageSize]? =
        some ((table.rows.getD req.1 []).getD (p * pageSize) 0) := by
    obtain ⟨hidx, hpages⟩ := List.of_mem_zip hreq
    obtain ⟨len, hlen, hcount⟩ := List.mem_map.mp hpages
    rw [← hcount, lt_pagesFor_iff hpage] at hp
    have hfits := h.fits len hlen
    obtain ⟨row, hrow⟩ : ∃ row, table.rows[req.1]? = some row :=
      ⟨_, List.getElem?_eq_getElem (h.row req.1 hidx)⟩
    have hwidth := table.width row (List.mem_of_getElem? hrow)
    have hgetD : table.rows.getD req.1 [] = row := by
      rw [List.getD_eq_getElem?_getD, hrow]
      rfl
    rw [getElem?_flatten table.width hrow (by omega), hgetD, List.getD_eq_getElem?_getD,
      List.getElem?_eq_getElem (by omega)]
    rfl
  refine ⟨(requests pageSize info).flatMap fun req => (List.range req.2).map fun p =>
    (table.rows.getD req.1 []).getD (p * pageSize) 0, ?_, ?_⟩
  · rw [flatSrc_eq hpage, takeAlongAxis, List.mapM_map]
    have hitem : ∀ place ∈ (requests pageSize info).flatMap
        (pageStartsOf pageSize table.maxContextLen),
        (item table.rows.flatten ∘ Nat.cast) place =
          .ok ((fun place => table.rows.flatten.getD place 0) place) := by
      intro place hplace
      obtain ⟨req, hreq, hplace⟩ := List.mem_flatMap.mp hplace
      obtain ⟨p, hp, rfl⟩ := List.mem_map.mp hplace
      have hget := hread req hreq p (List.mem_range.mp hp)
      have hlt := (List.getElem?_eq_some_iff.mp hget).1
      change item table.rows.flatten ((req.1 * table.maxContextLen + p * pageSize : Nat) : Int) = _
      rw [item, axisIndex_natCast hlt]
      dsimp only [bind, Except.bind]
      have hgetD : table.rows.flatten.getD (req.1 * table.maxContextLen + p * pageSize) 0 =
          (table.rows.getD req.1 []).getD (p * pageSize) 0 :=
        (List.getD_eq_getElem?_getD ..).trans (by rw [hget]; rfl)
      rw [hget, hgetD]
    rw [mapM_ok hitem, List.map_flatMap]
    congr 1
    apply List.flatMap_congr
    intro req hreq
    rw [pageStartsOf, List.map_map]
    apply List.map_congr_left
    intro p hp
    rw [Function.comp_apply, List.getD_eq_getElem?_getD, hread req hreq p (List.mem_range.mp hp)]
    rfl
  · rw [List.flatMap_assoc, rankCells]
    apply List.flatMap_congr
    intro req _
    rw [List.flatMap_map, pageCells]

/-- The cells of a request, at the sum of the aligned lengths before it. -/
theorem rankCells_getElem? (table : TokenTable) (pageSize : Nat) {info : RankInfo}
    {r len idx i : Nat} (hlen : info.seqLens[r]? = some len)
    (hidx : info.reqPoolIndices[r]? = some idx) (hi : i < pagesFor pageSize len * pageSize) :
    (rankCells table pageSize info)[((alignedLens pageSize info.seqLens).take r).sum + i]? =
      (pageCells pageSize (table.rows.getD idx []) (pagesFor pageSize len))[i]? := by
  have hflat : ∀ (reqs : List (Nat × Nat)) (r : Nat), reqs[r]? = some (idx, pagesFor pageSize len) →
      (reqs.flatMap fun req => pageCells pageSize (table.rows.getD req.1 []) req.2)[
        ((reqs.take r).map fun req => req.2 * pageSize).sum + i]? =
      (pageCells pageSize (table.rows.getD idx []) (pagesFor pageSize len))[i]? := by
    intro reqs r hreq
    induction reqs generalizing r with
    | nil => cases hreq
    | cons first rest ih =>
      have hfirst := length_pageCells pageSize (table.rows.getD first.1 []) first.2
      rw [List.flatMap_cons]
      cases r with
      | zero =>
        cases hreq
        dsimp only at hfirst ⊢
        rw [List.take_zero, List.map_nil, List.sum_nil, Nat.zero_add,
          List.getElem?_append_left (by omega)]
      | succ r =>
        rw [List.take_succ_cons, List.map_cons, List.sum_cons, Nat.add_assoc, ← hfirst,
          List.getElem?_append_right (Nat.le_add_right _ _), Nat.add_sub_cancel_left]
        exact ih r hreq
  have hreq : (requests pageSize info)[r]? = some (idx, pagesFor pageSize len) := by
    rw [requests, List.getElem?_zip_eq_some, List.getElem?_map, hlen]
    exact ⟨hidx, rfl⟩
  have hoffset : ((alignedLens pageSize info.seqLens).take r).sum =
      (((requests pageSize info).take r).map fun req => req.2 * pageSize).sum := by
    have hsnd : (requests pageSize info).map Prod.snd = info.seqLens.map (pagesFor pageSize) :=
      List.map_snd_zip (by rw [info.same_length, List.length_map])
    have hpages : alignedLens pageSize info.seqLens =
        (requests pageSize info).map fun req => req.2 * pageSize := by
      have hpairs := congrArg (List.map (· * pageSize)) hsnd
      rw [List.map_map, List.map_map] at hpairs
      exact hpairs.symm
    rw [hpages, List.map_take]
  rw [hoffset]
  exact hflat _ r hreq

/-! ### Filling the buffer -/

/-- What a rank writes, and that nothing else changes. -/
structure Fills (buf out values : List Nat) (start : Nat) : Prop where
  length : out.length = buf.length
  kept : ∀ j, j < start ∨ start + values.length ≤ j → out[j]? = buf[j]?
  written : ∀ g, g < values.length → out[start + g]? = values[g]?

theorem storeSlice_fills {buf values : List Nat} {start : Nat}
    (hroom : start + values.length ≤ buf.length) :
    ∃ out, storeSlice buf start values = .ok out ∧ Fills buf out values start := by
  have hstart : (buf.take start).length = start := by
    rw [List.length_take]
    omega
  refine ⟨_, if_pos hroom, ⟨?_, ?_, ?_⟩⟩
  · rw [List.length_append, List.length_append, hstart, List.length_drop]
    omega
  · rintro j (hj | hj)
    · rw [List.append_assoc, List.getElem?_append_left (by omega), List.getElem?_take, if_pos hj]
    · rw [List.getElem?_append_right (by rw [List.length_append]; omega), List.getElem?_drop,
        List.length_append, hstart]
      congr 1
      omega
  · intro g hg
    rw [List.getElem?_append_left (by rw [List.length_append]; omega),
      List.getElem?_append_right (by omega), hstart, Nat.add_sub_cancel_left]

theorem fillRank_fills {table : TokenTable} {pageSize start : Nat} {info : RankInfo}
    {buf : List Nat} (hpage : 1 < pageSize) (h : Backed table pageSize info)
    (hroom : start + alignedTotal pageSize info ≤ buf.length) :
    ∃ out, (if info.seqLens.length = 0 then .ok buf else fillRank table pageSize info start buf) =
        Except.ok out ∧ Fills buf out (rankCells table pageSize info) start := by
  have hcells := length_rankCells table pageSize info
  have hsame (hzero : alignedTotal pageSize info = 0) :
      Fills buf buf (rankCells table pageSize info) start :=
    ⟨rfl, fun _ _ => rfl, fun g hg => absurd hg (by omega)⟩
  split
  · rename_i hnone
    refine ⟨buf, rfl, hsame ?_⟩
    rw [alignedTotal, List.length_eq_zero_iff.mp hnone]
    rfl
  · have hpages : ((alignedLens pageSize info.seqLens).map (· / pageSize)).sum * pageSize =
        alignedTotal pageSize info := by
      rw [← sum_pages, alignedLens, List.map_map]
      congr 2
      apply List.map_congr_left
      intro len _
      exact Nat.mul_div_cancel _ (by omega)
    unfold fillRank
    dsimp only
    rw [if_pos hpage]
    split
    · obtain ⟨starts, hread, hcellsEq⟩ := gather_eq (by omega) h
      obtain ⟨out, hstore, hfills⟩ := storeSlice_fills (hcells.symm ▸ hroom)
      refine ⟨out, ?_, hfills⟩
      simp only [hread, bind, Except.bind]
      rw [hcellsEq, hstore]
    · rename_i hzero
      refine ⟨buf, rfl, hsame ?_⟩
      rw [← hpages, Nat.eq_zero_of_not_pos hzero, Nat.zero_mul]

/-- Each rank fills its own segment. -/
theorem fillRanks_spec {table : TokenTable} {pageSize stride : Nat} (hpage : 1 < pageSize)
    {infos : List RankInfo} (hback : ∀ info ∈ infos, Backed table pageSize info)
    (hfit : ∀ info ∈ infos, alignedTotal pageSize info ≤ stride) {start : Nat} {buf : List Nat}
    (hroom : start + infos.length * stride ≤ buf.length) :
    ∃ out, fillRanks table pageSize stride infos start buf = .ok out ∧
      out.length = buf.length ∧ (∀ j < start, out[j]? = buf[j]?) ∧
      ∀ (d : Nat) (info : RankInfo), infos[d]? = some info → ∀ g < alignedTotal pageSize info,
        out[start + d * stride + g]? = (rankCells table pageSize info)[g]? := by
  induction infos generalizing start buf with
  | nil => exact ⟨buf, rfl, rfl, fun _ _ => rfl, fun _ _ h => by cases h⟩
  | cons info rest ih =>
    have hfirst := hfit info List.mem_cons_self
    have hcells := length_rankCells table pageSize info
    rw [List.length_cons, Nat.add_mul, Nat.one_mul] at hroom
    obtain ⟨mid, hmid, hfills⟩ :=
      fillRank_fills hpage (hback info List.mem_cons_self)
        (show start + alignedTotal pageSize info ≤ buf.length by omega)
    obtain ⟨out, hout, hlen, hkept, hwritten⟩ :=
      ih (fun other hother => hback other (List.mem_cons_of_mem _ hother))
        (fun other hother => hfit other (List.mem_cons_of_mem _ hother))
        (show start + stride + rest.length * stride ≤ mid.length by rw [hfills.length]; omega)
    refine ⟨out, ?_, hlen.trans hfills.length, ?_, ?_⟩
    · rw [fillRanks]
      split
      · rename_i hnone
        rw [if_pos hnone] at hmid
        cases hmid
        exact hout
      · rename_i hsome
        rw [if_neg hsome] at hmid
        rw [hmid]
        exact hout
    · intro j hj
      rw [hkept j (by omega), hfills.kept j (.inl hj)]
    · intro d other hother g hg
      cases d with
      | zero =>
        cases hother
        rw [Nat.zero_mul, Nat.add_zero, hkept _ (by omega), hfills.written g (by omega)]
      | succ d =>
        rw [Nat.add_mul, Nat.one_mul, Nat.add_comm (d * stride), ← Nat.add_assoc start]
        exact hwritten d other hother g hg

/-! ### A padding that is large enough -/

theorem le_foldl_max {xs : List Nat} {x : Nat} (h : x ∈ xs) : x ≤ xs.foldl max 0 := by
  have hgo : ∀ (xs : List Nat) (acc : Nat), acc ≤ xs.foldl max acc ∧
      ∀ y ∈ xs, y ≤ xs.foldl max acc := by
    intro xs
    induction xs with
    | nil => exact fun acc => ⟨le_rfl, by simp⟩
    | cons y ys ih =>
      intro acc
      obtain ⟨hacc, hall⟩ := ih (max acc y)
      rw [List.foldl_cons]
      refine ⟨(Nat.le_max_left acc y).trans hacc, ?_⟩
      intro z hz
      rcases List.mem_cons.mp hz with rfl | hz
      · exact (Nat.le_max_right acc z).trans hacc
      · exact hall z hz
  exact (hgo xs 0).2 x h

theorem le_getLast_of_sorted {xs : List Nat} (hsorted : xs.Pairwise (· ≤ ·)) {x last : Nat}
    (hx : x ∈ xs) (hlast : xs.getLast? = some last) : x ≤ last := by
  obtain ⟨init, rfl⟩ := List.getLast?_eq_some_iff.mp hlast
  rcases List.mem_append.mp hx with hx | hx
  · exact (List.pairwise_append.mp hsorted).2.2 x hx last List.mem_cons_self
  · rw [List.mem_singleton.mp hx]

/-- A segment of the needed size holds every rank. -/
theorem sum_le_need {perRankLens : List (List Nat)} {lens : List Nat} (h : lens ∈ perRankLens)
    (perDpBs pageSize : Nat) : (alignedLens pageSize lens).sum ≤
      (specCacheLocNeeds perRankLens perDpBs pageSize).foldl max 0 := by
  by_cases hnone : lens = []
  · rw [hnone]
    exact Nat.zero_le _
  · refine le_trans ?_ (le_foldl_max (List.mem_map_of_mem h))
    rw [if_neg hnone]
    exact Nat.le_max_left _ _

/-- The padding that is found is large enough, and the last one is when any is. -/
theorem fitCacheLocPadding_spec {paddings : List Nat} (hsorted : paddings.Pairwise (· ≤ ·))
    (perRankLens : List (List Nat)) (perDpBs pageSize dpSize : Nat)
    (h : ∃ rung ∈ paddings, ∀ lens ∈ perRankLens,
      (alignedLens pageSize lens).sum ≤ rung / dpSize) :
    ∃ padding, fitCacheLocPadding paddings (specCacheLocNeeds perRankLens perDpBs pageSize) dpSize =
        .ok padding ∧ padding ∈ paddings ∧
      ∀ lens ∈ perRankLens, (alignedLens pageSize lens).sum ≤ padding / dpSize := by
  unfold fitCacheLocPadding
  dsimp only
  split
  · rename_i padding hfind
    have hneed := List.find?_some hfind
    refine ⟨padding, rfl, List.mem_of_find?_eq_some hfind, ?_⟩
    intro lens hlens
    rw [decide_eq_true_eq] at hneed
    exact (sum_le_need hlens perDpBs pageSize).trans hneed.2
  · obtain ⟨rung, hrung, hholds⟩ := h
    have hlast := List.getLast?_eq_some_getLast (List.ne_nil_of_mem hrung)
    rw [hlast]
    refine ⟨_, rfl, List.mem_of_getLast? hlast, ?_⟩
    intro lens hlens
    exact (hholds lens hlens).trans
      (Nat.div_le_div_right (le_getLast_of_sorted hsorted hrung hlast))

theorem specCacheLocRungs_sorted {bsPaddings cacheLocPaddings : List Nat} {pageSize : Nat}
    {caps : List Int} {rungs : List Nat}
    (h : rungs ∈ specCacheLocRungs bsPaddings cacheLocPaddings pageSize caps) :
    rungs.Pairwise (· ≤ ·) := by
  unfold specCacheLocRungs at h
  obtain ⟨i, hi⟩ := List.mem_iff_getElem?.mp h
  obtain ⟨bs, big, -, -, rfl⟩ := List.getElem?_zipWith_eq_some.mp hi
  exact List.pairwise_insertionSort _ _

/-! ### The whole batch -/

/-- Where the slots of the `r`-th request of a rank start. -/
def requestStart (pageSize stride d : Nat) (info : RankInfo) (r : Nat) : Nat :=
  d * stride + ((alignedLens pageSize info.seqLens).take r).sum

/-- Each request finds the slots of its row, and then the rest of its last page. -/
def HoldsRows (pageSize stride : Nat) (table : TokenTable) (reqsInfo : List RankInfo)
    (out : List Nat) : Prop :=
  ∀ (d r len idx : Nat) (info : RankInfo) (row : List Nat), reqsInfo[d]? = some info →
    info.seqLens[r]? = some len → info.reqPoolIndices[r]? = some idx →
    table.rows[idx]? = some row →
    (out.drop (requestStart pageSize stride d info r)).take len = row.take len ∧
    ∀ i, len ≤ i → i < pagesFor pageSize len * pageSize →
      out[requestStart pageSize stride d info r + i]? =
        row[len - 1]?.map fun last => last + (i - (len - 1))

/-- The place past the last token of a request is in the page of that token. -/
theorem same_page {pageSize len i : Nat} (hpage : 0 < pageSize) (hlen : 0 < len) (hle : len ≤ i)
    (hi : i < pagesFor pageSize len * pageSize) : i / pageSize = (len - 1) / pageSize := by
  have hpages : pagesFor pageSize len = (len - 1) / pageSize + 1 := by
    rw [pagesFor, ← Nat.add_div_right _ hpage]
    congr 1
    omega
  rw [hpages, ← Nat.div_lt_iff_lt_mul hpage] at hi
  have := Nat.div_le_div_right (c := pageSize) (show len - 1 ≤ i by omega)
  omega

theorem holdsRows_of_cells {table : TokenTable} {pageSize stride : Nat} {reqsInfo : List RankInfo}
    {out : List Nat} (hpage : 0 < pageSize) (hback : ∀ info ∈ reqsInfo, Backed table pageSize info)
    (hwritten : ∀ (d : Nat) (info : RankInfo), reqsInfo[d]? = some info →
      ∀ g < alignedTotal pageSize info,
        out[d * stride + g]? = (rankCells table pageSize info)[g]?) :
    HoldsRows pageSize stride table reqsInfo out := by
  intro d r len idx info row hinfo hlen hidx hrow
  have hbacked := hback info (List.mem_of_getElem? hinfo)
  have hfits := hbacked.fits len (List.mem_of_getElem? hlen)
  have hwidth := table.width row (List.mem_of_getElem? hrow)
  have hcontiguous := hbacked.contiguous r len idx row hlen hidx hrow
  have hcap := le_pagesFor_mul hpage len
  have hgetD : table.rows.getD idx [] = row := by
    rw [List.getD_eq_getElem?_getD, hrow]
    rfl
  -- All cells of the request stand where it starts.
  have hcell (i : Nat) (hi : i < pagesFor pageSize len * pageSize) :
      out[requestStart pageSize stride d info r + i]? =
        (pageCells pageSize row (pagesFor pageSize len))[i]? := by
    have hplace := rankCells_getElem? table pageSize hlen hidx hi
    rw [hgetD] at hplace
    rw [requestStart, Nat.add_assoc, hwritten d info hinfo, hplace]
    rw [← length_rankCells table]
    by_contra hlong
    rw [List.getElem?_eq_none (Nat.le_of_not_lt hlong),
      List.getElem?_eq_getElem (by rw [length_pageCells]; exact hi)] at hplace
    cases hplace
  refine ⟨?_, ?_⟩
  · rw [← pageCells_take hpage (by omega) hcontiguous]
    apply List.ext_getElem?
    intro i
    rw [List.getElem?_take, List.getElem?_take]
    split
    · rw [List.getElem?_drop, hcell i (by omega)]
    · rfl
  · intro i hle hi
    have hpos : 0 < len := by
      by_contra hzero
      rw [Nat.eq_zero_of_not_pos hzero, pagesFor_zero hpage] at hi
      omega
    have hlast := List.getElem?_eq_getElem (l := row) (i := len - 1) (by omega)
    have hsame := same_page hpage hpos hle hi
    have hdecomp := Nat.div_add_mod i pageSize
    have hdecompLast := Nat.div_add_mod (len - 1) pageSize
    rw [hsame, Nat.mul_comm] at hdecomp
    rw [Nat.mul_comm] at hdecompLast
    have hstart := List.getElem?_eq_getElem (l := row) (i := (len - 1) / pageSize * pageSize)
      (by omega)
    have hcount := hcontiguous ((len - 1) / pageSize) ((len - 1) % pageSize) _ _
      (Nat.mod_lt _ hpage) (by rw [List.getElem?_take, if_pos (by omega), hstart])
      (by rw [hdecompLast, List.getElem?_take, if_pos (by omega), hlast])
    rw [hcell i hi, getElem?_pageCells hpage row hi, hsame, List.getD_eq_getElem?_getD, hstart,
      hlast, Option.map_some, hcount, Option.getD_some]
    congr 1
    omega

/-- The packed `cache_loc` holds the rows of its requests, in segments that do not
meet, and the padding is large enough for them whenever some rung is. -/
theorem mergeCacheLoc_spec :
    (∀ (cfg : LocSettings) (table : TokenTable) (reqsInfo : List RankInfo) (buf : List Nat)
      (total : Nat), 1 < cfg.pageSize → reqsInfo.length = cfg.dpSize →
      (∀ info ∈ reqsInfo, Backed table cfg.pageSize info) →
      totalCacheLocSize cfg (reqsInfo.map RankInfo.seqLens) = .ok total → total ≤ buf.length →
      (∀ info ∈ reqsInfo, alignedTotal cfg.pageSize info ≤ total / cfg.dpSize) →
      ∃ out, mergeCacheLoc cfg table reqsInfo buf = .ok out ∧ out.length = total ∧
        HoldsRows cfg.pageSize (total / cfg.dpSize) table reqsInfo out) ∧
    (∀ (pageSize stride d e g h : Nat) (info other : RankInfo), d ≠ e →
      alignedTotal pageSize info ≤ stride → alignedTotal pageSize other ≤ stride →
      g < alignedTotal pageSize info → h < alignedTotal pageSize other →
      d * stride + g ≠ e * stride + h) ∧
    (∀ (bsPaddings cacheLocPaddings : List Nat) (pageSize : Nat) (caps : List Int)
      (rungs : List Nat), rungs ∈ specCacheLocRungs bsPaddings cacheLocPaddings pageSize caps →
      ∀ (perRankLens : List (List Nat)) (perDpBs dpSize : Nat),
      (∃ rung ∈ rungs, ∀ lens ∈ perRankLens, (alignedLens pageSize lens).sum ≤ rung / dpSize) →
      ∃ padding, fitCacheLocPadding rungs (specCacheLocNeeds perRankLens perDpBs pageSize) dpSize =
          .ok padding ∧ padding ∈ rungs ∧
        ∀ lens ∈ perRankLens, (alignedLens pageSize lens).sum ≤ padding / dpSize) := by
  refine ⟨?_, ?_, ?_⟩
  · intro cfg table reqsInfo buf total hpage hdp hback htotal hbuf hfit
    have hroom : 0 + reqsInfo.length * (total / cfg.dpSize) ≤ (buf.take total).length := by
      rw [hdp, List.length_take, Nat.min_eq_left hbuf, Nat.zero_add]
      exact Nat.mul_div_le total cfg.dpSize
    obtain ⟨out, hout, hlen, -, hwritten⟩ := fillRanks_spec hpage hback hfit hroom
    refine ⟨out, ?_, ?_, ?_⟩
    · simp only [mergeCacheLoc, htotal, bind, Except.bind]
      rw [if_neg (by omega), hout]
    · rw [hlen, List.length_take, Nat.min_eq_left hbuf]
    · apply holdsRows_of_cells (by omega) hback
      intro d info hinfo g hg
      have := hwritten d info hinfo g hg
      rwa [Nat.zero_add] at this
  · intro pageSize stride d e g h info other hne hinfo hother hg hh heq
    have hd : (d * stride + g) / stride = d := by
      rw [Nat.mul_comm, Nat.mul_add_div (by omega), Nat.div_eq_of_lt (by omega), Nat.add_zero]
    have he : (e * stride + h) / stride = e := by
      rw [Nat.mul_comm, Nat.mul_add_div (by omega), Nat.div_eq_of_lt (by omega), Nat.add_zero]
    rw [heq, he] at hd
    exact hne hd.symm
  · intro bsPaddings cacheLocPaddings pageSize caps rungs hrungs perRankLens perDpBs dpSize h
    exact fitCacheLocPadding_spec (specCacheLocRungs_sorted hrungs) perRankLens perDpBs pageSize
      dpSize h

/-- Two rows of four slots, at pages of two. -/
def twoRows : TokenTable where
  rows := [[2, 3, 6, 7], [8, 9, 0, 0]]
  maxContextLen := 4
  width := by decide

/-- Three tokens in the first row and two in the second, each on a rank of its own. -/
def twoRanks : List RankInfo := [⟨[3], [0], rfl⟩, ⟨[2], [1], rfl⟩]

def extendLoc : LocSettings where
  mode := .extend
  bsPaddings := [2]
  cacheLocPaddings := [8]
  pageSize := 2
  perDpBsSize := 1
  dpSize := 2
  caps := [2]
  specCacheLocFit := false
  speculative := false

theorem twoRanks_merged :
    (∃ out, mergeCacheLoc extendLoc twoRows twoRanks (List.replicate 8 0) = .ok out ∧
      out.length = 8 ∧ HoldsRows 2 4 twoRows twoRanks out) ∧
    mergeCacheLoc extendLoc twoRows twoRanks (List.replicate 8 0) =
      .ok [2, 3, 6, 7, 8, 9, 0, 0] := by
  have hback : ∀ info ∈ twoRanks, Backed twoRows 2 info := by
    rintro info (_ | ⟨_, _ | ⟨_, _ | _⟩⟩)
    · refine ⟨by decide, by decide, ?_⟩
      rintro (_ | r) len idx row hlen hidx hrow
      · cases hlen
        cases hidx
        cases hrow
        decide
      · cases hlen
    · refine ⟨by decide, by decide, ?_⟩
      rintro (_ | r) len idx row hlen hidx hrow
      · cases hlen
        cases hidx
        cases hrow
        decide
      · cases hlen
  exact ⟨mergeCacheLoc_spec.1 extendLoc twoRows twoRanks (List.replicate 8 0) 8 (by decide) rfl
    hback rfl (by decide) (by decide), by decide⟩

end SglJax.Managers.CacheLoc
