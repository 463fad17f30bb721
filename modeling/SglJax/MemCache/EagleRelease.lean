import SglJax.MemCache.KvConservation
import SglJax.MemCache.ReleaseCalls

/-! Releasing a request of an EAGLE `RadixCache`. A key of bigrams is one shorter
than the slots, so the slot of the last committed token has no place in the tree. -/
namespace SglJax.MemCache

open Foundation Foundation.NodeTable

/-! ### Which pages go where -/

section Pages

/-- The pages of a row: `kept` are the tree's, `whole` is how many the bigrams fill,
`used` how many hold committed slots, `found` how many the tree had. The tail is
given back from page `whole` on, the rest up to `found`. -/
theorem accounted_iff {kept whole used found total : Nat} {paged matched : Prop} [Decidable paged]
    [Decidable matched] (hused : used = 0 ∧ whole = 0 ∨ used = whole + 1) (hkept : kept ≤ used)
    (htotal : used ≤ total) (hfound : found ≤ whole) (hlong : kept ≤ whole → kept ≤ found)
    (hpos : ¬ matched → 0 < kept) :
    (∀ k < total, Accounted (k < kept) (k < kept ∨ found ≤ k ∧ k < whole)
      ((if paged then if whole ≤ k ∧ k < used then 1 else 0 else 0) +
        (if matched then if kept ≤ k ∧ k < found then 1 else 0
          else if kept ≤ found ∧ kept - 1 ≤ k ∧ k < found then 1 else 0) +
        if used ≤ k then 1 else 0)) ↔
    ¬ paged ∧ kept = used ∨ paged ∧ matched ∧ kept ≤ whole := by
  constructor
  · intro hall
    by_cases hpaged : paged
    · refine .inr ⟨hpaged, ?_⟩
      by_cases hle : kept ≤ whole
      · refine ⟨?_, hle⟩
        by_contra hmatched
        have hfirst := hpos hmatched
        have := hlong hle
        have hzero := (hall (kept - 1) (by omega)).kept (by omega)
        rw [if_neg hmatched] at hzero
        split_ifs at hzero <;> omega
      · have hzero := (hall whole (by omega)).kept (by omega)
        split_ifs at hzero <;> omega
    · refine .inl ⟨hpaged, ?_⟩
      by_contra hne
      have hone := (hall whole (by omega)).gone (by omega)
      split_ifs at hone <;> omega
  · rintro (⟨hpaged, heq⟩ | ⟨hpaged, hmatched, hle⟩) k hk
    · unfold Accounted
      split_ifs <;> omega
    · have := hlong hle
      unfold Accounted
      split_ifs <;> omega

/-- The committed slots take one page more than the bigrams fill. -/
theorem pagesFor_eq_succ {pageSize : Nat} (hpage : 0 < pageSize) (n : Nat) :
    pagesFor pageSize n = 0 ∧ (n - 1) / pageSize = 0 ∨
      pagesFor pageSize n = (n - 1) / pageSize + 1 := by
  rcases Nat.eq_zero_or_pos n with rfl | hpos
  · exact .inl ⟨pagesFor_zero hpage, Nat.zero_div _⟩
  · right
    rw [pagesFor, ← Nat.add_div_right _ hpage]
    congr 1
    omega

end Pages

namespace RadixCache

variable {c d : RadixCache} {rank slot : Nat} {req : KvReq} {isInsert : Bool}

/-! ### What the tree gains -/

theorem Cuts.inTree_iff (cuts : Cuts c d) (valid : Valid c) :
    InTree values d.tree rank slot ↔ InTree values c.tree rank slot := by
  refine (cuts.preserves (P := fun d =>
    InTree values d.tree rank slot ↔ InTree values c.tree rank slot) ?_ valid Iff.rfl).2
  intro e child n bottomSlot valid' h cut
  exact (inTree_splice (cut.clean valid') valid'.tree (cut.values_halves valid').2).trans h

theorem inTree_decLockRef (c : RadixCache) (node : Nat) :
    InTree values (c.decLockRef node).1.tree rank slot ↔ InTree values c.tree rank slot := by
  have hfold (nodes : List (TreeNode RadixNode)) (state : RadixCache × Int) :
      InTree values (nodes.foldl unlockStep state).1.tree rank slot ↔
        InTree values state.1.tree rank slot := by
    induction nodes generalizing state with
    | nil => exact Iff.rfl
    | cons n nodes ih =>
      rw [List.foldl_cons, ih, unlockStep_tree, relock]
      exact inTree_modify (fun _ => rfl) fun _ => rfl
  unfold decLockRef
  split
  · exact Iff.rfl
  · exact hfold _ _

/-- Inserting the bigrams of a key: the tree gains the slots past those it had. -/
theorem insert_inTree (valid : Valid c) (henabled : c.disable = false) (hEagle : c.isEagle = true)
    {key : RadixKey} {value : List Nat} (h : Lookup c (c.storedKey key))
    (hlen : value.length = (c.storedKey key).length) :
    ∃ d n, c.insert key value = .ok (d, n) ∧ d.pageSize = c.pageSize ∧ n % c.pageSize = 0 ∧
      n ≤ value.length ∧
      (∀ m slots, m % c.pageSize = 0 → m ≤ value.length →
        Stored values c.tree ((c.storedKey key).take m) slots → m ≤ n) ∧
      ∀ rank slot, InTree values d.tree rank slot ↔
        InTree values c.tree rank slot ∨ key.rank = rank ∧ slot ∈ value.drop n := by
  have heq : c.insert key value = c.insertHelper (c.storedKey key) value := by
    unfold insert
    rw [henabled, if_neg (by simp)]
    change c.insertHelper (c.storedKey key)
      (if c.isEagle then value.take (c.storedKey key).length else value) = _
    rw [hEagle, if_pos rfl, ← hlen, List.take_length]
  obtain ⟨e, node, rows, reached, hmax, hcase⟩ := insertHelper_cases valid h hlen
  have valid' := reached.cuts.valid valid
  have hpage := reached.cuts.settings.1
  have halign := valid'.tree.spell_aligned reached.walk.path.mem
  rw [hpage] at halign
  have hle := reached.walk.length_le
  rw [← hlen] at hle hmax
  rw [heq]
  rcases hcase with ⟨hfull, heq⟩ | ⟨-, entry, fits, heq⟩
  · refine ⟨e, _, heq, hpage, halign, hle, hmax, ?_⟩
    intro rank slot
    rw [hfull, ← hlen, List.drop_length, reached.cuts.inTree_iff valid]
    simp
  · refine ⟨_, _, heq, hpage, halign, hle, hmax, ?_⟩
    intro rank slot
    rw [← reached.cuts.inTree_iff valid]
    exact inTree_attach

/-! ### The calls of a release -/

/-- The pages that the bigrams of the committed tokens fill. -/
def wholePages (pageSize : Nat) (req : KvReq) : Nat := (req.kvCommittedLen - 1) / pageSize

theorem pageAlignedLen_eagle (hEagle : c.isEagle = true) (req : KvReq) :
    KvCache.pageAlignedLen c req.kvCommittedLen = wholePages c.pageSize req * c.pageSize := by
  unfold KvCache.pageAlignedLen wholePages
  rw [hEagle, if_pos rfl]
  split
  · rfl
  · rename_i hone
    rw [not_not.mp hone, Nat.div_one, Nat.mul_one]

theorem oldPrefixLen_eagle (hEagle : c.isEagle = true) (req : KvReq) :
    KvCache.oldPrefixLen c req = if req.cacheProtectedLen ≤ req.lastMatchedPrefixLen then
      req.cacheProtectedLen else req.cacheProtectedLen - 1 := by
  unfold KvCache.oldPrefixLen
  rw [hEagle, Bool.true_and]
  by_cases hle : req.cacheProtectedLen ≤ req.lastMatchedPrefixLen
  · rw [if_pos hle, if_neg (by simpa using hle)]
  · rw [if_neg hle, if_pos (by simpa using hle)]

theorem wholePages_le (pageSize : Nat) (req : KvReq) :
    wholePages pageSize req * pageSize ≤ req.kvCommittedLen - 1 := Nat.div_mul_le_self _ _

/-- The first slots of the row have whole pages. -/
theorem protected_eq (valid : Valid c) (h : TreeOwned values c.pageSize c.tree req) :
    req.cacheProtectedLen = req.cacheProtectedLen / c.pageSize * c.pageSize := by
  obtain ⟨rows, hpath, -, -, hslots⟩ := h.path
  have hlen := length_flatMap_eq values fun m hm => valid.value_len m (hpath.mem m hm)
  have halign := valid.tree.spell_aligned hpath.mem
  have hle := h.low.trans h.high
  rw [hslots, List.length_take, Nat.min_eq_left hle] at hlen
  rw [← hlen] at halign
  exact (Nat.div_mul_cancel (Nat.dvd_of_mod_eq_zero halign)).symm

/-- The key under which the whole pages are inserted. -/
theorem storedKey_insert (hEagle : c.isEagle = true) (h : TreeOwned values c.pageSize c.tree req) :
    c.storedKey ((buildRadixKey req req.kvCommittedLen).take
      (KvCache.pageAlignedTokenLen c req.kvCommittedLen)) =
      (c.storedKey req.key).take (wholePages c.pageSize req * c.pageSize) := by
  have hle := wholePages_le c.pageSize req
  unfold KvCache.pageAlignedTokenLen
  rw [pageAlignedLen_eagle hEagle, hEagle, if_pos rfl]
  unfold storedKey buildRadixKey RadixKey.take keyConvertFn
  dsimp only
  rw [hEagle, if_pos rfl, if_pos rfl, List.take_take]
  rcases Nat.eq_zero_or_pos req.kvCommittedLen with hzero | hpos
  · have hwhole : wholePages c.pageSize req * c.pageSize = 0 := by omega
    simp [hzero, hwhole, convertToBigramKey]
  · rw [Nat.min_eq_left (by omega), convertToBigramKey_take h.ids]

theorem insert_release (valid : Valid c) (henabled : c.disable = false) (hEagle : c.isEagle = true)
    (h : TreeOwned values c.pageSize c.tree req) :
    ∃ d found, c.insert ((buildRadixKey req req.kvCommittedLen).take
        (KvCache.pageAlignedTokenLen c req.kvCommittedLen))
        (req.row.take (wholePages c.pageSize req * c.pageSize)) =
        .ok (d, found * c.pageSize) ∧
      d.pageSize = c.pageSize ∧ found ≤ wholePages c.pageSize req ∧
      (req.cacheProtectedLen / c.pageSize ≤ wholePages c.pageSize req →
        req.cacheProtectedLen / c.pageSize ≤ found) ∧
      ∀ i slot, req.row[i]? = some slot → (InTree values d.tree req.key.rank slot ↔
        InTree values c.tree req.key.rank slot ∨
          found ≤ i / c.pageSize ∧ i / c.pageSize < wholePages c.pageSize req) := by
  have hpage := valid.page_pos
  have hwhole := wholePages_le c.pageSize req
  have hhigh := h.high
  have hkeyLen := c.storedKey_length h.ids
  rw [hEagle, if_pos rfl] at hkeyLen
  have hkey := storedKey_insert hEagle h
  have hkeyLe := h.key_le
  have hrow : (req.row.take (wholePages c.pageSize req * c.pageSize)).length =
      wholePages c.pageSize req * c.pageSize := by
    rw [List.length_take]
    omega
  have hlookup : Lookup c ((c.storedKey req.key).take (wholePages c.pageSize req * c.pageSize)) := by
    refine ⟨?_, (c.storedKey_kind h.ids).take _⟩
    rw [RadixKey.length_take, hkeyLen, Nat.min_eq_left (by omega), Nat.mul_mod_left]
  obtain ⟨d, n, heq, hsize, halign, hle, hlong, hin⟩ :=
    insert_inTree valid henabled hEagle (hkey ▸ hlookup) (by
      rw [hkey, hrow, RadixKey.length_take, hkeyLen, Nat.min_eq_left (by omega)])
  obtain ⟨found, rfl⟩ : ∃ found, n = found * c.pageSize :=
    ⟨n / c.pageSize, (Nat.div_mul_cancel (Nat.dvd_of_mod_eq_zero halign)).symm⟩
  rw [hrow] at hle hlong
  refine ⟨d, found, heq, hsize, Nat.le_of_mul_le_mul_right hle hpage, ?_, ?_⟩
  · intro hkept
    have hprot := protected_eq valid h
    have hmul := Nat.mul_le_mul_right c.pageSize hkept
    rw [← hprot] at hmul
    have haligned : req.cacheProtectedLen % c.pageSize = 0 := by
      rw [hprot]
      exact Nat.mul_mod_left _ _
    obtain ⟨rows, hpath, hspace, hspell, -⟩ := h.path
    have hcovers : Covers c.tree ((c.storedKey ((buildRadixKey req req.kvCommittedLen).take
        (KvCache.pageAlignedTokenLen c req.kvCommittedLen))).take req.cacheProtectedLen) rows := by
      rw [hkey, RadixKey.take_take, Nat.min_eq_left hmul]
      refine ⟨⟨_, hpath⟩, hspace, ?_⟩
      rw [hspell]
      unfold storedKey keyConvertFn
      rw [hEagle, if_pos rfl]
      exact List.prefix_refl _
    have hgo := hlong _ _ haligned hmul ⟨rows, hcovers, rfl⟩
    rw [hprot] at hgo
    exact Nat.le_of_mul_le_mul_right hgo hpage
  · intro i slot hi
    rw [hin]
    refine or_congr Iff.rfl ?_
    constructor
    · rintro ⟨-, hslot⟩
      obtain ⟨k, hk⟩ := List.mem_iff_getElem?.mp hslot
      rw [List.getElem?_drop, List.getElem?_take] at hk
      split at hk
      · have hplace := (h.row.page_inj hk hi).mp rfl
        rw [← hplace]
        refine ⟨(Nat.le_div_iff_mul_le hpage).mpr (by omega), ?_⟩
        rwa [Nat.div_lt_iff_lt_mul hpage]
      · cases hk
    · rintro ⟨hlow, hlt⟩
      rw [Nat.le_div_iff_mul_le hpage] at hlow
      rw [Nat.div_lt_iff_lt_mul hpage] at hlt
      refine ⟨rfl, List.mem_of_getElem? (i := i - found * c.pageSize) ?_⟩
      rw [List.getElem?_drop, List.getElem?_take, Nat.add_sub_cancel' hlow, if_pos hlt, hi]

/-- The calls by the pages they start and end at. -/
theorem releaseCalls_spec (valid : Valid c) (henabled : c.disable = false)
    (hEagle : c.isEagle = true) (h : TreeOwned values c.pageSize c.tree req) (isInsert : Bool) :
    ∃ d found, c.releaseCalls req isInsert = .ok (d,
        ((if c.pageSize ≠ 1 then [⟨slice req.row (wholePages c.pageSize req * c.pageSize)
            req.kvCommittedLen, req.key.rank⟩] else []) ++
          [⟨slice req.row (KvCache.oldPrefixLen c req) (found * c.pageSize), req.key.rank⟩]) ++
          overallocatedCalls c.pageSize req) ∧
      found ≤ wholePages c.pageSize req ∧
      (req.cacheProtectedLen / c.pageSize ≤ wholePages c.pageSize req →
        req.cacheProtectedLen / c.pageSize ≤ found) ∧
      ∀ i slot, req.row[i]? = some slot → (InTree values d.tree req.key.rank slot ↔
        InTree values c.tree req.key.rank slot ∨
          found ≤ i / c.pageSize ∧ i / c.pageSize < wholePages c.pageSize req) := by
  have hwhole := wholePages_le c.pageSize req
  have hfilter : (req.row.take req.kvCommittedLen).filter (· ≠ 0) =
      req.row.take req.kvCommittedLen := h.row.filter_eq fun _ hslot => List.mem_of_mem_take hslot
  unfold releaseCalls finishCalls
  dsimp only
  rw [hfilter, henabled, if_neg Bool.false_ne_true, pageAlignedLen_eagle hEagle]
  cases isInsert with
  | false =>
    refine ⟨(c.decLockRef req.lastNode).1, wholePages c.pageSize req, ?_, le_rfl, id, ?_⟩
    · change Except.ok ((c.decLockRef req.lastNode).1,
        (_ ++ [⟨slice (req.row.take req.kvCommittedLen) _ _, req.key.rank⟩]) ++
          overallocatedCalls (c.decLockRef req.lastNode).1.pageSize req) = _
      rw [decLockRef_pageSize, slice_take (by omega)]
      rfl
    · intro i slot _
      rw [inTree_decLockRef]
      exact (or_iff_left fun ⟨hle, hlt⟩ => absurd hlt (by omega)).symm
  | true =>
    obtain ⟨d, found, heq, hpage, hfound, hlong, hin⟩ := insert_release valid henabled hEagle h
    have hle := Nat.mul_le_mul_right c.pageSize hfound
    have htake : (req.row.take req.kvCommittedLen).take (wholePages c.pageSize req * c.pageSize) =
        req.row.take (wholePages c.pageSize req * c.pageSize) := by
      rw [List.take_take, Nat.min_eq_left (by omega)]
    refine ⟨(d.decLockRef req.lastNode).1, found, ?_, hfound, hlong, ?_⟩
    · rw [if_pos rfl, htake, heq]
      change Except.ok ((d.decLockRef req.lastNode).1,
        (_ ++ [⟨slice (req.row.take req.kvCommittedLen) _ _, req.key.rank⟩]) ++
          overallocatedCalls (d.decLockRef req.lastNode).1.pageSize req) = _
      rw [decLockRef_pageSize, hpage, slice_take (by omega)]
      rfl
    · intro i slot hi
      rw [inTree_decLockRef]
      exact hin i slot hi

/-- A disabled cache has nothing to keep and frees everything. -/
theorem release_disabled (hdisable : c.disable = true) (hclear : c.tree = [])
    (h : TreeOwned values c.pageSize c.tree req) (isInsert : Bool) :
    ∃ calls, c.releaseCalls req isInsert = .ok (c, calls) ∧
      AllAccounted values c.pageSize c.tree c.tree calls req := by
  have hfilter : (req.row.take req.kvCommittedLen).filter (· ≠ 0) =
      req.row.take req.kvCommittedLen := h.row.filter_eq fun _ hslot => List.mem_of_mem_take hslot
  refine ⟨_, ?_, h.disabled_accounted (h.protected_eq_zero hclear)⟩
  unfold releaseCalls finishCalls
  dsimp only
  rw [hfilter, hdisable, if_pos rfl]
  rfl

theorem protected_pos (valid : Valid c) (h : TreeOwned values c.pageSize c.tree req)
    (hshort : ¬ req.cacheProtectedLen ≤ req.lastMatchedPrefixLen) :
    0 < req.cacheProtectedLen / c.pageSize := by
  have hprot := protected_eq valid h
  rcases Nat.eq_zero_or_pos (req.cacheProtectedLen / c.pageSize) with hzero | hpos
  · rw [hzero] at hprot
    omega
  · exact hpos

theorem freed_tail (h : TreeOwned values c.pageSize c.tree req) {i : Nat}
    (hi : req.row[i]? = some slot) :
    freedTimes c.pageSize req.key.rank slot (if c.pageSize ≠ 1 then
        [⟨slice req.row (wholePages c.pageSize req * c.pageSize) req.kvCommittedLen,
          req.key.rank⟩] else []) =
      if c.pageSize ≠ 1 then if wholePages c.pageSize req ≤ i / c.pageSize ∧
        i / c.pageSize < pagesFor c.pageSize req.kvCommittedLen then 1 else 0 else 0 := by
  split
  · exact h.row.freed_page _ hi h.high
  · rfl

theorem freed_old (valid : Valid c) (hEagle : c.isEagle = true)
    (h : TreeOwned values c.pageSize c.tree req) {i found : Nat} (hi : req.row[i]? = some slot)
    (hfound : found * c.pageSize ≤ req.row.length) :
    freedTimes c.pageSize req.key.rank slot [⟨slice req.row (KvCache.oldPrefixLen c req)
        (found * c.pageSize), req.key.rank⟩] =
      if req.cacheProtectedLen ≤ req.lastMatchedPrefixLen then
        if req.cacheProtectedLen / c.pageSize ≤ i / c.pageSize ∧ i / c.pageSize < found then 1 else 0
      else if req.cacheProtectedLen / c.pageSize ≤ found ∧
        req.cacheProtectedLen / c.pageSize - 1 ≤ i / c.pageSize ∧ i / c.pageSize < found then 1
      else 0 := by
  have hprot := protected_eq valid h
  rw [oldPrefixLen_eagle hEagle]
  split
  · conv_lhs => rw [hprot]
    rw [h.row.freed_page _ hi hfound, pagesFor_mul valid.page_pos]
  · rename_i hshort
    conv_lhs => rw [hprot]
    exact h.row.freed_before _ hi (protected_pos valid h hshort) hfound

/-- When a release of an EAGLE request accounts for every slot. -/
theorem release_accounted_iff (valid : Valid c) (hEagle : c.isEagle = true)
    (hclear : c.disable = true → c.tree = []) (h : TreeOwned values c.pageSize c.tree req)
    (isInsert : Bool) :
    ∃ d calls, c.releaseCalls req isInsert = .ok (d, calls) ∧
      (AllAccounted values c.pageSize c.tree d.tree calls req ↔
        c.disable = true ∨ c.pageSize = 1 ∧ req.cacheProtectedLen = req.kvCommittedLen ∨
          c.pageSize ≠ 1 ∧ req.cacheProtectedLen ≤ req.lastMatchedPrefixLen ∧
            (req.cacheProtectedLen < req.kvCommittedLen ∨ req.cacheProtectedLen = 0)) := by
  cases hdisable : c.disable with
  | true =>
    obtain ⟨calls, heq, hall⟩ := release_disabled hdisable (hclear hdisable) h isInsert
    exact ⟨c, calls, heq, iff_of_true hall (.inl rfl)⟩
  | false =>
    obtain ⟨d, found, heq, hfound, hlong, hin⟩ := releaseCalls_spec valid hdisable hEagle h isInsert
    refine ⟨d, _, heq, ?_⟩
    have hpage := valid.page_pos
    have hprot := protected_eq valid h
    have hwhole := wholePages_le c.pageSize req
    have hhigh := h.high
    have hle := Nat.mul_le_mul_right c.pageSize hfound
    have hkept : req.cacheProtectedLen / c.pageSize ≤ pagesFor c.pageSize req.kvCommittedLen :=
      (Nat.div_le_div_right h.low).trans (div_le_pagesFor hpage _)
    rw [h.allAccounted_iff hprot (fun k => found ≤ k ∧ k < wholePages c.pageSize req)
      (fun k =>
        (if c.pageSize ≠ 1 then if wholePages c.pageSize req ≤ k ∧
            k < pagesFor c.pageSize req.kvCommittedLen then 1 else 0 else 0) +
          (if req.cacheProtectedLen ≤ req.lastMatchedPrefixLen then
            if req.cacheProtectedLen / c.pageSize ≤ k ∧ k < found then 1 else 0
          else if req.cacheProtectedLen / c.pageSize ≤ found ∧
            req.cacheProtectedLen / c.pageSize - 1 ≤ k ∧ k < found then 1 else 0) +
          if pagesFor c.pageSize req.kvCommittedLen ≤ k then 1 else 0)]
    · have hused : pagesFor c.pageSize req.kvCommittedLen = 0 ∧ wholePages c.pageSize req = 0 ∨
          pagesFor c.pageSize req.kvCommittedLen = wholePages c.pageSize req + 1 :=
        pagesFor_eq_succ hpage _
      rw [accounted_iff hused hkept (pagesFor_mono hpage hhigh) hfound hlong
        (protected_pos valid h)]
      simp only [Bool.false_eq_true, false_or, not_not, ne_eq]
      refine or_congr (and_congr_right fun hone => ?_)
        (and_congr_right fun _ => and_congr_right fun _ => ?_)
      · rw [hone, Nat.div_one, pagesFor, Nat.div_one, Nat.add_sub_cancel]
      · rw [wholePages, Nat.le_div_iff_mul_le hpage, ← hprot]
        omega
    · intro i slot hi
      have hpages : i < req.cacheProtectedLen ↔
          i / c.pageSize < req.cacheProtectedLen / c.pageSize := by
        rw [Nat.div_lt_iff_lt_mul hpage, ← hprot]
      rw [hin i slot hi, h.inTree_iff hi, hpages]
    · intro i slot hi
      rw [freedTimes_append, freedTimes_append, freed_overallocated h.row hi,
        freed_old valid hEagle h hi (by omega), freed_tail h hi]

end RadixCache
end SglJax.MemCache
