import SglJax.Foundation.Results
import SglJax.MemCache.EagleRelease
import SglJax.MemCache.UnifiedInsert

/-! Releasing a request of an EAGLE `UnifiedRadixCache`. What the tree has is freed
while the key is inserted, so the calls start at the request's own pages whatever
the tree takes up. -/
namespace SglJax.MemCache

open Foundation Foundation.NodeTable

/-! ### Which pages go where -/

section Pages

/-- The pages of a row: `kept` are the tree's, `whole` is how many the bigrams fill,
`used` how many hold committed slots, `cached` how many were inserted. Of these
the tree takes up the ones in `adopted`. -/
theorem accounted_adopted_iff {kept whole used cached old total : Nat} {adopted : Nat → Bool}
    {paged matched : Prop} [Decidable paged] [Decidable matched]
    (hused : used = 0 ∧ whole = 0 ∨ used = whole + 1) (hkept : kept ≤ used) (htotal : used ≤ total)
    (hcached : cached ≤ whole) (hold : old = if matched then kept else kept - 1)
    (hstored : ∀ k < kept, k < cached → adopted k = false) (hpos : ¬ matched → 0 < kept) :
    (∀ k < total, Accounted (k < kept) (k < kept ∨ k < cached ∧ adopted k = true)
      ((if cached ≤ k ∧ old ≤ k ∧ k < (if paged then used else whole) then 1 else 0) +
        (if k < cached ∧ old ≤ k ∧ adopted k = false then 1 else 0) +
        if used ≤ k then 1 else 0)) ↔
    ¬ paged ∧ kept = used ∨ paged ∧ matched := by
  constructor
  · intro hall
    by_cases hpaged : paged
    · refine .inr ⟨hpaged, ?_⟩
      by_contra hmatched
      have hfirst := hpos hmatched
      rw [if_neg hmatched] at hold
      have hzero := (hall (kept - 1) (by omega)).kept (by omega)
      have hkeep := hstored (kept - 1) (by omega)
      rw [if_pos hpaged] at hzero
      by_cases hlt : kept - 1 < cached
      · rw [if_neg (by omega), if_pos ⟨hlt, by omega, hkeep hlt⟩] at hzero
        omega
      · rw [if_pos (by omega)] at hzero
        omega
    · refine .inl ⟨hpaged, ?_⟩
      by_contra hne
      have hone := (hall whole (by omega)).gone (by omega)
      rw [if_neg hpaged, if_neg (by omega), if_neg (by omega), if_neg (by omega)] at hone
      omega
  · intro hcase k hk
    have hend : ∀ j < kept, j < cached ∨ cached ≤ j := fun j _ => Nat.lt_or_ge j cached
    by_cases hlt : k < kept
    · -- A page of the tree is past none of the places where freeing starts.
      have hkeep := hstored k hlt
      refine .inl ⟨hlt, .inl hlt, ?_⟩
      rcases hcase with ⟨hpaged, heq⟩ | ⟨hpaged, hmatched⟩
      · rw [if_neg hpaged, if_neg ?_, if_neg ?_, if_neg (by omega)]
        · split_ifs at hold <;> omega
        · split_ifs at hold <;> omega
      · rw [if_pos hmatched] at hold
        rw [if_neg (by omega), if_neg (by omega), if_neg (by omega)]
    · have holdLe : old ≤ k := by
        split_ifs at hold <;> omega
      by_cases hin : k < cached
      · cases hadopted : adopted k with
        | true =>
          refine .inr (.inl ⟨hlt, .inr ⟨hin, rfl⟩, ?_⟩)
          rw [if_neg (by omega), if_neg (by simp), if_neg (by omega)]
        | false =>
          refine .inr (.inr ⟨hlt, by simp [hlt], ?_⟩)
          rw [if_neg (by omega), if_pos ⟨hin, holdLe, rfl⟩, if_neg (by omega)]
      · refine .inr (.inr ⟨hlt, by simp [hlt, hin], ?_⟩)
        rw [if_neg (c := k < cached ∧ _) (by simp [hin])]
        rcases hcase with ⟨hpaged, heq⟩ | ⟨hpaged, -⟩
        · rw [if_neg hpaged, if_neg (by omega), if_pos (by omega)]
        · rw [if_pos hpaged]
          split_ifs <;> omega

/-- What is left of a row from the later of two places on, by its pages. -/
theorem between_tail {pageSize start stop k : Nat} (hpage : 0 < pageSize)
    (h : start < stop ∨ start = stop ∧ start % pageSize = 0) :
    Between pageSize start stop k ↔ start / pageSize ≤ k ∧ k < pagesFor pageSize stop := by
  rw [between_iff hpage]
  rcases h with hlt | ⟨rfl, hmod⟩
  · exact and_iff_right hlt
  · rw [pagesFor_of_dvd hpage hmod]
    omega

end Pages

namespace UnifiedCache

variable {c d : UnifiedCache} {rank slot : Nat} {req : KvReq} {isInsert : Bool}
  {cacheLens : List (Option Nat)}

theorem effectiveCacheLen_le (keyLen : Nat) (cacheLens : List (Option Nat)) :
    effectiveCacheLen keyLen cacheLens ≤ keyLen := by
  unfold effectiveCacheLen
  induction cacheLens generalizing keyLen with
  | nil => exact le_rfl
  | cons cacheLen rest ih =>
    refine (ih _).trans ?_
    cases cacheLen with
    | none => exact le_rfl
    | some len => exact Nat.min_le_left keyLen len

/-- The length up to which the key may be cached. -/
def cacheLen (req : KvReq) (isInsert : Bool) (cacheLens : List (Option Nat)) : Nat :=
  if isInsert then effectiveCacheLen req.kvCommittedLen cacheLens else req.kvCommittedLen

/-- The pages that are inserted, or freed in place of it. -/
def cachedPages (pageSize : Nat) (req : KvReq) (isInsert : Bool) (cacheLens : List (Option Nat)) :
    Nat :=
  min (req.kvCommittedLen - 1) (cacheLen req isInsert cacheLens) / pageSize

theorem cachedPages_le (pageSize : Nat) (req : KvReq) (isInsert : Bool)
    (cacheLens : List (Option Nat)) :
    cachedPages pageSize req isInsert cacheLens ≤ RadixCache.wholePages pageSize req :=
  Nat.div_le_div_right (Nat.min_le_left _ _)

theorem cachedPages_mul_le (pageSize : Nat) (req : KvReq) (isInsert : Bool)
    (cacheLens : List (Option Nat)) :
    cachedPages pageSize req isInsert cacheLens * pageSize ≤ req.kvCommittedLen - 1 :=
  (Nat.div_mul_le_self _ _).trans (Nat.min_le_left _ _)

/-! ### The request's path -/

/-- The path that spells as much as it has slots has all its values. -/
theorem isSome_of_length {rows : List (TreeNode UnifiedNode)} (valid : Valid c)
    (hmem : ∀ n ∈ rows, n ∈ c.tree) (h : (spell rows).length ≤ (rows.flatMap slots).length) :
    (rows.flatMap slots).length = (spell rows).length ∧ ∀ n ∈ rows, n.data.value.isSome := by
  have hle : ∀ rest : List (TreeNode UnifiedNode), (∀ n ∈ rest, n ∈ c.tree) →
      (rest.flatMap slots).length ≤ (spell rest).length := by
    intro rest hrest
    induction rest with
    | nil => exact le_rfl
    | cons n rest ih =>
      have := ih fun m hm => hrest m (List.mem_cons_of_mem _ hm)
      have hn : (slots n).length ≤ (label n).tokenIds.length := by
        unfold slots
        cases hvalue : n.data.value with
        | none => exact Nat.zero_le _
        | some value => exact (valid.value_len n (hrest n List.mem_cons_self) value hvalue).le
      rw [List.flatMap_cons, List.length_append, spell_cons, List.length_append]
      omega
  induction rows with
  | nil => exact ⟨rfl, by simp⟩
  | cons n rows ih =>
    have hrest := hle rows fun m hm => hmem m (List.mem_cons_of_mem _ hm)
    have hn := hle [n] fun m hm => hmem m (by
      rw [List.mem_singleton.mp hm]
      exact List.mem_cons_self)
    rw [List.flatMap_singleton, spell_singleton] at hn
    rw [List.flatMap_cons, List.length_append, spell_cons, List.length_append] at h ⊢
    obtain ⟨hlen, hsome⟩ := ih (fun m hm => hmem m (List.mem_cons_of_mem _ hm)) (by omega)
    refine ⟨by omega, ?_⟩
    intro m hm
    rcases List.mem_cons.mp hm with rfl | hm
    · have hpos := List.length_pos_iff.mpr (valid.tree.key_ne m (hmem m List.mem_cons_self))
      by_contra hnone
      rw [Option.not_isSome_iff_eq_none] at hnone
      have hzero : (slots m).length = 0 := by
        rw [slots, hnone]
        rfl
      omega
    · exact hsome m hm

/-- The first slots of the row have whole pages, on nodes with their values. -/
theorem resident_protected (valid : Valid c) (hEagle : c.isEagle = true)
    (h : TreeOwned slots c.pageSize c.tree req) :
    req.cacheProtectedLen = req.cacheProtectedLen / c.pageSize * c.pageSize ∧
      Resident c ((c.storedKey req.key).take req.cacheProtectedLen) := by
  obtain ⟨rows, hpath, hspace, hspell, hslots⟩ := h.path
  have hle := h.low.trans h.high
  have hlong := congrArg List.length hslots
  rw [List.length_take, Nat.min_eq_left hle] at hlong
  have hshort : (spell rows).length ≤ req.cacheProtectedLen := by
    rw [hspell]
    exact List.length_take_le _ _
  obtain ⟨hlen, hsome⟩ := isSome_of_length valid hpath.mem (by omega)
  have halign := valid.tree.spell_aligned hpath.mem
  rw [← hlen, hlong] at halign
  refine ⟨(Nat.div_mul_cancel (Nat.dvd_of_mod_eq_zero halign)).symm, rows,
    ⟨⟨_, hpath⟩, hspace, ?_⟩, hsome⟩
  rw [hspell]
  unfold storedKey keyConvertFn
  rw [hEagle, if_pos rfl]
  exact List.prefix_refl _

theorem oldPrefixLen_eagle (hEagle : c.isEagle = true) (req : KvReq) :
    c.oldPrefixLen req = if req.cacheProtectedLen ≤ req.lastMatchedPrefixLen then
      req.cacheProtectedLen else req.cacheProtectedLen - 1 := by
  unfold oldPrefixLen
  rw [hEagle, Bool.true_and]
  by_cases hle : req.cacheProtectedLen ≤ req.lastMatchedPrefixLen
  · rw [if_pos hle, if_neg (by simpa using hle)]
  · rw [if_neg hle, if_pos (by simpa using hle)]

theorem protected_pos (valid : Valid c) (hEagle : c.isEagle = true)
    (h : TreeOwned slots c.pageSize c.tree req)
    (hshort : ¬ req.cacheProtectedLen ≤ req.lastMatchedPrefixLen) :
    0 < req.cacheProtectedLen / c.pageSize := by
  obtain ⟨hprot, -⟩ := resident_protected valid hEagle h
  rcases Nat.eq_zero_or_pos (req.cacheProtectedLen / c.pageSize) with hzero | hpos
  · rw [hzero] at hprot
    omega
  · exact hpos

/-- The page at which freeing starts. -/
theorem oldPrefixLen_div (valid : Valid c) (hEagle : c.isEagle = true)
    (h : TreeOwned slots c.pageSize c.tree req) :
    c.oldPrefixLen req / c.pageSize = if req.cacheProtectedLen ≤ req.lastMatchedPrefixLen then
      req.cacheProtectedLen / c.pageSize else req.cacheProtectedLen / c.pageSize - 1 := by
  have hpage := valid.page_pos
  rw [oldPrefixLen_eagle hEagle]
  split
  · rfl
  · rename_i hshort
    have hpos := protected_pos valid hEagle h hshort
    obtain ⟨hprot, -⟩ := resident_protected valid hEagle h
    obtain ⟨m, hm⟩ : ∃ m, req.cacheProtectedLen / c.pageSize = m + 1 :=
      ⟨req.cacheProtectedLen / c.pageSize - 1, by omega⟩
    rw [hm] at hprot ⊢
    rw [hprot, Nat.add_mul, Nat.one_mul, Nat.add_sub_assoc hpage, Nat.mul_comm,
      Nat.mul_add_div hpage, Nat.div_eq_of_lt (by omega), Nat.add_zero, Nat.add_sub_cancel]

/-! ### The calls of a release -/

theorem storedKey_take (hEagle : c.isEagle = true) (h : TreeOwned slots c.pageSize c.tree req)
    {n : Nat} (hn : n ≤ req.kvCommittedLen - 1) :
    c.storedKey ((buildRadixKey req req.kvCommittedLen).take (n + 1)) =
      (c.storedKey req.key).take n := by
  unfold storedKey buildRadixKey RadixKey.take keyConvertFn
  dsimp only
  rw [hEagle, if_pos rfl, if_pos rfl, List.take_take]
  rcases Nat.eq_zero_or_pos req.kvCommittedLen with hzero | hpos
  · have hn : n = 0 := by omega
    simp [hzero, hn, convertToBigramKey]
  · rw [Nat.min_eq_left (by omega), convertToBigramKey_take h.ids]

/-- `insert` of whole pages is `_insert_helper`. -/
theorem insert_eq (henabled : c.disable = false) (hEagle : c.isEagle = true) {key : RadixKey}
    {value : List Nat} (prev : Nat) (halign : (c.storedKey key).length % c.pageSize = 0)
    (hlen : value.length = (c.storedKey key).length) :
    c.insert key value prev = c.insertHelper (c.storedKey key) value prev := by
  have hback := Nat.div_mul_cancel (Nat.dvd_of_mod_eq_zero halign)
  unfold insert
  rw [henabled, if_neg Bool.false_ne_true]
  dsimp only
  rw [hEagle, if_pos rfl, ← hlen, List.take_length]
  split
  · rw [hlen, hback, ← hlen, List.take_length]
    congr 1
    unfold RadixKey.take
    rw [hlen, RadixKey.length, List.take_length]
  · rfl

/-- What becomes of the pages that are inserted, or freed in place of it. -/
theorem stored_spec (valid : Valid c) (henabled : c.disable = false) (hEagle : c.isEagle = true)
    (h : TreeOwned slots c.pageSize c.tree req) (isInsert : Bool) (cacheLens : List (Option Nat)) :
    ∃ d freed adopted,
      (if isInsert then
        if cacheLen req isInsert cacheLens > 0 then
          (do
            let (c, _, freed) ← c.insert ((buildRadixKey req req.kvCommittedLen).take
              (cachedPages c.pageSize req isInsert cacheLens * c.pageSize + 1))
              (req.row.take (cachedPages c.pageSize req isInsert cacheLens * c.pageSize))
              (c.oldPrefixLen req)
            pure (c, freed))
        else pure (c, [])
      else pure (c, [⟨slice req.row (c.oldPrefixLen req)
        (cachedPages c.pageSize req isInsert cacheLens * c.pageSize), req.key.rank⟩])) =
        Except.ok (d, freed) ∧
      Valid d ∧ Keeps c d ∧
      Overlapped c d req.key req.row (c.oldPrefixLen req) 0
        (cachedPages c.pageSize req isInsert cacheLens) freed adopted ∧
      ∀ k < req.cacheProtectedLen / c.pageSize, k < cachedPages c.pageSize req isInsert cacheLens →
        adopted k = false := by
  have hpage := valid.page_pos
  have hmul := cachedPages_mul_le c.pageSize req isInsert cacheLens
  have hhigh := h.high
  cases isInsert with
  | false =>
    refine ⟨c, _, fun _ => false, rfl, valid, .refl c, ⟨by simp, ?_⟩, fun _ _ _ => rfl⟩
    intro i slot hi
    rw [freedTimes, List.countP_singleton]
    apply if_congr _ rfl rfl
    rw [h.row.gives_slice _ hi (by omega), ← Nat.max_eq_right (Nat.zero_le (c.oldPrefixLen req)),
      ← Nat.zero_mul c.pageSize, between_max hpage, Nat.zero_mul,
      Nat.max_eq_right (Nat.zero_le _)]
    simp
  | true =>
    rw [if_pos rfl]
    by_cases hsome : cacheLen req true cacheLens > 0
    · rw [if_pos hsome]
      have hkeyLen : (c.storedKey req.key).length = req.key.length - 1 := by
        have := RadixCache.storedKey_length
          { RadixCache.reset c.pageSize c.disable c.isEagle with isEagle := c.isEagle } h.ids
        rw [hEagle] at this
        simpa [storedKey, RadixCache.storedKey, hEagle] using this
      have hkeyLe := h.key_le
      have hkey := storedKey_take hEagle h hmul
      have hlen : ((c.storedKey req.key).take
          (cachedPages c.pageSize req true cacheLens * c.pageSize)).length =
          cachedPages c.pageSize req true cacheLens * c.pageSize := by
        rw [RadixKey.length_take, hkeyLen, Nat.min_eq_left (by omega)]
      have hlookup : Lookup c ((c.storedKey req.key).take
          (cachedPages c.pageSize req true cacheLens * c.pageSize)) := by
        refine ⟨by rw [hlen, Nat.mul_mod_left], ?_⟩
        have := RadixCache.storedKey_kind
          { RadixCache.reset c.pageSize c.disable c.isEagle with isEagle := c.isEagle } h.ids
        exact OfKind.take this _
      have hrow : req.row.length ≥ cachedPages c.pageSize req true cacheLens * c.pageSize := by
        omega
      obtain ⟨d, n, freed, adopted, heq, valid', hkeeps, hover, hstored⟩ :=
        insertHelper_spec valid hlookup h.row (by rw [hlen]; omega) (c.oldPrefixLen req)
      rw [hlen, Nat.mul_div_cancel _ hpage] at hover
      rw [hlen] at heq hstored
      refine ⟨d, freed, adopted, ?_, valid', hkeeps, ⟨hover.inTree, hover.freed⟩, ?_⟩
      · rw [insert_eq henabled hEagle _ (by rw [hkey, hlen, Nat.mul_mod_left]) (by
          rw [hkey, hlen, List.length_take, Nat.min_eq_left hrow]), hkey, heq]
        rfl
      · intro k hk hlt
        obtain ⟨hprot, rows, ⟨hpath, hspace, hspell⟩, hvalue⟩ := resident_protected valid hEagle h
        have hstep := Nat.mul_le_mul_right c.pageSize (Nat.succ_le_of_lt hlt)
        have hkept := Nat.mul_le_mul_right c.pageSize (Nat.succ_le_of_lt hk)
        rw [← hprot] at hkept
        have hsucc : k * c.pageSize < k.succ * c.pageSize :=
          Nat.mul_lt_mul_of_pos_right (Nat.lt_succ_self k) hpage
        refine hstored (k.succ * c.pageSize) (Nat.mul_mod_left _ _) hstep
          ⟨rows, ⟨hpath, hspace, ?_⟩, hvalue⟩ k hsucc
        rw [RadixKey.take_take, Nat.min_eq_left hstep]
        refine List.IsPrefix.trans ?_ hspell
        exact List.take_prefix_take_left hkept
    · rw [if_neg hsome]
      have hzero : cachedPages c.pageSize req true cacheLens = 0 := by
        unfold cachedPages
        rw [Nat.eq_zero_of_not_pos hsome, Nat.min_zero, Nat.zero_div]
      refine ⟨c, _, fun _ => false, rfl, valid, .refl c, ?_, fun _ _ _ => rfl⟩
      rw [hzero]
      exact .refl c req.key req.row _ 0

/-- Where the tail starts and ends. -/
def tailSlice (c : UnifiedCache) (req : KvReq) (isInsert : Bool) (cacheLens : List (Option Nat)) :
    List Nat :=
  slice req.row
    (max (cachedPages c.pageSize req isInsert cacheLens * c.pageSize) (c.oldPrefixLen req))
    (if c.pageSize ≠ 1 then req.kvCommittedLen else req.kvCommittedLen - 1)

theorem releaseCalls_spec (valid : Valid c) (henabled : c.disable = false)
    (hEagle : c.isEagle = true) (h : TreeOwned slots c.pageSize c.tree req)
    (hlocked : Locked c req.lastNode) (isInsert : Bool) (cacheLens : List (Option Nat)) :
    ∃ d freed adopted, c.releaseCalls req isInsert cacheLens = .ok (d,
        (⟨c.tailSlice req isInsert cacheLens, req.key.rank⟩ :: freed) ++
          overallocatedCalls c.pageSize req) ∧
      Overlapped c d req.key req.row (c.oldPrefixLen req) 0
        (cachedPages c.pageSize req isInsert cacheLens) freed adopted ∧
      ∀ k < req.cacheProtectedLen / c.pageSize, k < cachedPages c.pageSize req isInsert cacheLens →
        adopted k = false := by
  have hhigh := h.high
  have hfilter : (req.row.take req.kvCommittedLen).filter (· ≠ 0) =
      req.row.take req.kvCommittedLen := h.row.filter_eq fun _ hslot => List.mem_of_mem_take hslot
  have hmul := cachedPages_mul_le c.pageSize req isInsert cacheLens
  have hkeyLen : (buildRadixKey req req.kvCommittedLen).length = req.kvCommittedLen := by
    rw [buildRadixKey, RadixKey.length_take, Nat.min_eq_left h.key_le]
  have haligned : (if c.pageSize ≠ 1 then
      min (req.kvCommittedLen - 1) (cacheLen req isInsert cacheLens) / c.pageSize * c.pageSize
        else min (req.kvCommittedLen - 1) (cacheLen req isInsert cacheLens)) =
      cachedPages c.pageSize req isInsert cacheLens * c.pageSize := by
    unfold cachedPages
    split
    · rfl
    · rename_i hone
      rw [not_not.mp hone, Nat.div_one, Nat.mul_one]
  have htail : (if c.pageSize ≠ 1 then (req.row.take req.kvCommittedLen).drop
        (max (cachedPages c.pageSize req isInsert cacheLens * c.pageSize) (c.oldPrefixLen req))
      else slice (req.row.take req.kvCommittedLen)
        (max (cachedPages c.pageSize req isInsert cacheLens * c.pageSize) (c.oldPrefixLen req))
        (req.kvCommittedLen - 1)) = c.tailSlice req isInsert cacheLens := by
    unfold tailSlice
    split
    · rfl
    · rw [slice_take (by omega)]
  have htake : (req.row.take req.kvCommittedLen).take
      (cachedPages c.pageSize req isInsert cacheLens * c.pageSize) =
      req.row.take (cachedPages c.pageSize req isInsert cacheLens * c.pageSize) := by
    rw [List.take_take, Nat.min_eq_left (by omega)]
  have hslice : slice (req.row.take req.kvCommittedLen) (c.oldPrefixLen req)
      (cachedPages c.pageSize req isInsert cacheLens * c.pageSize) =
      slice req.row (c.oldPrefixLen req)
        (cachedPages c.pageSize req isInsert cacheLens * c.pageSize) := slice_take (by omega)
  obtain ⟨d, freed, adopted, heq, valid', hkeeps, hover, hstored⟩ :=
    stored_spec valid henabled hEagle h isInsert cacheLens
  obtain ⟨e, hunlock, hpage, hin⟩ := decLockRef_spec valid' (hkeeps.locked hlocked)
  refine ⟨e, freed, adopted, ?_, ⟨?_, hover.freed⟩, hstored⟩
  · unfold releaseCalls finishCalls
    dsimp only
    rw [hfilter, henabled, if_neg Bool.false_ne_true, hkeyLen]
    have hlenEq : (if isInsert then effectiveCacheLen req.kvCommittedLen cacheLens
        else req.kvCommittedLen) = cacheLen req isInsert cacheLens := rfl
    simp only [hEagle, if_true, hlenEq, haligned, htail, htake, hslice]
    -- Unlocking and the rest follow each way of storing alike.
    by_cases hinsert : isInsert = true
    · rw [if_pos hinsert] at heq ⊢
      by_cases hsome : cacheLen req isInsert cacheLens > 0
      · rw [if_pos hsome] at heq ⊢
        obtain ⟨⟨stored, n, calls⟩, hstore, heq⟩ := bind_eq_ok.mp heq
        cases heq
        simp only [hstore, hunlock, bind, Except.bind, pure, Except.pure, hpage, hkeeps.pageSize]
      · rw [if_neg hsome] at heq ⊢
        cases heq
        simp only [hunlock, bind, Except.bind, pure, Except.pure, hpage]
    · rw [if_neg hinsert] at heq ⊢
      cases heq
      simp only [hunlock, bind, Except.bind, pure, Except.pure, hpage]
  · intro rank slot
    rw [hin]
    exact hover.inTree rank slot

/-- The tail by its pages: with pages of one slot it stops before the last
committed one. -/
theorem freed_tail (valid : Valid c) (hEagle : c.isEagle = true)
    (h : TreeOwned slots c.pageSize c.tree req) (isInsert : Bool) (cacheLens : List (Option Nat))
    {i : Nat} (hi : req.row[i]? = some slot) :
    freedTimes c.pageSize req.key.rank slot [⟨c.tailSlice req isInsert cacheLens, req.key.rank⟩] =
      if cachedPages c.pageSize req isInsert cacheLens ≤ i / c.pageSize ∧
        c.oldPrefixLen req / c.pageSize ≤ i / c.pageSize ∧
        i / c.pageSize < (if c.pageSize ≠ 1 then pagesFor c.pageSize req.kvCommittedLen
          else RadixCache.wholePages c.pageSize req) then 1 else 0 := by
  have hpage := valid.page_pos
  have hlow := h.low
  have hhigh := h.high
  have hmul := cachedPages_mul_le c.pageSize req isInsert cacheLens
  obtain ⟨hprot, -⟩ := resident_protected valid hEagle h
  have hold := oldPrefixLen_eagle hEagle req
  rw [freedTimes, List.countP_singleton]
  apply if_congr _ rfl rfl
  rw [tailSlice, h.row.gives_slice _ hi (by split <;> omega)]
  have hdiv : max (cachedPages c.pageSize req isInsert cacheLens * c.pageSize)
      (c.oldPrefixLen req) / c.pageSize =
      max (cachedPages c.pageSize req isInsert cacheLens) (c.oldPrefixLen req / c.pageSize) := by
    rw [max_div hpage]
  by_cases hone : c.pageSize = 1
  · rw [if_neg (not_not.mpr hone), if_neg (not_not.mpr hone), between_iff hpage, hdiv,
      RadixCache.wholePages, hone]
    simp only [Nat.div_one, pagesFor, Nat.add_sub_cancel, Nat.mul_one]
    omega
  · rw [if_pos hone, if_pos hone, between_tail hpage, hdiv, Nat.max_le, and_assoc]
    by_cases hlt : c.oldPrefixLen req < req.kvCommittedLen
    · exact .inl (Nat.max_lt.mpr ⟨by omega, hlt⟩)
    · right
      have heq : c.oldPrefixLen req = req.cacheProtectedLen ∧
          req.cacheProtectedLen = req.kvCommittedLen := by
        split at hold <;> omega
      have hmax : max (cachedPages c.pageSize req isInsert cacheLens * c.pageSize)
          (c.oldPrefixLen req) = req.cacheProtectedLen := by omega
      rw [hmax]
      refine ⟨heq.2, ?_⟩
      rw [hprot]
      exact Nat.mul_mod_left _ _

theorem release_disabled (hdisable : c.disable = true) (hclear : c.tree = [])
    (h : TreeOwned slots c.pageSize c.tree req) (isInsert : Bool)
    (cacheLens : List (Option Nat)) :
    ∃ calls, c.releaseCalls req isInsert cacheLens = .ok (c, calls) ∧
      AllAccounted slots c.pageSize c.tree c.tree calls req := by
  have hfilter : (req.row.take req.kvCommittedLen).filter (· ≠ 0) =
      req.row.take req.kvCommittedLen := h.row.filter_eq fun _ hslot => List.mem_of_mem_take hslot
  refine ⟨_, ?_, h.disabled_accounted (h.protected_eq_zero hclear)⟩
  unfold releaseCalls finishCalls
  dsimp only
  rw [hfilter, hdisable, if_pos rfl]
  rfl

/-- When a release of an EAGLE request accounts for every slot. -/
theorem release_accounted_iff (valid : Valid c) (hEagle : c.isEagle = true)
    (hclear : c.disable = true → c.tree = []) (h : TreeOwned slots c.pageSize c.tree req)
    (hlocked : Locked c req.lastNode) (isInsert : Bool) (cacheLens : List (Option Nat)) :
    ∃ d calls, c.releaseCalls req isInsert cacheLens = .ok (d, calls) ∧
      (AllAccounted slots c.pageSize c.tree d.tree calls req ↔
        c.disable = true ∨ c.pageSize = 1 ∧ req.cacheProtectedLen = req.kvCommittedLen ∨
          c.pageSize ≠ 1 ∧ req.cacheProtectedLen ≤ req.lastMatchedPrefixLen) := by
  cases hdisable : c.disable with
  | true =>
    obtain ⟨calls, heq, hall⟩ :=
      release_disabled hdisable (hclear hdisable) h isInsert cacheLens
    exact ⟨c, calls, heq, iff_of_true hall (.inl rfl)⟩
  | false =>
    obtain ⟨d, freed, adopted, heq, hover, hstored⟩ :=
      releaseCalls_spec valid hdisable hEagle h hlocked isInsert cacheLens
    refine ⟨d, _, heq, ?_⟩
    have hpage := valid.page_pos
    have hhigh := h.high
    obtain ⟨hprot, -⟩ := resident_protected valid hEagle h
    have hkept : req.cacheProtectedLen / c.pageSize ≤ pagesFor c.pageSize req.kvCommittedLen :=
      (Nat.div_le_div_right h.low).trans (div_le_pagesFor hpage _)
    rw [h.allAccounted_iff hprot
      (fun k => k < cachedPages c.pageSize req isInsert cacheLens ∧ adopted k = true)
      (fun k =>
        (if cachedPages c.pageSize req isInsert cacheLens ≤ k ∧
            c.oldPrefixLen req / c.pageSize ≤ k ∧
            k < (if c.pageSize ≠ 1 then pagesFor c.pageSize req.kvCommittedLen
              else RadixCache.wholePages c.pageSize req) then 1 else 0) +
          (if k < cachedPages c.pageSize req isInsert cacheLens ∧
            c.oldPrefixLen req / c.pageSize ≤ k ∧ adopted k = false then 1 else 0) +
          if pagesFor c.pageSize req.kvCommittedLen ≤ k then 1 else 0)]
    · have hused : pagesFor c.pageSize req.kvCommittedLen = 0 ∧
          RadixCache.wholePages c.pageSize req = 0 ∨ pagesFor c.pageSize req.kvCommittedLen =
            RadixCache.wholePages c.pageSize req + 1 := pagesFor_eq_succ hpage _
      rw [accounted_adopted_iff hused hkept (pagesFor_mono hpage hhigh) (cachedPages_le _ _ _ _)
        (oldPrefixLen_div valid hEagle h) hstored (protected_pos valid hEagle h)]
      simp only [Bool.false_eq_true, false_or, not_not, ne_eq]
      refine or_congr_left (and_congr_right fun hone => ?_)
      rw [hone, Nat.div_one, pagesFor, Nat.div_one, Nat.add_sub_cancel]
    · intro i slot hi
      have hpages : i < req.cacheProtectedLen ↔
          i / c.pageSize < req.cacheProtectedLen / c.pageSize := by
        rw [Nat.div_lt_iff_lt_mul hpage, ← hprot]
      rw [hover.inTree, h.inTree_iff hi, hpages]
      refine or_congr Iff.rfl ?_
      constructor
      · rintro ⟨-, j, -, hlt, htrue, hj⟩
        rw [(h.row.page_inj hj hi).mp rfl] at hlt htrue
        exact ⟨hlt, htrue⟩
      · rintro ⟨hlt, htrue⟩
        exact ⟨rfl, i, Nat.zero_le _, hlt, htrue, hi⟩
    · intro i slot hi
      rw [← List.singleton_append, freedTimes_append, freedTimes_append,
        freed_overallocated h.row hi, freed_tail valid hEagle h isInsert cacheLens hi,
        hover.freed i slot hi]
      simp only [Nat.zero_le, true_and]

end UnifiedCache
end SglJax.MemCache
