import SglJax.MemCache.KvRequests

/-! What releasing a request hands back, as the list of `free` calls it makes.
Whatever the allocator then does with a call, it concerns the whole pages of the
call's slots. -/
namespace SglJax.MemCache

open Foundation Foundation.NodeTable

/-- The call gives back the page of a rank's slot. -/
def FreeCall.gives (pageSize rank slot : Nat) (call : FreeCall) : Bool :=
  call.dpRank == rank && call.indices.any fun other => other / pageSize == slot / pageSize

/-- How often the slot is freed. -/
def freedTimes (pageSize rank slot : Nat) (calls : List FreeCall) : Nat :=
  calls.countP (FreeCall.gives pageSize rank slot)

/-- The calls on an allocator, in order. -/
def PoolAllocator.freeAll (a : PoolAllocator) (calls : List FreeCall) : PoolAllocator :=
  calls.foldl (fun a call => a.free call.indices call.dpRank) a

/-- What `release_kv_cache` frees after `cache_finished_req`: the slots past the
committed ones, from the first page that holds none of those. -/
def overallocatedCalls (pageSize : Nat) (req : KvReq) : List FreeCall :=
  let startP := if pageSize > 1 then pagesFor pageSize req.kvCommittedLen * pageSize
    else req.kvCommittedLen
  let endP := req.row.length
  if startP < endP then [⟨(slice req.row startP endP).filter (· ≠ 0), req.key.rank⟩] else []

namespace RadixCache

/-- `cache_finished_req` -/
def finishCalls (c : RadixCache) (req : KvReq) (isInsert : Bool) :
    Except CacheError (RadixCache × List FreeCall) := do
  let dpRank := req.key.rank
  let kvIndices := (req.row.take req.kvCommittedLen).filter (· ≠ 0)
  if c.disable then
    return (c, [⟨kvIndices, dpRank⟩])
  let radixKey := buildRadixKey req req.kvCommittedLen
  let alignedLen := KvCache.pageAlignedLen c req.kvCommittedLen
  let tokenLen := KvCache.pageAlignedTokenLen c req.kvCommittedLen
  let oldLen := KvCache.oldPrefixLen c req
  let tail := if c.pageSize ≠ 1 then [⟨kvIndices.drop alignedLen, dpRank⟩] else []
  let (c, newLen) ←
    if isInsert then c.insert (radixKey.take tokenLen) (kvIndices.take alignedLen)
    else pure (c, alignedLen)
  return ((c.decLockRef req.lastNode).1, tail ++ [⟨slice kvIndices oldLen newLen, dpRank⟩])

/-- `release_kv_cache` where over-allocation is allowed. -/
def releaseCalls (c : RadixCache) (req : KvReq) (isInsert : Bool) :
    Except CacheError (RadixCache × List FreeCall) := do
  let (c, calls) ← c.finishCalls req isInsert
  return (c, calls ++ overallocatedCalls c.pageSize req)

end RadixCache

/-! ### The calls are all there is -/

namespace KvCache

variable {s : KvCache} {req : KvReq} {isInsert : Bool}

@[simp] theorem tree_free (s : KvCache) (slots : List Nat) (dpRank : Nat) :
    (s.free slots dpRank).tree = s.tree := rfl

/-- The state after a release that was worked out as a tree and calls. -/
def replay (s : KvCache) (result : RadixCache × List FreeCall) : KvCache :=
  ⟨s.allocator.freeAll result.2, result.1⟩

theorem cacheFinishedReq_eq_replay (s : KvCache) (req : KvReq) (isInsert : Bool) :
    s.cacheFinishedReq req isInsert = (s.tree.finishCalls req isInsert).map s.replay := by
  unfold cacheFinishedReq RadixCache.finishCalls
  dsimp only
  cases hdisable : s.tree.disable with
  | true => rfl
  | false =>
    cases isInsert with
    | false =>
      by_cases hone : s.tree.pageSize = 1
      · simp [hone, replay, PoolAllocator.freeAll, free, pure, Except.pure, bind, Except.bind,
          Except.map]
      · simp [hone, replay, PoolAllocator.freeAll, free, pure, Except.pure, bind, Except.bind,
          Except.map]
    | true =>
      by_cases hone : s.tree.pageSize = 1
      · simp only [hone, ne_eq, not_true_eq_false, if_false, if_true, Bool.false_eq_true]
        cases s.tree.insert _ _ <;> rfl
      · simp only [hone, ne_eq, not_false_eq_true, if_false, if_true, Bool.false_eq_true,
          tree_free]
        cases s.tree.insert _ _ <;> rfl

theorem releaseKvCache_eq_replay (s : KvCache) (req : KvReq) (isInsert : Bool) :
    s.releaseKvCache req isInsert true = (s.tree.releaseCalls req isInsert).map s.replay := by
  unfold releaseKvCache RadixCache.releaseCalls
  rw [cacheFinishedReq_eq_replay]
  cases s.tree.finishCalls req isInsert with
  | error e => rfl
  | ok result =>
    obtain ⟨c, calls⟩ := result
    simp only [Except.map, bind, Except.bind, Bool.not_true, Bool.false_and, Bool.false_eq_true,
      if_false, overallocatedCalls, replay]
    split <;> split <;> simp [PoolAllocator.freeAll, free, pure, Except.pure]

end KvCache

/-! ### Bigrams of a part of a key -/

private theorem bigrams_take (a : Int) {tokens : List Token} (h : OfKind false tokens) (n : Nat) :
    convertToBigramKey.bigrams a (tokens.take n) = (convertToBigramKey.bigrams a tokens).take n := by
  induction tokens generalizing a n with
  | nil => simp [convertToBigramKey.bigrams]
  | cons token rest ih =>
    cases n with
    | zero => simp [convertToBigramKey.bigrams]
    | succ n =>
      cases token with
      | id b =>
        rw [List.take_succ_cons, convertToBigramKey.bigrams, convertToBigramKey.bigrams,
          List.take_succ_cons, ih b fun token htoken => h token (by simp [htoken])]
      | bigram x y =>
        have := h (.bigram x y) (by simp)
        simp [Token.isBigram] at this

/-- One token more than there shall be bigrams. -/
theorem convertToBigramKey_take {tokens : List Token} (h : OfKind false tokens) (n : Nat) :
    convertToBigramKey (tokens.take (n + 1)) = (convertToBigramKey tokens).take n := by
  match tokens with
  | [] => simp [convertToBigramKey]
  | .bigram a b :: rest =>
    have := h (.bigram a b) (by simp)
    simp [Token.isBigram] at this
  | [.id a] => simp [convertToBigramKey]
  | .id a :: second :: rest =>
    have hrest : OfKind false (second :: rest) := fun token htoken => h token (by simp [htoken])
    cases n with
    | zero => simp [convertToBigramKey]
    | succ n =>
      rw [List.take_succ_cons, List.take_succ_cons]
      change convertToBigramKey.bigrams a (second :: rest.take n) =
        (convertToBigramKey.bigrams a (second :: rest)).take (n + 1)
      rw [← bigrams_take a hrest, List.take_succ_cons]

/-! ### Slots by their place in a row -/

/-- Some place from `start` to before `stop` lies on the page with this number. -/
def Between (pageSize start stop k : Nat) : Prop :=
  ∃ i, start ≤ i ∧ i < stop ∧ i / pageSize = k

section Between

variable {pageSize : Nat}

theorem between_iff (hpage : 0 < pageSize) {start stop k : Nat} :
    Between pageSize start stop k ↔
      start < stop ∧ start / pageSize ≤ k ∧ k < pagesFor pageSize stop := by
  rw [lt_pagesFor_iff hpage]
  constructor
  · rintro ⟨i, hstart, hstop, rfl⟩
    exact ⟨by omega, Nat.div_le_div_right hstart,
      lt_of_le_of_lt (Nat.div_mul_le_self _ _) hstop⟩
  · rintro ⟨hlt, hle, hk⟩
    rcases Nat.le_total start (k * pageSize) with hbefore | hafter
    · exact ⟨k * pageSize, hbefore, hk, Nat.mul_div_cancel _ hpage⟩
    · have hge : k ≤ start / pageSize := (Nat.le_div_iff_mul_le hpage).mpr hafter
      exact ⟨start, le_rfl, hlt, by omega⟩

/-- From a page boundary on. -/
theorem between_page (hpage : 0 < pageSize) {first stop k : Nat} :
    Between pageSize (first * pageSize) stop k ↔ first ≤ k ∧ k < pagesFor pageSize stop := by
  rw [between_iff hpage, Nat.mul_div_cancel _ hpage, lt_pagesFor_iff hpage]
  constructor
  · exact fun h => h.2
  · rintro ⟨hle, hlt⟩
    have := Nat.mul_le_mul_right pageSize hle
    exact ⟨by omega, hle, hlt⟩

/-- From the last place before a page boundary on. -/
theorem between_before (hpage : 0 < pageSize) {first last k : Nat} (hpos : 0 < first) :
    Between pageSize (first * pageSize - 1) (last * pageSize) k ↔
      first ≤ last ∧ first - 1 ≤ k ∧ k < last := by
  have hdiv : (first * pageSize - 1) / pageSize = first - 1 := by
    obtain ⟨m, rfl⟩ : ∃ m, first = m + 1 := ⟨first - 1, by omega⟩
    have hsplit : (m + 1) * pageSize - 1 = pageSize * m + (pageSize - 1) := by
      rw [Nat.add_mul, Nat.mul_comm m]
      omega
    rw [hsplit, Nat.mul_add_div hpage, Nat.div_eq_of_lt (by omega)]
    omega
  have hmul := Nat.mul_pos hpos hpage
  rw [between_iff hpage, hdiv, pagesFor_mul hpage]
  have hlt : first * pageSize - 1 < last * pageSize ↔ first ≤ last := by
    rw [← Nat.mul_le_mul_right_iff hpage]
    omega
  rw [hlt]

end Between

/-- A row laid over pages of its own. -/
structure PagedRow (pageSize : Nat) (row : List Nat) : Prop where
  page_pos : 0 < pageSize
  laid : Laid pageSize row (pagesOf pageSize row)
  once : (pagesOf pageSize row).Nodup
  ne_zero : 0 ∉ pagesOf pageSize row

namespace PagedRow

variable {pageSize : Nat} {row : List Nat} {i slot : Nat}

theorem page_eq (h : PagedRow pageSize row) (hi : row[i]? = some slot) :
    (pagesOf pageSize row)[i / pageSize]? = some (slot / pageSize) := by
  have hlt := (List.getElem?_eq_some_iff.mp hi).1
  rw [h.laid.place i hlt, Option.map_eq_some_iff] at hi
  obtain ⟨page, hpage, rfl⟩ := hi
  rw [hpage, Nat.mul_comm, Nat.mul_add_div h.page_pos,
    Nat.div_eq_of_lt (Nat.mod_lt _ h.page_pos), Nat.add_zero]

theorem page_inj (h : PagedRow pageSize row) {j other : Nat} (hi : row[i]? = some slot)
    (hj : row[j]? = some other) : slot / pageSize = other / pageSize ↔ i / pageSize = j / pageSize := by
  have hpi := h.page_eq hi
  have hpj := h.page_eq hj
  constructor
  · intro heq
    rw [← heq] at hpj
    have hlt := (List.getElem?_eq_some_iff.mp hpi).1
    exact (List.getElem?_inj hlt h.once).mp (hpi.trans hpj.symm)
  · intro heq
    rw [heq] at hpi
    exact Option.some.inj (hpi.symm.trans hpj)

theorem slot_pos (h : PagedRow pageSize row) (hslot : slot ∈ row) : slot ≠ 0 := by
  obtain ⟨i, hi⟩ := List.mem_iff_getElem?.mp hslot
  have hpage := List.mem_of_getElem? (h.page_eq hi)
  rintro rfl
  rw [Nat.zero_div] at hpage
  exact h.ne_zero hpage

/-- No slot of a row is the padding slot. -/
theorem filter_eq (h : PagedRow pageSize row) {slots : List Nat}
    (hsub : ∀ slot ∈ slots, slot ∈ row) : slots.filter (· ≠ 0) = slots := by
  rw [List.filter_eq_self]
  intro slot hslot
  simpa using h.slot_pos (hsub slot hslot)

theorem gives_slice (h : PagedRow pageSize row) {start stop : Nat} (rank : Nat)
    (hi : row[i]? = some slot) (hstop : stop ≤ row.length) :
    FreeCall.gives pageSize rank slot ⟨slice row start stop, rank⟩ = true ↔
      Between pageSize start stop (i / pageSize) := by
  simp only [FreeCall.gives, beq_self_eq_true, Bool.true_and, List.any_eq_true, beq_iff_eq]
  constructor
  · rintro ⟨other, hother, heq⟩
    obtain ⟨k, hk⟩ := List.mem_iff_getElem?.mp hother
    rw [slice, List.getElem?_drop, List.getElem?_take] at hk
    split at hk
    · exact ⟨start + k, by omega, by omega, (h.page_inj hk hi).mp heq⟩
    · cases hk
  · rintro ⟨j, hstart, hlt, heq⟩
    have hbound : j < row.length := by omega
    have hj : row[j]? = some row[j] := List.getElem?_eq_getElem hbound
    refine ⟨_, ?_, (h.page_inj hj hi).mpr heq⟩
    refine List.mem_of_getElem? (i := j - start) ?_
    rw [slice, List.getElem?_drop, List.getElem?_take, if_pos (by omega),
      Nat.add_sub_cancel' hstart, hj]

theorem freed_page (h : PagedRow pageSize row) {first stop : Nat} (rank : Nat)
    (hi : row[i]? = some slot) (hstop : stop ≤ row.length) :
    freedTimes pageSize rank slot [⟨slice row (first * pageSize) stop, rank⟩] =
      if first ≤ i / pageSize ∧ i / pageSize < pagesFor pageSize stop then 1 else 0 := by
  rw [freedTimes, List.countP_singleton]
  apply if_congr _ rfl rfl
  rw [h.gives_slice rank hi hstop, between_page h.page_pos]

theorem freed_before (h : PagedRow pageSize row) {first last : Nat} (rank : Nat)
    (hi : row[i]? = some slot) (hpos : 0 < first) (hstop : last * pageSize ≤ row.length) :
    freedTimes pageSize rank slot
        [⟨slice row (first * pageSize - 1) (last * pageSize), rank⟩] =
      if first ≤ last ∧ first - 1 ≤ i / pageSize ∧ i / pageSize < last then 1 else 0 := by
  rw [freedTimes, List.countP_singleton]
  apply if_congr _ rfl rfl
  rw [h.gives_slice rank hi hstop, between_before h.page_pos hpos]

end PagedRow

theorem freedTimes_append (pageSize rank slot : Nat) (left right : List FreeCall) :
    freedTimes pageSize rank slot (left ++ right) =
      freedTimes pageSize rank slot left + freedTimes pageSize rank slot right :=
  List.countP_append

/-- The over-allocated slots, by their pages. -/
theorem freed_overallocated {pageSize : Nat} {req : KvReq} (h : PagedRow pageSize req.row)
    {i slot : Nat} (hi : req.row[i]? = some slot) :
    freedTimes pageSize req.key.rank slot (overallocatedCalls pageSize req) =
      if pagesFor pageSize req.kvCommittedLen ≤ i / pageSize then 1 else 0 := by
  have hpage := h.page_pos
  have hlt := (List.getElem?_eq_some_iff.mp hi).1
  have hbelow := div_lt_pagesFor hpage hlt
  have hstart : (if pageSize > 1 then pagesFor pageSize req.kvCommittedLen * pageSize
      else req.kvCommittedLen) = pagesFor pageSize req.kvCommittedLen * pageSize := by
    split
    · rfl
    · obtain rfl : pageSize = 1 := by omega
      rw [pagesFor, Nat.mul_one, Nat.div_one, Nat.add_sub_cancel]
  unfold overallocatedCalls
  dsimp only
  rw [hstart]
  have hsub : ∀ slot ∈ slice req.row (pagesFor pageSize req.kvCommittedLen * pageSize)
      req.row.length, slot ∈ req.row := fun slot hslot =>
    List.mem_of_mem_take (List.mem_of_mem_drop hslot)
  rw [h.filter_eq hsub]
  split
  · rw [h.freed_page req.key.rank hi le_rfl]
    apply if_congr _ rfl rfl
    exact and_iff_left hbelow
  · rename_i hnone
    rw [if_neg]
    · rfl
    · intro hle
      have hmul := Nat.mul_le_mul_right pageSize hle
      have := Nat.div_mul_le_self i pageSize
      omega

/-! ### What became of the slots -/

/-- A slot stays the tree's, becomes the tree's, or is freed once: exactly one of
these. -/
def Accounted (before after : Prop) (freed : Nat) : Prop :=
  before ∧ after ∧ freed = 0 ∨ ¬ before ∧ after ∧ freed = 0 ∨ ¬ before ∧ ¬ after ∧ freed = 1

theorem Accounted.kept {before after : Prop} {freed : Nat} (h : Accounted before after freed)
    (hbefore : before) : freed = 0 := by
  rcases h with ⟨-, -, h⟩ | ⟨hnot, -, -⟩ | ⟨hnot, -, -⟩
  · exact h
  · exact absurd hbefore hnot
  · exact absurd hbefore hnot

theorem Accounted.gone {before after : Prop} {freed : Nat} (h : Accounted before after freed)
    (hafter : ¬ after) : freed = 1 := by
  rcases h with ⟨-, hin, -⟩ | ⟨-, hin, -⟩ | ⟨-, -, h⟩
  · exact absurd hin hafter
  · exact absurd hin hafter
  · exact h

section Trees

variable {α : Type} [Keyed α] {w : TreeNode α → List Nat} {t u : Tree α} {pageSize rank slot : Nat}
  {req : KvReq}

/-- A slot of a rank stands in the value of a node. -/
def InTree (w : TreeNode α → List Nat) (t : Tree α) (rank slot : Nat) : Prop :=
  ∃ n ∈ t, (label n).rank = rank ∧ slot ∈ w n

/-- Every slot of the request is accounted for by the tree before, the tree
after, and the calls made. -/
def AllAccounted (w : TreeNode α → List Nat) (pageSize : Nat) (t u : Tree α)
    (calls : List FreeCall) (req : KvReq) : Prop :=
  ∀ slot ∈ req.row, Accounted (InTree w t req.key.rank slot) (InTree w u req.key.rank slot)
    (freedTimes pageSize req.key.rank slot calls)

/-- A request of an EAGLE cache whose first `cache_protected_len` slots are those
of the path to its node. The rest of its row is its own, and what is committed
are slots of tokens it has. -/
structure TreeOwned (w : TreeNode α → List Nat) (pageSize : Nat) (t : Tree α) (req : KvReq) :
    Prop where
  row : PagedRow pageSize req.row
  ids : RadixCache.PlainIds req.key
  low : req.cacheProtectedLen ≤ req.kvCommittedLen
  high : req.kvCommittedLen ≤ req.row.length
  key_le : req.kvCommittedLen ≤ req.key.length
  path : ∃ rows, Path t req.lastNode rows ∧ (∀ n ∈ rows, (label n).SameNamespace req.key) ∧
    spell rows = (convertToBigramKey req.key.tokenIds).take req.cacheProtectedLen ∧
    rows.flatMap w = req.row.take req.cacheProtectedLen
  own : ∀ slot ∈ req.row.drop req.cacheProtectedLen, ∀ other, InTree w t req.key.rank other →
    other / pageSize ≠ slot / pageSize

/-- A request has no slots in an empty tree. -/
theorem TreeOwned.protected_eq_zero (h : TreeOwned w pageSize t req) (hclear : t = []) :
    req.cacheProtectedLen = 0 := by
  obtain ⟨rows, hpath, -, -, hslots⟩ := h.path
  have hnil : rows = [] := by
    apply List.eq_nil_iff_forall_not_mem.mpr
    intro n hn
    have hmem := hpath.mem n hn
    rw [hclear] at hmem
    cases hmem
  have hlen := congrArg List.length hslots
  have hle := h.low.trans h.high
  rw [hnil, List.flatMap_nil, List.length_take, Nat.min_eq_left hle] at hlen
  exact hlen.symm

theorem TreeOwned.inTree_iff (h : TreeOwned w pageSize t req) {i : Nat}
    (hi : req.row[i]? = some slot) :
    InTree w t req.key.rank slot ↔ i < req.cacheProtectedLen := by
  constructor
  · intro hin
    by_contra hge
    refine h.own slot (List.mem_of_getElem? (i := i - req.cacheProtectedLen) ?_) slot hin rfl
    rw [List.getElem?_drop, Nat.add_sub_cancel' (by omega), hi]
  · intro hlt
    obtain ⟨rows, hpath, hspace, -, hslots⟩ := h.path
    have hmem : slot ∈ req.row.take req.cacheProtectedLen := by
      refine List.mem_of_getElem? (i := i) ?_
      rw [List.getElem?_take, if_pos hlt, hi]
    rw [← hslots] at hmem
    obtain ⟨n, hn, hslot⟩ := List.mem_flatMap.mp hmem
    exact ⟨n, hpath.mem n hn, (hspace n hn).rank_eq, hslot⟩

/-- It is enough to look at the pages of the row. -/
theorem TreeOwned.allAccounted_iff (h : TreeOwned w pageSize t req) {kept : Nat}
    (hkept : req.cacheProtectedLen = kept * pageSize) (gained : Nat → Prop) (freed : Nat → Nat)
    {calls : List FreeCall}
    (hafter : ∀ i slot, req.row[i]? = some slot →
      (InTree w u req.key.rank slot ↔ i / pageSize < kept ∨ gained (i / pageSize)))
    (hfreed : ∀ i slot, req.row[i]? = some slot →
      freedTimes pageSize req.key.rank slot calls = freed (i / pageSize)) :
    AllAccounted w pageSize t u calls req ↔ ∀ k < pagesFor pageSize req.row.length,
      Accounted (k < kept) (k < kept ∨ gained k) (freed k) := by
  have hbefore (i slot : Nat) (hi : req.row[i]? = some slot) :
      InTree w t req.key.rank slot ↔ i / pageSize < kept := by
    rw [h.inTree_iff hi, hkept, Nat.div_lt_iff_lt_mul h.row.page_pos]
  unfold AllAccounted
  constructor
  · intro hall k hk
    rw [lt_pagesFor_iff h.row.page_pos] at hk
    have hi : req.row[k * pageSize]? = some req.row[k * pageSize] :=
      List.getElem?_eq_getElem hk
    have := hall _ (List.mem_of_getElem? hi)
    rwa [hbefore _ _ hi, hafter _ _ hi, hfreed _ _ hi, Nat.mul_div_cancel _ h.row.page_pos] at this
  · intro hall slot hslot
    obtain ⟨i, hi⟩ := List.mem_iff_getElem?.mp hslot
    rw [hbefore _ _ hi, hafter _ _ hi, hfreed _ _ hi]
    exact hall _ (div_lt_pagesFor h.row.page_pos (List.getElem?_eq_some_iff.mp hi).1)

/-- Freeing the committed slots is enough where the tree has none of them. -/
theorem TreeOwned.disabled_accounted (h : TreeOwned w pageSize t req)
    (hzero : req.cacheProtectedLen = 0) :
    AllAccounted w pageSize t t
      ([⟨req.row.take req.kvCommittedLen, req.key.rank⟩] ++ overallocatedCalls pageSize req) req := by
  have hkept : req.cacheProtectedLen = 0 * pageSize := by rw [hzero, Nat.zero_mul]
  rw [h.allAccounted_iff hkept (fun _ => False) (fun k =>
    (if 0 ≤ k ∧ k < pagesFor pageSize req.kvCommittedLen then 1 else 0) +
      if pagesFor pageSize req.kvCommittedLen ≤ k then 1 else 0)]
  · intro k _
    simp only [Accounted, Nat.not_lt_zero, or_false, false_and, false_or, not_false_eq_true,
      true_and, Nat.zero_le]
    split_ifs <;> omega
  · intro i slot hi
    rw [h.inTree_iff hi, hzero]
    simp
  · intro i slot hi
    have hslice : req.row.take req.kvCommittedLen =
        slice req.row (0 * pageSize) req.kvCommittedLen := by
      rw [Nat.zero_mul]
      rfl
    rw [freedTimes_append, hslice, h.row.freed_page _ hi h.high, freed_overallocated h.row hi]

/-! ### Slots under edits of the tree -/

theorem inTree_attach {n : TreeNode α} :
    InTree w (t.attach n) rank slot ↔
      InTree w t rank slot ∨ (label n).rank = rank ∧ slot ∈ w n := by
  unfold InTree
  constructor
  · rintro ⟨m, hm, hrest⟩
    rcases mem_attach.mp hm with hm | rfl
    · exact .inl ⟨m, hm, hrest⟩
    · exact .inr hrest
  · rintro (⟨m, hm, hrest⟩ | hrest)
    · exact ⟨m, mem_attach.mpr (.inl hm), hrest⟩
    · exact ⟨n, mem_attach.mpr (.inr rfl), hrest⟩

theorem inTree_splice {isEagle : Bool} {old : TreeNode α} {n newId : Nat}
    {topSlot bottomSlot : PyVal} {top bottom : α → α}
    (cut : CleanSplit pageSize t old n newId topSlot bottomSlot top bottom)
    (tree : KeyedTree pageSize isEagle t)
    (hhalves : w ⟨newId, old.parent, topSlot, top old.data⟩ ++
      w ⟨old.id, newId, bottomSlot, bottom old.data⟩ = w old) :
    InTree w (t.splice old.id newId topSlot bottomSlot top bottom) rank slot ↔
      InTree w t rank slot := by
  have hmem := @mem_splice _ _ t old newId topSlot bottomSlot top bottom tree.rooted.nodup cut.mem
  have htop : (label (⟨newId, old.parent, topSlot, top old.data⟩ : TreeNode α)).rank =
      (label old).rank := (cut.sameSpace (.inl rfl)).rank_eq
  have hbottom : (label (⟨old.id, newId, bottomSlot, bottom old.data⟩ : TreeNode α)).rank =
      (label old).rank := (cut.sameSpace (.inr rfl)).rank_eq
  constructor
  · rintro ⟨m, hm, hrank, hslot⟩
    rcases hmem.mp hm with rfl | rfl | ⟨hm, -⟩
    · exact ⟨old, cut.mem, htop.symm.trans hrank, hhalves ▸ List.mem_append_left _ hslot⟩
    · exact ⟨old, cut.mem, hbottom.symm.trans hrank, hhalves ▸ List.mem_append_right _ hslot⟩
    · exact ⟨m, hm, hrank, hslot⟩
  · rintro ⟨m, hm, hrank, hslot⟩
    by_cases hid : m.id = old.id
    · obtain rfl := eq_of_id_eq tree.rooted.nodup hm cut.mem hid
      rw [← hhalves] at hslot
      rcases List.mem_append.mp hslot with hslot | hslot
      · exact ⟨_, hmem.mpr (.inl rfl), htop.trans hrank, hslot⟩
      · exact ⟨_, hmem.mpr (.inr (.inl rfl)), hbottom.trans hrank, hslot⟩
    · exact ⟨m, hmem.mpr (.inr (.inr ⟨hm, hid⟩)), hrank, hslot⟩

/-- Updates of other data keep the slots. -/
theorem inTree_modify {ids : List Nat} {f : α → α} (hkey : ∀ d, Keyed.key (f d) = Keyed.key d)
    (hw : ∀ n : TreeNode α, w { n with data := f n.data } = w n) :
    InTree w (t.modify ids f) rank slot ↔ InTree w t rank slot := by
  have hsame (m : TreeNode α) :
      label { m with data := if m.id ∈ ids then f m.data else m.data } = label m ∧
      w { m with data := if m.id ∈ ids then f m.data else m.data } = w m := by
    split
    · exact ⟨hkey _, hw m⟩
    · exact ⟨rfl, rfl⟩
  constructor
  · rintro ⟨n, hn, hrank, hslot⟩
    obtain ⟨m, hm, rfl⟩ := mem_modify.mp hn
    rw [(hsame m).1] at hrank
    rw [(hsame m).2] at hslot
    exact ⟨m, hm, hrank, hslot⟩
  · rintro ⟨m, hm, hrank, hslot⟩
    refine ⟨_, mem_modify.mpr ⟨m, hm, rfl⟩, ?_, ?_⟩
    · rw [(hsame m).1, hrank]
    · rw [(hsame m).2]
      exact hslot

end Trees
end SglJax.MemCache
