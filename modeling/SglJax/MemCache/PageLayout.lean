import SglJax.MemCache.AllocatorSpec

/-! Slot lists laid over pages. A request's row and a tree node's value fill
their pages in order; slices of them at page boundaries do again, so what is
freed or taken can be counted in pages. -/
namespace SglJax.MemCache

section Layout

variable {pageSize : Nat}

theorem lt_pagesFor_iff (hpage : 0 < pageSize) {k n : Nat} :
    k < pagesFor pageSize n ↔ k * pageSize < n := by
  unfold pagesFor
  rw [Nat.lt_iff_add_one_le, Nat.le_div_iff_mul_le hpage, Nat.add_mul]
  omega

theorem div_lt_pagesFor (hpage : 0 < pageSize) {i n : Nat} (h : i < n) :
    i / pageSize < pagesFor pageSize n := by
  rw [lt_pagesFor_iff hpage]
  exact lt_of_le_of_lt (Nat.div_mul_le_self _ _) h

theorem pagesFor_mono (hpage : 0 < pageSize) {m n : Nat} (h : m ≤ n) :
    pagesFor pageSize m ≤ pagesFor pageSize n := by
  apply Nat.div_le_div_right
  omega

theorem pagesFor_mul (hpage : 0 < pageSize) (k : Nat) : pagesFor pageSize (k * pageSize) = k := by
  have := pagesFor_add_mul hpage k 0
  rwa [Nat.add_zero, pagesFor_zero hpage, Nat.add_zero] at this

theorem pagesFor_of_dvd (hpage : 0 < pageSize) {n : Nat} (h : n % pageSize = 0) :
    pagesFor pageSize n = n / pageSize := by
  conv_lhs => rw [← Nat.div_mul_cancel (Nat.dvd_of_mod_eq_zero h)]
  exact pagesFor_mul hpage _

theorem div_le_pagesFor (hpage : 0 < pageSize) (n : Nat) :
    n / pageSize ≤ pagesFor pageSize n := by
  have hle := pagesFor_mono hpage (Nat.div_mul_le_self n pageSize)
  rwa [pagesFor_mul hpage] at hle

theorem getElem?_flatMap_pageSlots (hpage : 0 < pageSize) (pages : List Nat) (i : Nat) :
    (pages.flatMap (pageSlots pageSize))[i]? =
      pages[i / pageSize]?.map fun page => page * pageSize + i % pageSize := by
  induction pages generalizing i with
  | nil => simp
  | cons page pages ih =>
    rw [List.flatMap_cons]
    rcases Nat.lt_or_ge i pageSize with h | h
    · rw [List.getElem?_append_left (by simpa using h), Nat.div_eq_of_lt h, Nat.mod_eq_of_lt h,
        List.getElem?_cons_zero, pageSlots, pageStart, List.getElem?_map, List.getElem?_range h]
      rfl
    · rw [List.getElem?_append_right (by simpa using h), length_pageSlots, ih]
      obtain ⟨j, rfl⟩ : ∃ j, i = j + pageSize := ⟨i - pageSize, by omega⟩
      rw [Nat.add_sub_cancel, Nat.add_div_right _ hpage, Nat.add_mod_right,
        List.getElem?_cons_succ]

theorem take_flatMap_pageSlots {pages : List Nat} {k : Nat} (h : k ≤ pages.length) :
    (pages.flatMap (pageSlots pageSize)).take (k * pageSize) =
      (pages.take k).flatMap (pageSlots pageSize) := by
  conv_lhs => rw [← List.take_append_drop k pages]
  rw [List.flatMap_append, List.take_left']
  rw [length_flatMap_pageSlots, List.length_take, Nat.min_eq_left h]

theorem drop_flatMap_pageSlots {pages : List Nat} {k : Nat} (h : k ≤ pages.length) :
    (pages.flatMap (pageSlots pageSize)).drop (k * pageSize) =
      (pages.drop k).flatMap (pageSlots pageSize) := by
  conv_lhs => rw [← List.take_append_drop k pages]
  rw [List.flatMap_append, List.drop_left']
  rw [length_flatMap_pageSlots, List.length_take, Nat.min_eq_left h]

/-- Slot `i` is at offset `i % page_size` of page `i / page_size` of the list,
and there are no pages to spare. -/
structure Laid (pageSize : Nat) (slots pages : List Nat) : Prop where
  count : pages.length = pagesFor pageSize slots.length
  place : ∀ i, i < slots.length →
    slots[i]? = pages[i / pageSize]?.map fun page => page * pageSize + i % pageSize

theorem Laid.nil (hpage : 0 < pageSize) : Laid pageSize [] [] where
  count := (pagesFor_zero hpage).symm
  place := by simp

theorem Laid.of_take (hpage : 0 < pageSize) {pages : List Nat} {n : Nat}
    (hn : pagesFor pageSize n = pages.length) :
    Laid pageSize ((pages.flatMap (pageSlots pageSize)).take n) pages := by
  have hle := le_pagesFor_mul hpage n
  have hlen : ((pages.flatMap (pageSlots pageSize)).take n).length = n := by
    rw [List.length_take, length_flatMap_pageSlots, ← hn]
    omega
  refine ⟨by rw [hlen, hn], ?_⟩
  intro i hi
  rw [List.getElem?_take_of_lt (by omega), getElem?_flatMap_pageSlots hpage]

theorem Laid.take {slots pages : List Nat} (hpage : 0 < pageSize) (h : Laid pageSize slots pages)
    {n : Nat} (hn : n ≤ slots.length) :
    Laid pageSize (slots.take n) (pages.take (pagesFor pageSize n)) := by
  have hmono := pagesFor_mono hpage hn
  have hlen : (slots.take n).length = n := by
    rw [List.length_take]
    omega
  refine ⟨?_, ?_⟩
  · rw [hlen, List.length_take, h.count]
    omega
  · intro i hi
    rw [hlen] at hi
    rw [List.getElem?_take_of_lt hi, h.place i (by omega),
      List.getElem?_take_of_lt (div_lt_pagesFor hpage hi)]

theorem Laid.drop {slots pages : List Nat} (hpage : 0 < pageSize) (h : Laid pageSize slots pages)
    (k : Nat) : Laid pageSize (slots.drop (k * pageSize)) (pages.drop k) := by
  refine ⟨?_, ?_⟩
  · rw [List.length_drop, List.length_drop, h.count]
    rcases Nat.le_total (k * pageSize) slots.length with hle | hle
    · have := pagesFor_add_mul hpage k (slots.length - k * pageSize)
      rw [Nat.add_sub_cancel' hle] at this
      omega
    · have := pagesFor_mono hpage hle
      rw [pagesFor_mul hpage] at this
      rw [Nat.sub_eq_zero_of_le hle, pagesFor_zero hpage]
      omega
  · intro i hi
    rw [List.length_drop] at hi
    rw [List.getElem?_drop, h.place _ (by omega), List.getElem?_drop, Nat.add_comm (k * pageSize),
      Nat.add_mul_div_right _ _ hpage, Nat.add_mul_mod_self_right, Nat.add_comm (i / pageSize)]

theorem Laid.append {slots pages more fresh : List Nat} (hpage : 0 < pageSize)
    (h : Laid pageSize slots pages) (halign : slots.length % pageSize = 0)
    (hmore : Laid pageSize more fresh) : Laid pageSize (slots ++ more) (pages ++ fresh) := by
  have hcount := h.count
  rw [pagesFor_of_dvd hpage halign] at hcount
  have hlen : slots.length = pages.length * pageSize := by
    rw [hcount, Nat.div_mul_cancel (Nat.dvd_of_mod_eq_zero halign)]
  refine ⟨?_, ?_⟩
  · rw [List.length_append, List.length_append, hlen, pagesFor_add_mul hpage, hmore.count]
  · intro i hi
    rcases Nat.lt_or_ge i slots.length with hlt | hge
    · have hdiv : i / pageSize < pages.length := by
        rw [h.count]
        exact div_lt_pagesFor hpage hlt
      rw [List.getElem?_append_left hlt, List.getElem?_append_left hdiv, h.place i hlt]
    · obtain ⟨j, rfl⟩ : ∃ j, i = j + pages.length * pageSize := ⟨i - slots.length, by omega⟩
      rw [List.length_append] at hi
      rw [List.getElem?_append_right hge, hlen, Nat.add_sub_cancel, hmore.place j (by omega),
        Nat.add_mul_div_right _ _ hpage, Nat.add_mul_mod_self_right,
        List.getElem?_append_right (Nat.le_add_left _ _), Nat.add_sub_cancel]

/-- A page starts with its first slot. -/
theorem Laid.first {slots pages : List Nat} (hpage : 0 < pageSize)
    (h : Laid pageSize slots pages) {k page : Nat} (hk : pages[k]? = some page) :
    slots[k * pageSize]? = some (page * pageSize) := by
  have hlt : k < pages.length := (List.getElem?_eq_some_iff.mp hk).1
  rw [h.count, lt_pagesFor_iff hpage] at hlt
  rw [h.place _ hlt, Nat.mul_div_cancel _ hpage, hk, Nat.mul_mod_left, Option.map_some,
    Nat.add_zero]

theorem Laid.touches {slots pages : List Nat} (hpage : 0 < pageSize)
    (h : Laid pageSize slots pages) {page : Nat} : Touches pageSize slots page ↔ page ∈ pages := by
  constructor
  · rintro ⟨slot, hslot, rfl⟩
    obtain ⟨i, hi⟩ := List.mem_iff_getElem?.mp hslot
    have hlt : i < slots.length := (List.getElem?_eq_some_iff.mp hi).1
    rw [h.place i hlt, Option.map_eq_some_iff] at hi
    obtain ⟨page, hpages, rfl⟩ := hi
    rw [Nat.mul_comm, Nat.mul_add_div hpage, Nat.div_eq_of_lt (Nat.mod_lt _ hpage), Nat.add_zero]
    exact List.mem_of_getElem? hpages
  · intro hmem
    obtain ⟨k, hk⟩ := List.mem_iff_getElem?.mp hmem
    exact ⟨_, List.mem_of_getElem? (h.first hpage hk), Nat.mul_div_cancel _ hpage⟩

/-- The pages that slots laid over pages fill, read off every page's first slot. -/
def pagesOf (pageSize : Nat) (slots : List Nat) : List Nat :=
  (List.range (pagesFor pageSize slots.length)).map fun k => slots.getD (k * pageSize) 0 / pageSize

theorem Laid.pagesOf_eq {slots pages : List Nat} (hpage : 0 < pageSize)
    (h : Laid pageSize slots pages) : pagesOf pageSize slots = pages := by
  apply List.ext_getElem?
  intro k
  rw [pagesOf, List.getElem?_map]
  rcases Nat.lt_or_ge k pages.length with hlt | hge
  · have hk := List.getElem?_eq_getElem hlt
    rw [List.getElem?_range (by rw [← h.count]; exact hlt), Option.map_some,
      List.getD_eq_getElem?_getD, h.first hpage hk, Option.getD_some, Nat.mul_div_cancel _ hpage,
      hk]
  · rw [List.getElem?_eq_none hge,
      List.getElem?_eq_none (by rw [List.length_range, ← h.count]; exact hge)]
    rfl

theorem flatMap_pageSlots_one (pages : List Nat) : pages.flatMap (pageSlots 1) = pages := by
  induction pages with
  | nil => rfl
  | cons page pages ih =>
    rw [List.flatMap_cons, ih]
    simp [pageSlots, pageStart]

/-- At page size one the slots are the pages. -/
theorem Laid.eq_of_one {slots pages : List Nat} (h : Laid 1 slots pages) : slots = pages := by
  have hlen : pages.length = slots.length := by
    rw [h.count, pagesFor, Nat.div_one, Nat.add_sub_cancel]
  apply List.ext_getElem?
  intro i
  rcases Nat.lt_or_ge i slots.length with hlt | hge
  · simpa [Nat.mod_one] using h.place i hlt
  · rw [List.getElem?_eq_none hge, List.getElem?_eq_none (by omega)]

/-- The slot of the last token, `-1` when there is none. -/
def lastLoc (row : List Nat) : Int := row.getLast?.elim (-1) fun slot => slot

theorem lastLoc_of_getElem? {row : List Nat} {slot : Nat}
    (h : row[row.length - 1]? = some slot) : lastLoc row = slot := by
  rw [lastLoc, List.getLast?_eq_getElem?, h]
  rfl

/-- The slots after the last one, up to the end of its page. -/
theorem Laid.fill {row pages : List Nat} (hpage : 0 < pageSize) (h : Laid pageSize row pages)
    {n : Nat} (hroom : row.length + n ≤ pages.length * pageSize) :
    Laid pageSize (row ++ (List.range n).map fun k : Nat => (lastLoc row + 1 + k).toNat) pages := by
  refine ⟨?_, ?_⟩
  · have hle := pagesFor_mono hpage hroom
    have hge := pagesFor_mono hpage (Nat.le_add_right row.length n)
    rw [pagesFor_mul hpage] at hle
    rw [← h.count] at hge
    rw [List.length_append, List.length_map, List.length_range]
    omega
  · intro i hi
    rw [List.length_append, List.length_map, List.length_range] at hi
    rcases Nat.lt_or_ge i row.length with hlt | hge
    · rw [List.getElem?_append_left hlt, h.place i hlt]
    · obtain ⟨k, rfl⟩ : ∃ k, i = row.length + k := ⟨i - row.length, by omega⟩
      rw [List.getElem?_append_right hge, Nat.add_sub_cancel_left, List.getElem?_map,
        List.getElem?_range (by omega), Option.map_some]
      -- The last token is in the last page, and so is slot `i`.
      have hpages : 0 < pages.length := by
        by_contra hnone
        rw [Nat.eq_zero_of_not_pos hnone, Nat.zero_mul] at hroom
        omega
      obtain ⟨q, hq⟩ : ∃ q, pages.length = q + 1 := ⟨pages.length - 1, by omega⟩
      have hlow : q * pageSize < row.length := by
        rw [← lt_pagesFor_iff hpage, ← h.count]
        omega
      rw [hq, Nat.add_mul, Nat.one_mul] at hroom
      have hdiv {j : Nat} (hj : q * pageSize ≤ j) (hj' : j < q * pageSize + pageSize) :
          j / pageSize = q ∧ j % pageSize = j - q * pageSize := by
        have hquot : j / pageSize = q := by
          rw [Nat.div_eq_iff hpage]
          omega
        have hsum := Nat.div_add_mod j pageSize
        rw [hquot, Nat.mul_comm] at hsum
        exact ⟨hquot, by omega⟩
      have hpageq := List.getElem?_eq_getElem (l := pages) (i := q) (by omega)
      have hlast := h.place (row.length - 1) (by omega)
      obtain ⟨hdivLast, hmodLast⟩ := hdiv (j := row.length - 1) (by omega) (by omega)
      obtain ⟨hdivHere, hmodHere⟩ := hdiv (j := row.length + k) (by omega) (by omega)
      rw [hdivLast, hmodLast, hpageq, Option.map_some] at hlast
      rw [hdivHere, hmodHere, hpageq, Option.map_some, lastLoc_of_getElem? hlast]
      congr 1
      omega

/-- A row goes on in its last page and then in the pages it is given. -/
theorem Laid.extend {row pages fresh : List Nat} (hpage : 0 < pageSize)
    (h : Laid pageSize row pages) {seq : ExtendSeq} (hbefore : seq.prefixLen = row.length)
    (hlast : seq.lastLoc = lastLoc row) (hfresh : fresh.length = seq.newPages pageSize) :
    Laid pageSize (row ++ seq.slots pageSize fresh) (pages ++ fresh) := by
  have hrest := seq.pagesFor_rest hpage
  have hcap := le_pagesFor_mul hpage row.length
  have hpart : seq.part1Size pageSize =
      min seq.extendLen (pagesFor pageSize row.length * pageSize - row.length) := by
    rw [ExtendSeq.part1Size, hbefore]
  have hfill : Laid pageSize (row ++ seq.part1 pageSize) pages := by
    rw [ExtendSeq.part1, hlast]
    apply h.fill hpage
    rw [h.count]
    omega
  rw [ExtendSeq.slots, ← List.append_assoc]
  by_cases hdone : seq.extendLen - seq.part1Size pageSize = 0
  · rw [hdone, pagesFor_zero hpage] at hrest
    have hnil : fresh = [] := List.length_eq_zero_iff.mp (hfresh.trans hrest.symm)
    rw [hnil, List.append_nil]
    simpa using hfill
  · apply hfill.append hpage
    · -- New pages are only needed once the last one is full.
      rw [List.length_append, ExtendSeq.length_part1,
        show row.length + seq.part1Size pageSize = pagesFor pageSize row.length * pageSize by omega]
      exact Nat.mul_mod_left _ _
    · exact .of_take hpage (hrest.trans hfresh.symm)

end Layout

/-! ### Counting the pages of a pool -/

namespace PoolAllocator

def isNotInFreeGroup : PoolAllocator → Bool
  | .token a => a.isNotInFreeGroup
  | .paged a => a.isNotInFreeGroup

/-- The settings no call changes. -/
structure SameSettings (a b : PoolAllocator) : Prop where
  pageSize : b.pageSize = a.pageSize
  sizePerRank : b.sizePerRank = a.sizePerRank
  isNotInFreeGroup : b.isNotInFreeGroup = a.isNotInFreeGroup

theorem SameSettings.refl (a : PoolAllocator) : SameSettings a a := ⟨rfl, rfl, rfl⟩

theorem SameSettings.trans {a b c : PoolAllocator} (hab : SameSettings a b)
    (hbc : SameSettings b c) : SameSettings a c :=
  ⟨hbc.pageSize.trans hab.pageSize, hbc.sizePerRank.trans hab.sizePerRank,
    hbc.isNotInFreeGroup.trans hab.isNotInFreeGroup⟩

theorem sameSettings_free (a : PoolAllocator) (slots : List Nat) (dpRank : Nat) :
    SameSettings a (a.free slots dpRank) := by
  cases a with
  | token a =>
    unfold free TokenAllocator.free
    dsimp only
    split
    · exact .refl _
    · split <;> exact ⟨rfl, rfl, rfl⟩
  | paged a =>
    obtain ⟨hpage, hsize, -, hgroup⟩ := a.sameSettings_free dpRank slots
    exact ⟨hpage, hsize, hgroup⟩

/-- The page lists of `b` are those of `a` less `pages` on one rank. -/
structure Takes (a : PoolAllocator) (dpRank : Nat) (pages : List Nat) (b : PoolAllocator) :
    Prop where
  settings : SameSettings a b
  here : (a.freeList dpRank).Perm (pages ++ b.freeList dpRank)
  elsewhere : ∀ rank, rank ≠ dpRank → (a.freeList rank).Perm (b.freeList rank)

theorem Takes.count {a b : PoolAllocator} {dpRank : Nat} {pages : List Nat}
    (h : Takes a dpRank pages b) (rank page : Nat) :
    (a.freeList rank).count page =
      (if rank = dpRank then pages.count page else 0) + (b.freeList rank).count page := by
  split
  · rename_i heq
    subst heq
    rw [h.here.count_eq, List.count_append]
  · rename_i hne
    rw [(h.elsewhere rank hne).count_eq, Nat.zero_add]

/-- Whole pages come back as they are, when none of them is in a list already. -/
theorem takes_free {a : PoolAllocator} {dpRank : Nat} {slots pages : List Nat}
    (hpos : 0 < a.pageSize) (hgroup : a.isNotInFreeGroup = true)
    (hlaid : Laid a.pageSize slots pages)
    (hsep : ∀ page, (a.freeList dpRank).count page + pages.count page ≤ 1) :
    Takes (a.free slots dpRank) dpRank pages a := by
  have settings := a.sameSettings_free slots dpRank
  have settings' : SameSettings (a.free slots dpRank) a :=
    ⟨settings.pageSize.symm, settings.sizePerRank.symm, settings.isNotInFreeGroup.symm⟩
  cases a with
  | token a =>
    obtain rfl := Laid.eq_of_one hlaid
    change a.isNotInFreeGroup = true at hgroup
    refine ⟨settings', ?_, ?_⟩
    · simp only [PoolAllocator.free, TokenAllocator.free, freeList]
      split
      · rename_i hnil
        rw [hnil, List.nil_append]
      · dsimp only
        rw [Function.update_self]
        exact List.perm_append_comm
    · intro rank hne
      simp only [PoolAllocator.free, TokenAllocator.free, freeList]
      split
      · exact .refl _
      · dsimp only
        rw [Function.update_of_ne hne]
  | paged a =>
    refine ⟨settings', ?_, ?_⟩
    · refine (a.freeList_free dpRank hgroup slots).trans (List.Perm.append_right _ ?_)
      have hnodup : pages.Nodup :=
        List.nodup_iff_count_le_one.mpr fun page => by have := hsep page; omega
      apply (List.perm_ext_iff_of_nodup (a.pagesToFree_nodup dpRank slots) hnodup).mpr
      intro page
      rw [a.mem_pagesToFree]
      change Touches (PoolAllocator.paged a).pageSize slots page ∧ _ ↔ _
      rw [hlaid.touches hpos]
      constructor
      · exact And.left
      · intro hmem
        refine ⟨hmem, fun hfree => ?_⟩
        have hone := List.count_pos_iff.mpr hmem
        have htwo := List.count_pos_iff.mpr hfree
        have := hsep page
        change (a.freeList dpRank).count page + _ ≤ 1 at this
        omega
    · intro rank hne
      change ((a.free slots dpRank).freeList rank).Perm (a.freeList rank)
      rw [a.freeList_free_of_ne dpRank hgroup slots hne]

theorem takes_reserve (a : PagedAllocator) (dpRank pages : Nat) :
    Takes (.paged a) dpRank [] (.paged (a.reserve pages dpRank)) := by
  obtain ⟨hpage, hsize, -, hgroup⟩ := a.sameSettings_reserve dpRank pages
  exact ⟨⟨hpage, hsize, hgroup⟩, (a.freeList_reserve dpRank pages dpRank).symm,
    fun rank _ => (a.freeList_reserve dpRank pages rank).symm⟩

theorem takes_dropFree (a : PagedAllocator) (dpRank pages taken : Nat) :
    Takes (.paged a) dpRank (((a.reserve pages dpRank).freePages dpRank).take taken)
      (.paged ((a.reserve pages dpRank).dropFree taken dpRank)) := by
  obtain ⟨⟨hpage, hsize, hgroup⟩, hhere, helse⟩ := takes_reserve a dpRank pages
  refine ⟨⟨hpage, hsize, hgroup⟩, ?_, ?_⟩
  · refine hhere.trans ?_
    rw [List.nil_append]
    change ((a.reserve pages dpRank).freeList dpRank).Perm _
    rw [(a.reserve pages dpRank).freeList_dropFree dpRank taken]
    rfl
  · intro rank hne
    refine (helse rank hne).trans ?_
    change ((a.reserve pages dpRank).freeList rank).Perm
      (((a.reserve pages dpRank).dropFree taken dpRank).freeList rank)
    rw [(a.reserve pages dpRank).freeList_dropFree_of_ne dpRank taken hne]

/-- `alloc` fails and takes nothing, or hands out whole pages. -/
theorem alloc_cases {a b : PoolAllocator} {needSize dpRank : Nat} {out : Option (List Nat)}
    (hpos : 0 < a.pageSize) (heq : a.alloc needSize dpRank = .ok (b, out)) :
    (out = none ∧ Takes a dpRank [] b) ∨
      ∃ pages, out = some (pages.flatMap (pageSlots a.pageSize)) ∧
        pages.length * a.pageSize = needSize ∧ Takes a dpRank pages b := by
  cases a with
  | token a =>
    unfold alloc TokenAllocator.alloc at heq
    dsimp only at heq
    split at heq
    · cases heq
      exact .inl ⟨rfl, .refl _, .refl _, fun _ _ => .refl _⟩
    · rename_i hroom
      cases heq
      refine .inr ⟨(a.freeSlots dpRank).take needSize, ?_, ?_, ⟨rfl, rfl, rfl⟩, ?_, ?_⟩
      · rw [PoolAllocator.pageSize, flatMap_pageSlots_one]
        rfl
      · rw [List.length_take]
        change _ * 1 = _
        omega
      · change (a.freeSlots dpRank).Perm _
        simp only [freeList, Function.update_self]
        rw [List.take_append_drop]
      · intro rank hne
        simp only [freeList, Function.update_of_ne hne]
        exact .refl _
  | paged a =>
    unfold alloc PagedAllocator.alloc at heq
    dsimp only at heq
    split at heq
    · cases heq
    · rename_i halign
      split at heq
      · cases heq
        exact .inl ⟨rfl, takes_reserve a dpRank _⟩
      · rename_i hroom
        cases heq
        have hsame := (a.sameSettings_reserve dpRank (needSize / a.pageSize)).pageSize
        refine .inr ⟨_, ?_, ?_, takes_dropFree a dpRank _ _⟩
        · rw [hsame]
          rfl
        · rw [List.length_take, Nat.min_eq_left (by omega)]
          exact Nat.div_mul_cancel (Nat.dvd_of_mod_eq_zero (not_not.mp halign))

/-- `alloc_extend` fails and takes nothing, or hands out the slots of the batch. -/
theorem allocExtend_cases {a b : PoolAllocator} {batch : List ExtendSeq} {dpRank : Nat}
    {out : Option (List Nat)} (hpos : 0 < a.pageSize)
    (heq : a.allocExtend batch (batch.map ExtendSeq.extendLen).sum dpRank = .ok (b, out)) :
    (out = none ∧ Takes a dpRank [] b) ∨
      ∃ pages, out = some (batchSlots a.pageSize batch pages) ∧
        pages.length = PagedAllocator.newPages a.pageSize batch ∧ Takes a dpRank pages b := by
  cases a with
  | token a => cases heq
  | paged a =>
    unfold allocExtend at heq
    dsimp only at heq
    rcases a.allocExtend_cases dpRank hpos batch with ⟨-, hcase⟩ | ⟨-, hroom, hcase⟩ <;>
      rw [hcase] at heq <;> cases heq
    · exact .inl ⟨rfl, takes_reserve a dpRank _⟩
    · refine .inr ⟨_, rfl, ?_, takes_dropFree a dpRank _ _⟩
      rw [List.length_take, Nat.min_eq_left hroom]
      rfl

theorem allocDecode_eq {a : PoolAllocator} (hpos : 0 < a.pageSize) (batch : List DecodeSeq)
    (dpRank : Nat) :
    a.allocDecode batch dpRank = a.allocExtend (batch.map DecodeSeq.toExtend)
      ((batch.map DecodeSeq.toExtend).map ExtendSeq.extendLen).sum dpRank := by
  cases a with
  | token a => rfl
  | paged a =>
    unfold allocDecode allocExtend
    dsimp only
    rw [a.allocDecode_eq dpRank hpos batch]

end PoolAllocator
end SglJax.MemCache
