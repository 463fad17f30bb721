import SglJax.Multimodal.MultimodalData
import SglJax.Foundation.KeyedList
import SglJax.Foundation.SliceWrites

/-! The paged cache of encoder embeddings. Its pages are free or belong to one entry; the
entries stand in the order of their last use, and the oldest one gives way first. -/
namespace SglJax.Multimodal

open Lora (Mat)
open MemCache (pagesFor)
open Foundation

/-- The pages of a cached item. `is` compares entries as objects, which the serial number
tells apart. -/
structure EmbeddingPoolEntry where
  pageIds : List Nat
  length : Nat
  serial : Nat
deriving DecidableEq, Repr

namespace EmbeddingPoolEntry

/-- `page_ids[token // page_size] * page_size + token % page_size` -/
def slot (pageSize : Nat) (entry : EmbeddingPoolEntry) (token : Nat) :
    Except MultimodalError Nat :=
  match entry.pageIds[token / pageSize]? with
  | some page => .ok (page * pageSize + token % pageSize)
  | none => .error .indexError

end EmbeddingPoolEntry

section

variable {K : Type}

/-- `pages` is flattened over its leading axes: page `p` is rows `p * page_size` and on. -/
structure EmbeddingPool (K : Type) where
  numPages : Nat
  pageSize : Nat
  freePages : List Nat
  /-- The least recently used first. -/
  entries : List (Int × EmbeddingPoolEntry)
  pages : Mat K
  /-- The serial number of the next entry. -/
  serials : Nat

namespace EmbeddingPool

def hidden (pool : EmbeddingPool K) : Nat := pool.pages.cols

/-- `__init__` -/
def init [Zero K] (numPages pageSize hidden : Nat) : EmbeddingPool K where
  numPages := numPages
  pageSize := pageSize
  freePages := List.range numPages
  entries := []
  pages := Mat.zeros (numPages * pageSize, hidden)
  serials := 0

/-- The loop of `_reserve`: the oldest entries give their pages back. -/
def evictLru (nPages : Nat) : List (Int × EmbeddingPoolEntry) → List Nat →
    Except MultimodalError (List Nat × List (Int × EmbeddingPoolEntry))
  | [], free => if free.length < nPages then .error .keyError else .ok (free, [])
  | (key, entry) :: rest, free =>
    if free.length < nPages then evictLru nPages rest (free ++ entry.pageIds)
    else .ok (free, (key, entry) :: rest)

/-- `_reserve` -/
def reserve (pool : EmbeddingPool K) (itemHash : Int) (length : Nat) :
    Except MultimodalError (Option EmbeddingPoolEntry × EmbeddingPool K) :=
  let nPages := pagesFor pool.pageSize length
  if pool.numPages < nPages then .ok (none, pool)
  else do
    let freePages := match pool.entries.lookup itemHash with
      | some previous => pool.freePages ++ previous.pageIds
      | none => pool.freePages
    let (freePages, entries) ← evictLru nPages (eraseKey pool.entries itemHash) freePages
    let entry : EmbeddingPoolEntry :=
      { pageIds := freePages.take nPages, length, serial := pool.serials }
    return (some entry, { pool with
      freePages := freePages.drop nPages
      entries := entries ++ [(itemHash, entry)]
      serials := pool.serials + 1 })

def contains (pool : EmbeddingPool K) (itemHash : Int) : Bool :=
  (pool.entries.lookup itemHash).isSome

/-- The entry becomes the most recently used. -/
def lookup (pool : EmbeddingPool K) (itemHash : Int) :
    Option EmbeddingPoolEntry × EmbeddingPool K :=
  match pool.entries.lookup itemHash with
  | some entry => (some entry, { pool with
      entries := eraseKey pool.entries itemHash ++ [(itemHash, entry)] })
  | none => (none, pool)

def clear (pool : EmbeddingPool K) : EmbeddingPool K :=
  { pool with entries := [], freePages := List.range pool.numPages }

/-- Every page is free or in one entry, and an entry has the pages its length asks for. -/
structure Partitioned (pool : EmbeddingPool K) : Prop where
  pageSize_pos : 0 < pool.pageSize
  keys : (pool.entries.map Prod.fst).Nodup
  pages_perm : (pool.freePages ++ pool.entries.flatMap fun e => e.2.pageIds).Perm
    (List.range pool.numPages)
  sized : ∀ e ∈ pool.entries, e.2.pageIds.length = pagesFor pool.pageSize e.2.length
  serial_lt : ∀ e ∈ pool.entries, e.2.serial < pool.serials
  rows : pool.pages.rows.length = pool.numPages * pool.pageSize

/-- The entry has the rows of the buffer that hold `rows`. -/
def Shows (pool : EmbeddingPool K) (entry : EmbeddingPoolEntry) (rows : List (List K)) : Prop :=
  entry.length = rows.length ∧ ∀ token < entry.length, ∃ slot,
    entry.slot pool.pageSize token = .ok slot ∧ pool.pages.rows[slot]? = rows[token]?

variable {pool pool' : EmbeddingPool K} {itemHash : Int} {length : Nat}

def pagesOf (entries : List (Int × EmbeddingPoolEntry)) : List Nat :=
  entries.flatMap fun e => e.2.pageIds

@[simp] theorem pagesOf_append (entries more : List (Int × EmbeddingPoolEntry)) :
    pagesOf (entries ++ more) = pagesOf entries ++ pagesOf more := by
  simp [pagesOf]

@[simp] theorem pagesOf_singleton (key : Int) (entry : EmbeddingPoolEntry) :
    pagesOf [(key, entry)] = entry.pageIds := by
  simp [pagesOf]

/-- The rows and the sizes are those of `pool`. -/
structure SameBuffer (pool pool' : EmbeddingPool K) : Prop where
  numPages : pool'.numPages = pool.numPages
  pageSize : pool'.pageSize = pool.pageSize
  pages : pool'.pages = pool.pages

theorem SameBuffer.refl (pool : EmbeddingPool K) : SameBuffer pool pool := ⟨rfl, rfl, rfl⟩

theorem SameBuffer.trans {pool'' : EmbeddingPool K} (h : SameBuffer pool pool')
    (h' : SameBuffer pool' pool'') : SameBuffer pool pool'' where
  numPages := h'.numPages.trans h.numPages
  pageSize := h'.pageSize.trans h.pageSize
  pages := h'.pages.trans h.pages

theorem SameBuffer.shows (h : SameBuffer pool pool') {entry : EmbeddingPoolEntry}
    {rows : List (List K)} : pool'.Shows entry rows ↔ pool.Shows entry rows := by
  rw [Shows, Shows, h.pageSize, h.pages]

theorem init_partitioned [Zero K] (numPages hidden : Nat) {pageSize : Nat} (h : 0 < pageSize) :
    (init (K := K) numPages pageSize hidden).Partitioned where
  pageSize_pos := h
  keys := .nil
  pages_perm := by simp [init]
  sized := fun e he => by cases he
  serial_lt := fun e he => by cases he
  rows := by simp [init, Mat.zeros]

theorem clear_partitioned (h : pool.Partitioned) : pool.clear.Partitioned where
  pageSize_pos := h.pageSize_pos
  keys := .nil
  pages_perm := by simp [clear]
  sized := fun e he => by cases he
  serial_lt := fun e he => by cases he
  rows := h.rows

/-- With pages enough in all, the oldest entries that are needed go, and no error is raised. -/
theorem evictLru_spec {nPages : Nat} {entries : List (Int × EmbeddingPoolEntry)} {free : List Nat}
    (hroom : nPages ≤ (free ++ pagesOf entries).length) :
    ∃ evicted kept, entries = evicted ++ kept ∧
      evictLru nPages entries free = .ok (free ++ pagesOf evicted, kept) ∧
      nPages ≤ (free ++ pagesOf evicted).length := by
  induction entries generalizing free with
  | nil =>
    refine ⟨[], [], rfl, ?_, by simpa [pagesOf] using hroom⟩
    have hlen : ¬ free.length < nPages := by simpa [pagesOf] using hroom
    simp [evictLru, hlen, pagesOf]
  | cons e entries ih =>
    obtain ⟨key, entry⟩ := e
    have hcons : pagesOf ((key, entry) :: entries) = entry.pageIds ++ pagesOf entries := by
      simp [pagesOf]
    by_cases hlen : free.length < nPages
    · rw [hcons, ← List.append_assoc] at hroom
      obtain ⟨evicted, kept, hsplit, hrun, henough⟩ := ih hroom
      refine ⟨(key, entry) :: evicted, kept, by rw [hsplit, List.cons_append], ?_, ?_⟩
      · rw [evictLru, if_pos hlen, hrun]
        simp [pagesOf]
      · simpa [pagesOf] using henough
    · refine ⟨[], (key, entry) :: entries, rfl, ?_, ?_⟩
      · simp [evictLru, hlen, pagesOf]
      · simpa [pagesOf] using hlen

/-- The pages that are free once the item's own entry has given its pages back. -/
theorem freed_perm (h : pool.Partitioned) (itemHash : Int) :
    ((match pool.entries.lookup itemHash with
      | some previous => pool.freePages ++ previous.pageIds
      | none => pool.freePages) ++ pagesOf (eraseKey pool.entries itemHash)).Perm
      (List.range pool.numPages) := by
  refine .trans ?_ h.pages_perm
  cases hprev : pool.entries.lookup itemHash with
  | none => rw [eraseKey_of_lookup_none hprev]; exact .refl _
  | some previous =>
    simp only [List.append_assoc]
    apply List.Perm.append_left
    have hmoved := (perm_eraseKey_concat h.keys hprev).flatMap_right fun e => e.2.pageIds
    refine .trans List.perm_append_comm (.trans ?_ hmoved)
    simp [pagesOf]

/-- What `_reserve` does: an item longer than the pool leaves it as it is, any other one gets
its pages, and of the other entries the oldest go. -/
theorem reserve_cases (h : pool.Partitioned) (itemHash : Int) (length : Nat) :
    (pool.numPages < pagesFor pool.pageSize length ∧
      pool.reserve itemHash length = .ok (none, pool)) ∨
    (pagesFor pool.pageSize length ≤ pool.numPages ∧ ∃ entry pool',
      pool.reserve itemHash length = .ok (some entry, pool') ∧ pool'.Partitioned ∧
      SameBuffer pool pool' ∧ entry.length = length ∧ entry.serial = pool.serials ∧
      pool'.serials = pool.serials + 1 ∧ ∃ evicted kept,
        eraseKey pool.entries itemHash = evicted ++ kept ∧
        pool'.entries = kept ++ [(itemHash, entry)]) := by
  have hperm := freed_perm h itemHash
  unfold reserve
  generalize (match pool.entries.lookup itemHash with
    | some previous => pool.freePages ++ previous.pageIds
    | none => pool.freePages) = free at hperm
  rcases Nat.lt_or_ge pool.numPages (pagesFor pool.pageSize length) with hlarge | hfits
  · left
    exact ⟨hlarge, if_pos hlarge⟩
  · right
    refine ⟨hfits, ?_⟩
    have hroom : pagesFor pool.pageSize length ≤
        (free ++ pagesOf (eraseKey pool.entries itemHash)).length := by
      rwa [hperm.length_eq, List.length_range]
    obtain ⟨evicted, kept, hsplit, hrun, henough⟩ := evictLru_spec hroom
    have hmem : ∀ e ∈ kept, e ∈ pool.entries ∧ e.1 ≠ itemHash := fun e he => by
      rw [← mem_eraseKey, hsplit]
      exact List.mem_append_right _ he
    let entry : EmbeddingPoolEntry :=
      { pageIds := (free ++ pagesOf evicted).take (pagesFor pool.pageSize length)
        length, serial := pool.serials }
    refine ⟨entry, { pool with
      freePages := (free ++ pagesOf evicted).drop (pagesFor pool.pageSize length)
      entries := kept ++ [(itemHash, entry)]
      serials := pool.serials + 1 }, by simp only [if_neg (Nat.not_lt.mpr hfits), hrun]; rfl, ?_,
      ⟨rfl, rfl, rfl⟩, rfl, rfl, rfl, evicted, kept, hsplit, rfl⟩
    refine ⟨h.pageSize_pos, ?_, ?_, ?_, ?_, h.rows⟩
    · have hkept : (kept.map Prod.fst).Nodup := by
        have hnodup := nodup_keys_eraseKey h.keys itemHash
        rw [hsplit, List.map_append] at hnodup
        exact hnodup.of_append_right
      apply nodup_keys_concat hkept
      intro hin
      obtain ⟨e, he, heq⟩ := List.mem_map.mp hin
      exact (hmem e he).2 heq
    · show ((free ++ pagesOf evicted).drop (pagesFor pool.pageSize length) ++
        pagesOf (kept ++ [(itemHash, entry)])).Perm _
      rw [pagesOf_append, pagesOf_singleton]
      refine .trans ?_ hperm
      rw [hsplit, pagesOf_append, ← List.append_assoc free]
      conv_rhs => rw [← List.take_append_drop (pagesFor pool.pageSize length)
        (free ++ pagesOf evicted), List.append_assoc]
      rw [← List.append_assoc]
      exact List.perm_append_comm
    · intro e he
      rcases List.mem_append.mp he with he | he
      · exact h.sized e (hmem e he).1
      · rw [List.mem_singleton.mp he]
        show ((free ++ pagesOf evicted).take _).length = _
        rw [List.length_take, Nat.min_eq_left henough]
    · intro e he
      rcases List.mem_append.mp he with he | he
      · exact Nat.lt_succ_of_lt (h.serial_lt e (hmem e he).1)
      · rw [List.mem_singleton.mp he]
        exact Nat.lt_succ_self _

/-- A lookup changes only the order of the entries. -/
theorem lookup_spec (h : pool.Partitioned) (itemHash : Int) :
    (pool.lookup itemHash).1 = pool.entries.lookup itemHash ∧
    (pool.lookup itemHash).2.Partitioned ∧ SameBuffer pool (pool.lookup itemHash).2 ∧
    (pool.lookup itemHash).2.serials = pool.serials ∧
    (pool.lookup itemHash).2.entries.Perm pool.entries := by
  unfold lookup
  cases hentry : pool.entries.lookup itemHash with
  | none => exact ⟨rfl, h, .refl pool, rfl, .refl _⟩
  | some entry =>
    have hperm := perm_eraseKey_concat h.keys hentry
    refine ⟨rfl, ⟨h.pageSize_pos, ?_, ?_, ?_, ?_, h.rows⟩, ⟨rfl, rfl, rfl⟩, rfl, hperm⟩
    · exact (hperm.map Prod.fst).nodup_iff.mpr h.keys
    · exact ((hperm.flatMap_right _).append_left _).trans h.pages_perm
    · exact fun e he => h.sized e (hperm.mem_iff.mp he)
    · exact fun e he => h.serial_lt e (hperm.mem_iff.mp he)

namespace Partitioned

theorem pagesOf_nodup (h : pool.Partitioned) : (pagesOf pool.entries).Nodup :=
  (h.pages_perm.nodup_iff.mpr List.nodup_range).of_append_right

theorem pageIds_nodup (h : pool.Partitioned) {e : Int × EmbeddingPoolEntry}
    (he : e ∈ pool.entries) : e.2.pageIds.Nodup :=
  (List.nodup_flatMap.mp h.pagesOf_nodup).1 e he

theorem page_lt (h : pool.Partitioned) {e : Int × EmbeddingPoolEntry} (he : e ∈ pool.entries)
    {page : Nat} (hpage : page ∈ e.2.pageIds) : page < pool.numPages := by
  rw [← List.mem_range, ← h.pages_perm.mem_iff]
  exact List.mem_append_right _ (List.mem_flatMap.mpr ⟨e, he, hpage⟩)

/-- A page belongs to one entry only. -/
theorem entry_unique (h : pool.Partitioned) {e f : Int × EmbeddingPoolEntry}
    (he : e ∈ pool.entries) (hf : f ∈ pool.entries) {page : Nat}
    (hpage : page ∈ e.2.pageIds) (hpage' : page ∈ f.2.pageIds) : e = f := by
  by_contra hne
  have hpairs := (List.nodup_flatMap.mp h.pagesOf_nodup).2
  have : Std.Symm (Function.onFun List.Disjoint fun e : Int × EmbeddingPoolEntry =>
    e.2.pageIds) := ⟨fun _ _ hd => hd.symm⟩
  exact hpairs.forall he hf hne hpage hpage'

end Partitioned

end EmbeddingPool

namespace EmbeddingPoolEntry

variable {pageSize token token' slot : Nat} {entry : EmbeddingPoolEntry}

theorem slot_eq_ok : entry.slot pageSize token = .ok slot ↔
    ∃ page, entry.pageIds[token / pageSize]? = some page ∧
      slot = page * pageSize + token % pageSize := by
  unfold EmbeddingPoolEntry.slot
  cases entry.pageIds[token / pageSize]? <;> simp [eq_comm]

theorem page_of_slot (hpage : 0 < pageSize) (h : entry.slot pageSize token = .ok slot) :
    entry.pageIds[token / pageSize]? = some (slot / pageSize) ∧
      slot % pageSize = token % pageSize := by
  obtain ⟨page, hget, rfl⟩ := slot_eq_ok.mp h
  have hlt := Nat.mod_lt token hpage
  rw [Nat.mul_comm, Nat.mul_add_div hpage, Nat.div_eq_of_lt hlt, Nat.mul_add_mod,
    Nat.mod_mod, Nat.add_zero]
  exact ⟨hget, rfl⟩

theorem page_mem_of_slot (hpage : 0 < pageSize) (h : entry.slot pageSize token = .ok slot) :
    slot / pageSize ∈ entry.pageIds :=
  List.mem_of_getElem? (page_of_slot hpage h).1

/-- Two tokens of an entry do not share a row. -/
theorem slot_inj (hpage : 0 < pageSize) (hnodup : entry.pageIds.Nodup)
    (h : entry.slot pageSize token = .ok slot) (h' : entry.slot pageSize token' = .ok slot) :
    token = token' := by
  obtain ⟨hget, hmod⟩ := page_of_slot hpage h
  obtain ⟨hget', hmod'⟩ := page_of_slot hpage h'
  have hdiv : token / pageSize = token' / pageSize :=
    (List.getElem?_inj (List.getElem?_eq_some_iff.mp hget).1 hnodup).mp (hget.trans hget'.symm)
  rw [← Nat.div_add_mod token pageSize, ← Nat.div_add_mod token' pageSize, hdiv, ← hmod, ← hmod']

theorem slot_ok (hpage : 0 < pageSize) {length : Nat}
    (hsized : entry.pageIds.length = pagesFor pageSize length) (h : token < length) :
    ∃ slot, entry.slot pageSize token = .ok slot := by
  have hlt : token / pageSize < entry.pageIds.length := by
    rw [hsized]
    exact MemCache.div_lt_pagesFor hpage h
  exact ⟨_, slot_eq_ok.mpr ⟨_, List.getElem?_eq_getElem hlt, rfl⟩⟩

end EmbeddingPoolEntry

end

end SglJax.Multimodal
