import SglJax.Foundation.Results
import SglJax.Multimodal.EmbeddingPool

/-! `write_packed`: all items are placed first, and an item may push out one that was
placed before it. Only the rows of the placements that are left are written. -/
namespace SglJax.Multimodal

open Lora (Mat)
open MemCache (pagesFor)
open Foundation

/-- The rows `offset` to `offset + length` of the packed array are those of an item. -/
structure PackedItem where
  hash : Int
  length : Nat
  write : Bool
  offset : Nat
deriving DecidableEq, Repr

namespace PackedItem

/-- Two items have no row of the packed array in common. -/
def Apart (a b : PackedItem) : Prop :=
  ∀ i, ¬ ((a.offset ≤ i ∧ i < a.offset + a.length) ∧ b.offset ≤ i ∧ i < b.offset + b.length)

def rows {K : Type} (packed : Mat K) (item : PackedItem) : List (List K) :=
  (packed.rows.drop item.offset).take item.length

end PackedItem

variable {K : Type}

namespace EmbeddingPool

/-- The first loop of `write_packed`. -/
def reserveAll : List PackedItem → EmbeddingPool K →
    Except MultimodalError (List (Option EmbeddingPoolEntry) × EmbeddingPool K)
  | [], pool => .ok ([], pool)
  | item :: items, pool => do
    let (entry, pool) ←
      if item.write then pool.reserve item.hash item.length else .ok (none, pool)
    let (entries, pool) ← reserveAll items pool
    return (entry :: entries, pool)

/-- `self._entries.get(int(item_hash)) is entry` -/
def current (pool : EmbeddingPool K) (item : PackedItem) (entry : Option EmbeddingPoolEntry) :
    Option EmbeddingPoolEntry :=
  entry.filter fun entry => pool.entries.lookup item.hash = some entry

/-- The second loop: the slots of the placements that are left. -/
def placeAll (pool : EmbeddingPool K) : List (PackedItem × Option EmbeddingPoolEntry) →
    List Int → Except MultimodalError (List Int)
  | [], slots => .ok slots
  | (item, entry) :: rest, slots =>
    match pool.current item entry with
    | some entry => do
      let values ← (List.range entry.length).mapM (entry.slot pool.pageSize)
      placeAll pool rest (assign slots item.offset (values.map Int.ofNat))
    | none => placeAll pool rest slots

theorem length_mem_scatterDrop {n : Nat} {l : List (List K)} {writes : List (Int × List K)}
    (hl : ∀ row ∈ l, row.length = n) (hwrites : ∀ w ∈ writes, w.2.length = n) :
    ∀ row ∈ scatterDrop l writes, row.length = n := by
  induction writes generalizing l with
  | nil => exact hl
  | cons w writes ih =>
    rw [scatterDrop_cons]
    apply ih ?_ fun u hu => hwrites u (List.mem_cons_of_mem w hu)
    intro row hrow
    split at hrow
    · rcases List.mem_or_eq_of_mem_set hrow with hrow | rfl
      · exact hl row hrow
      · exact hwrites w List.mem_cons_self
    · exact hl row hrow

/-- `_scatter_rows` -/
def scatterRows (buffer : Mat K) (slots : List Int) (rows : Mat K) :
    Except MultimodalError (Mat K) :=
  if h : rows.cols = buffer.cols then
    .ok { cols := buffer.cols
          rows := scatterDrop buffer.rows (slots.zip rows.rows)
          length_row := length_mem_scatterDrop buffer.length_row fun w hw => by
            rw [← h]
            exact rows.length_row w.2 (List.of_mem_zip hw).2 }
  else .error .shapeError

def writeItems (pool : EmbeddingPool K) (packed : Mat K) (items : List PackedItem) :
    Except MultimodalError (List (Option EmbeddingPoolEntry) × EmbeddingPool K) := do
  let (placed, pool) ← reserveAll items pool
  let slots ← pool.placeAll (items.zip placed) (List.replicate packed.rows.length (-1))
  let results := (items.zip placed).map fun p => pool.current p.1 p.2
  if results.any fun entry => entry.any fun entry => 0 < entry.length then
    let pages ← scatterRows pool.pages slots packed
    return (results, { pool with pages := pages })
  else return (results, pool)

/-- `np.cumsum([0, *lengths[:-1]])`, from a given start. -/
def startOffsets : Int → List Int → List Int
  | _, [] => []
  | start, length :: lengths => start :: startOffsets (start + length) lengths

/-- What the four lists say of each item. -/
def packedItems (itemHashes lengths : List Int) (writeMask : List Bool)
    (itemOffsets : List Int) : List PackedItem :=
  (itemHashes.zip (lengths.zip (writeMask.zip itemOffsets))).map fun p =>
    ⟨p.1, p.2.1.toNat, p.2.2.1, p.2.2.2.toNat⟩

end EmbeddingPool

/-- The arguments of `write_packed`. -/
structure PackedWrite (K : Type) where
  itemHashes : List Int
  packed : Mat K
  lengths : List Int
  writeMask : Option (List Bool)
  itemOffsets : Option (List Int)

namespace PackedWrite

variable (call : PackedWrite K)

def mask : List Bool := call.writeMask.getD (List.replicate call.lengths.length true)

def offsets : List Int := call.itemOffsets.getD (EmbeddingPool.startOffsets 0 call.lengths)

def capacity : Nat := call.packed.rows.length

def items : List PackedItem :=
  EmbeddingPool.packedItems call.itemHashes call.lengths call.mask call.offsets

end PackedWrite

namespace EmbeddingPool

def writePacked (pool : EmbeddingPool K) (call : PackedWrite K) :
    Except MultimodalError (List (Option EmbeddingPoolEntry) × EmbeddingPool K) :=
  if call.itemHashes.length ≠ call.lengths.length then
    .error (.itemCountMismatch call.itemHashes.length call.lengths.length)
  else if call.mask.length ≠ call.lengths.length then
    .error (.maskCountMismatch call.mask.length call.lengths.length)
  else if call.packed.cols ≠ pool.hidden then
    .error (.packedShape call.capacity call.packed.cols)
  else if (∃ length ∈ call.lengths, length < 0) ∨ (call.capacity : Int) < call.lengths.sum then
    .error (.invalidItemLengths call.lengths call.capacity)
  else if call.offsets.length ≠ call.lengths.length ∨
      ∃ p ∈ call.offsets.zip call.lengths, p.1 < 0 ∨ (call.capacity : Int) < p.1 + p.2 then
    .error .invalidPackedSourceOffsets
  else pool.writeItems call.packed call.items

/-- `precompile_packed_write`: a write of no row. -/
def precompilePackedWrite [Zero K] (pool : EmbeddingPool K) (capacity : Int) :
    Except MultimodalError (EmbeddingPool K) :=
  if capacity ≤ 0 then .error .packedWriterCapacity
  else do
    let pages ← scatterRows pool.pages (List.replicate capacity.toNat (-1))
      (Mat.zeros (capacity.toNat, pool.hidden))
    return { pool with pages := pages }

/-- The last of the items with a hash that is written and is not too long for the pool. -/
def lastItem (pool : EmbeddingPool K) (itemHash : Int) : List PackedItem → Option PackedItem
  | [] => none
  | item :: items => (pool.lastItem itemHash items).or
      (if item.write ∧ item.hash = itemHash ∧ pagesFor pool.pageSize item.length ≤ pool.numPages
        then some item else none)

variable {pool pool' : EmbeddingPool K} {items : List PackedItem}

/-- What placing the items comes to: an entry of the pool is that of the last item with its
hash, and was there before where there is none. -/
structure Placed (pool : EmbeddingPool K) (items : List PackedItem)
    (placed : List (Option EmbeddingPoolEntry)) (pool' : EmbeddingPool K) : Prop where
  partitioned : pool'.Partitioned
  buffer : SameBuffer pool pool'
  serials_le : pool.serials ≤ pool'.serials
  count : placed.length = items.length
  entry_length : ∀ p ∈ items.zip placed, ∀ entry, p.2 = some entry → entry.length = p.1.length
  serial_ge : ∀ p ∈ items.zip placed, ∀ entry, p.2 = some entry → pool.serials ≤ entry.serial
  serial_ne : (items.zip placed).Pairwise fun p q => ∀ entry other, p.2 = some entry →
    q.2 = some other → entry.serial ≠ other.serial
  entries : ∀ e ∈ pool'.entries,
    (pool.lastItem e.1 items = none ∧ e ∈ pool.entries) ∨
    ∃ item, pool.lastItem e.1 items = some item ∧ (item, some e.2) ∈ items.zip placed

theorem lastItem_hash {itemHash : Int} {item : PackedItem}
    (h : pool.lastItem itemHash items = some item) : item.hash = itemHash := by
  induction items with
  | nil => simp [lastItem] at h
  | cons other items ih =>
    rw [lastItem] at h
    cases hlast : pool.lastItem itemHash items with
    | some last =>
      rw [hlast] at h ih
      exact ih (by simpa using h)
    | none =>
      rw [hlast, Option.none_or] at h
      split at h
      · next hcond => rw [← Option.some.inj h, hcond.2.1]
      · cases h

theorem SameBuffer.lastItem (h : SameBuffer pool pool') (itemHash : Int)
    (items : List PackedItem) : pool'.lastItem itemHash items = pool.lastItem itemHash items := by
  induction items with
  | nil => rfl
  | cons item items ih => rw [EmbeddingPool.lastItem, EmbeddingPool.lastItem, ih, h.pageSize,
      h.numPages]

theorem Placed.nil (h : pool.Partitioned) : Placed pool [] [] pool where
  partitioned := h
  buffer := .refl pool
  serials_le := le_rfl
  count := rfl
  entry_length := fun p hp => by cases hp
  serial_ge := fun p hp => by cases hp
  serial_ne := .nil
  entries := fun e he => .inl ⟨rfl, he⟩

/-- An item that is not written, or is too long for the pool, changes nothing. -/
theorem Placed.skip {placed : List (Option EmbeddingPoolEntry)} {item : PackedItem}
    (h : Placed pool items placed pool')
    (hskip : ¬ (item.write ∧ pagesFor pool.pageSize item.length ≤ pool.numPages)) :
    Placed pool (item :: items) (none :: placed) pool' where
  partitioned := h.partitioned
  buffer := h.buffer
  serials_le := h.serials_le
  count := congrArg (· + 1) h.count
  entry_length := by
    intro p hp entry hentry
    rcases List.mem_cons.mp hp with rfl | hp
    · cases hentry
    · exact h.entry_length p hp entry hentry
  serial_ge := by
    intro p hp entry hentry
    rcases List.mem_cons.mp hp with rfl | hp
    · cases hentry
    · exact h.serial_ge p hp entry hentry
  serial_ne := List.pairwise_cons.mpr ⟨fun _ _ _ _ hentry => (by cases hentry), h.serial_ne⟩
  entries := by
    intro e he
    have hlast : pool.lastItem e.1 (item :: items) = pool.lastItem e.1 items := by
      rw [lastItem, if_neg fun hall => hskip ⟨hall.1, hall.2.2⟩, Option.or_none]
    rw [hlast]
    refine (h.entries e he).imp_right fun ⟨last, hsome, hmem⟩ => ⟨last, hsome, ?_⟩
    exact List.mem_cons_of_mem _ hmem

/-- An item that got its pages before the others are placed. -/
theorem Placed.reserve {pool₁ : EmbeddingPool K} {placed : List (Option EmbeddingPoolEntry)}
    {item : PackedItem} {entry : EmbeddingPoolEntry} (h : Placed pool₁ items placed pool')
    (hbuffer : SameBuffer pool pool₁) (hwrite : item.write = true)
    (hfits : pagesFor pool.pageSize item.length ≤ pool.numPages)
    (hlength : entry.length = item.length) (hserial : entry.serial = pool.serials)
    (hserials : pool₁.serials = pool.serials + 1) {kept : List (Int × EmbeddingPoolEntry)}
    (hkept : ∀ e ∈ kept, e ∈ pool.entries ∧ e.1 ≠ item.hash)
    (hentries : pool₁.entries = kept ++ [(item.hash, entry)]) :
    Placed pool (item :: items) (some entry :: placed) pool' where
  partitioned := h.partitioned
  buffer := hbuffer.trans h.buffer
  serials_le := by
    have := h.serials_le
    omega
  count := congrArg (· + 1) h.count
  entry_length := by
    intro p hp other hother
    rcases List.mem_cons.mp hp with rfl | hp
    · rw [← Option.some.inj hother, hlength]
    · exact h.entry_length p hp other hother
  serial_ge := by
    intro p hp other hother
    rcases List.mem_cons.mp hp with rfl | hp
    · rw [← Option.some.inj hother, hserial]
    · have := h.serial_ge p hp other hother
      omega
  serial_ne := by
    refine List.pairwise_cons.mpr ⟨?_, h.serial_ne⟩
    intro q hq other another hother hanother
    have := h.serial_ge q hq another hanother
    rw [← Option.some.inj hother, hserial]
    omega
  entries := by
    intro e he
    rw [lastItem, ← hbuffer.lastItem]
    rcases h.entries e he with ⟨hnone, hold⟩ | ⟨last, hsome, hmem⟩
    · rw [hnone, Option.none_or]
      rw [hentries] at hold
      rcases List.mem_append.mp hold with hold | hnew
      · left
        exact ⟨if_neg fun hall => (hkept e hold).2 hall.2.1.symm, (hkept e hold).1⟩
      · right
        rw [List.mem_singleton.mp hnew]
        exact ⟨item, if_pos ⟨hwrite, rfl, hfits⟩, List.mem_cons_self⟩
    · right
      refine ⟨last, by rw [hsome, Option.some_or], List.mem_cons_of_mem _ hmem⟩

/-- All items are placed, whatever entries have to go for them. -/
theorem reserveAll_spec (h : pool.Partitioned) (items : List PackedItem) :
    ∃ placed pool', reserveAll items pool = .ok (placed, pool') ∧
      Placed pool items placed pool' := by
  induction items generalizing pool with
  | nil =>
    exact ⟨[], pool, rfl, .nil h⟩
  | cons item items ih =>
    cases hwrite : item.write with
    | false =>
      obtain ⟨placed, pool', hrun, hplaced⟩ := ih h
      refine ⟨none :: placed, pool', ?_, hplaced.skip fun hall => by simp [hwrite] at hall⟩
      simp only [reserveAll, hwrite, Bool.false_eq_true, if_false, ok_bind, hrun]
      rfl
    | true =>
      rcases reserve_cases h item.hash item.length with ⟨hlarge, hnone⟩ | ⟨hfits, entry, pool₁,
        hsome, hpart, hbuffer, hlength, hserial, hserials, evicted, kept, hsplit, hentries⟩
      · obtain ⟨placed, pool', hrun, hplaced⟩ := ih h
        refine ⟨none :: placed, pool', ?_, hplaced.skip fun hall =>
          absurd hall.2 (Nat.not_le.mpr hlarge)⟩
        simp only [reserveAll, hwrite, if_true, hnone, ok_bind, hrun]
        rfl
      · obtain ⟨placed, pool', hrun, hplaced⟩ := ih hpart
        refine ⟨some entry :: placed, pool', ?_, hplaced.reserve hbuffer hwrite hfits hlength
          hserial hserials (fun e he => ?_) hentries⟩
        · simp only [reserveAll, hwrite, if_true, hsome, ok_bind, hrun]
          rfl
        · rw [← mem_eraseKey, hsplit]
          exact List.mem_append_right _ he

theorem current_eq_some {item : PackedItem} {placed : Option EmbeddingPoolEntry}
    {entry : EmbeddingPoolEntry} : pool.current item placed = some entry ↔
      placed = some entry ∧ pool.entries.lookup item.hash = some entry := by
  rw [current, Option.filter_eq_some_iff, decide_eq_true_eq]

theorem mem_entries_of_current (h : pool.Partitioned) {item : PackedItem}
    {placed : Option EmbeddingPoolEntry} {entry : EmbeddingPoolEntry}
    (hcurrent : pool.current item placed = some entry) : (item.hash, entry) ∈ pool.entries :=
  (lookup_eq_some_iff h.keys).mp (current_eq_some.mp hcurrent).2

/-- The slot of a row, where it has one. -/
def slotAt (pool : EmbeddingPool K) (entry : EmbeddingPoolEntry) (row : Nat) : Nat :=
  (entry.slot pool.pageSize row).toOption.getD 0

theorem slot_eq_slotAt (h : pool.Partitioned) {e : Int × EmbeddingPoolEntry}
    (he : e ∈ pool.entries) {row : Nat} (hrow : row < e.2.length) :
    e.2.slot pool.pageSize row = .ok (pool.slotAt e.2 row) := by
  obtain ⟨slot, hslot⟩ := EmbeddingPoolEntry.slot_ok h.pageSize_pos (h.sized e he) hrow
  rw [slotAt, hslot]
  rfl

theorem slotAt_lt (h : pool.Partitioned) {e : Int × EmbeddingPoolEntry}
    (he : e ∈ pool.entries) {row : Nat} (hrow : row < e.2.length) :
    pool.slotAt e.2 row < pool.pages.rows.length := by
  rw [h.rows, ← Nat.div_lt_iff_lt_mul h.pageSize_pos]
  exact h.page_lt he
    (EmbeddingPoolEntry.page_mem_of_slot h.pageSize_pos (slot_eq_slotAt h he hrow))

/-- A row of the buffer is in one place of one entry. -/
theorem slotAt_unique (h : pool.Partitioned) {e f : Int × EmbeddingPoolEntry}
    (he : e ∈ pool.entries) (hf : f ∈ pool.entries) {row row' : Nat} (hrow : row < e.2.length)
    (hrow' : row' < f.2.length) (heq : pool.slotAt e.2 row = pool.slotAt f.2 row') :
    e = f ∧ row = row' := by
  have hslot := slot_eq_slotAt h he hrow
  have hslot' := slot_eq_slotAt h hf hrow'
  rw [← heq] at hslot'
  have hsame : e = f := h.entry_unique he hf
    (EmbeddingPoolEntry.page_mem_of_slot h.pageSize_pos hslot)
    (EmbeddingPoolEntry.page_mem_of_slot h.pageSize_pos hslot')
  subst hsame
  exact ⟨rfl, EmbeddingPoolEntry.slot_inj h.pageSize_pos (h.pageIds_nodup he) hslot hslot'⟩

/-- The slices of the slot array that are written. -/
def slotWrites (pool : EmbeddingPool K) (pairs : List (PackedItem × Option EmbeddingPoolEntry)) :
    List (SliceWrite Int) :=
  pairs.filterMap fun p => (pool.current p.1 p.2).map fun entry =>
    ⟨p.1.offset, (List.range entry.length).map fun row => (pool.slotAt entry row : Int)⟩

theorem placeAll_eq (h : pool.Partitioned) (pairs : List (PackedItem × Option EmbeddingPoolEntry))
    (slots : List Int) :
    pool.placeAll pairs slots = .ok (assignAll slots (pool.slotWrites pairs)) := by
  induction pairs generalizing slots with
  | nil => rfl
  | cons p pairs ih =>
    obtain ⟨item, placed⟩ := p
    cases hcurrent : pool.current item placed with
    | none => simp only [placeAll, hcurrent, ih, slotWrites, List.filterMap_cons, Option.map_none]
    | some entry =>
      have hvalues : (List.range entry.length).mapM (entry.slot pool.pageSize) =
          .ok ((List.range entry.length).map (pool.slotAt entry)) :=
        mapM_eq_ok fun row hrow => slot_eq_slotAt h (mem_entries_of_current h hcurrent)
          (List.mem_range.mp hrow)
      simp only [placeAll, hcurrent, hvalues, ok_bind, ih, slotWrites, List.filterMap_cons,
        Option.map_some, assignAll_cons, List.map_map]
      rfl

section Scatter

variable {placed : List (Option EmbeddingPoolEntry)} {packed : Mat K}

theorem mem_slotWrites {w : SliceWrite Int} : w ∈ pool.slotWrites (items.zip placed) ↔
    ∃ item entry, (item, some entry) ∈ items.zip placed ∧
      pool.entries.lookup item.hash = some entry ∧
      w = ⟨item.offset,
        (List.range entry.length).map fun row => (pool.slotAt entry row : Int)⟩ := by
  rw [slotWrites, List.mem_filterMap]
  constructor
  · rintro ⟨⟨item, placed⟩, hmem, hw⟩
    obtain ⟨entry, hcurrent, rfl⟩ := Option.map_eq_some_iff.mp hw
    obtain ⟨rfl, hlookup⟩ := current_eq_some.mp hcurrent
    exact ⟨item, entry, hmem, hlookup, rfl⟩
  · rintro ⟨item, entry, hmem, hlookup, rfl⟩
    refine ⟨(item, some entry), hmem, ?_⟩
    rw [current_eq_some.mpr ⟨rfl, hlookup⟩, Option.map_some]

/-- The slices of the items are inside the packed array and apart from one another. -/
structure Sliced (packed : Mat K) (items : List PackedItem) : Prop where
  inside : ∀ item ∈ items, item.offset + item.length ≤ packed.rows.length
  apart : items.Pairwise PackedItem.Apart

variable (pool₀ : EmbeddingPool K)

theorem slotWrites_fits (h : Placed pool₀ items placed pool) (hsliced : Sliced packed items) :
    ∀ w ∈ pool.slotWrites (items.zip placed), w.Fits packed.rows.length := by
  intro w hw
  obtain ⟨item, entry, hmem, -, rfl⟩ := mem_slotWrites.mp hw
  have hlength : entry.length = item.length := h.entry_length _ hmem entry rfl
  simpa [SliceWrite.Fits, hlength] using hsliced.inside item (List.of_mem_zip hmem).1

theorem slotWrites_apart (h : Placed pool₀ items placed pool) (hsliced : Sliced packed items) :
    (pool.slotWrites (items.zip placed)).Pairwise SliceWrite.Apart := by
  have hpairs : (items.zip placed).Pairwise fun p q => p.1.Apart q.1 := by
    rw [← List.pairwise_map (f := Prod.fst), List.map_fst_zip (Nat.le_of_eq h.count.symm)]
    exact hsliced.apart
  refine List.Pairwise.filterMap _ ?_ (List.Pairwise.and_mem.mp hpairs)
  rintro ⟨item, placed⟩ ⟨item', placed'⟩ ⟨hmem, hmem', hapart⟩ w hw w' hw' i ⟨hi, hi'⟩
  obtain ⟨entry, hcurrent, rfl⟩ := Option.map_eq_some_iff.mp hw
  obtain ⟨entry', hcurrent', rfl⟩ := Option.map_eq_some_iff.mp hw'
  have hlength := h.entry_length _ hmem entry (current_eq_some.mp hcurrent).1
  have hlength' := h.entry_length _ hmem' entry' (current_eq_some.mp hcurrent').1
  simp only [SliceWrite.Covers, List.length_map, List.length_range, hlength, hlength'] at hi hi'
  exact hapart i ⟨hi, hi'⟩

/-- The slot array of `write_packed`. -/
def slotArray (pool : EmbeddingPool K) (packed : Mat K)
    (pairs : List (PackedItem × Option EmbeddingPoolEntry)) : List Int :=
  assignAll (List.replicate packed.rows.length (-1)) (pool.slotWrites pairs)

theorem getElem?_slotArray (h : Placed pool₀ items placed pool) (hsliced : Sliced packed items)
    {item : PackedItem} {entry : EmbeddingPoolEntry} (hmem : (item, some entry) ∈ items.zip placed)
    (hlookup : pool.entries.lookup item.hash = some entry) {row : Nat}
    (hrow : row < entry.length) :
    (pool.slotArray packed (items.zip placed))[item.offset + row]? =
      some (pool.slotAt entry row : Int) := by
  have hw := mem_slotWrites.mpr ⟨item, entry, hmem, hlookup, rfl⟩
  have hfits := slotWrites_fits pool₀ h hsliced
  rw [← List.length_replicate (n := packed.rows.length) (a := (-1 : Int))] at hfits
  rw [slotArray, getElem?_assignAll_of_apart hfits (slotWrites_apart pool₀ h hsliced) hw]
  · simp [hrow]
  · simpa [SliceWrite.Covers] using hrow

/-- A place of the slot array that has a slot is a row of an item that is written. -/
theorem of_getElem?_slotArray (h : Placed pool₀ items placed pool) (hsliced : Sliced packed items)
    {place slot : Nat} (hslot : (pool.slotArray packed (items.zip placed))[place]? =
      some (slot : Int)) :
    ∃ item entry, (item, some entry) ∈ items.zip placed ∧
      pool.entries.lookup item.hash = some entry ∧ ∃ row < entry.length,
        place = item.offset + row ∧ slot = pool.slotAt entry row := by
  have hfits := slotWrites_fits pool₀ h hsliced
  rw [← List.length_replicate (n := packed.rows.length) (a := (-1 : Int))] at hfits
  by_cases hcovers : ∃ w ∈ pool.slotWrites (items.zip placed), w.Covers place
  · obtain ⟨w, hw, hcover⟩ := hcovers
    obtain ⟨item, entry, hmem, hlookup, rfl⟩ := mem_slotWrites.mp hw
    simp only [SliceWrite.Covers, List.length_map, List.length_range] at hcover
    refine ⟨item, entry, hmem, hlookup, place - item.offset, by omega, by omega, ?_⟩
    have hrow : place - item.offset < entry.length := by omega
    have hget := getElem?_slotArray pool₀ h hsliced hmem hlookup hrow
    rw [Nat.add_sub_cancel' hcover.1, hslot] at hget
    exact_mod_cast Option.some.inj hget
  · exfalso
    have hlt : place < packed.rows.length := by
      have hlt := (List.getElem?_eq_some_iff.mp hslot).1
      rwa [slotArray, length_assignAll hfits, List.length_replicate] at hlt
    have hnone := getElem?_assignAll (v := -1) hfits
      (fun w hw hcover => absurd ⟨w, hw, hcover⟩ hcovers)
      (.inl (by rw [List.getElem?_replicate_of_lt hlt]))
    rw [slotArray, hnone] at hslot
    have := Option.some.inj hslot
    omega

def scattered (pool : EmbeddingPool K) (packed : Mat K)
    (pairs : List (PackedItem × Option EmbeddingPoolEntry)) : List (List K) :=
  scatterDrop pool.pages.rows ((pool.slotArray packed pairs).zip packed.rows)

/-- What is written to a slot comes from the row of the item that the slot belongs to. -/
theorem written_of_mem (h : Placed pool₀ items placed pool) (hsliced : Sliced packed items)
    {e : Int × EmbeddingPoolEntry} (he : e ∈ pool.entries) {row : Nat} (hrow : row < e.2.length)
    {w : Int × List K} (hw : w ∈ (pool.slotArray packed (items.zip placed)).zip packed.rows)
    (hslot : w.1 = (pool.slotAt e.2 row : Int)) :
    ∃ item, (item, some e.2) ∈ items.zip placed ∧ packed.rows[item.offset + row]? = some w.2 := by
  obtain ⟨place, hplace⟩ := List.mem_iff_getElem?.mp hw
  obtain ⟨hget, hvalue⟩ := List.getElem?_zip_eq_some.mp hplace
  rw [hslot] at hget
  obtain ⟨item, entry, hmem, hlookup, row', hrow', rfl, heq⟩ :=
    of_getElem?_slotArray pool₀ h hsliced hget
  have hentry := (lookup_eq_some_iff h.partitioned.keys).mp hlookup
  obtain ⟨rfl, rfl⟩ := slotAt_unique h.partitioned he hentry hrow hrow' heq
  exact ⟨item, hmem, hvalue⟩

theorem placed_unique (h : Placed pool₀ items placed pool) {item item' : PackedItem}
    {entry : EmbeddingPoolEntry} (hmem : (item, some entry) ∈ items.zip placed)
    (hmem' : (item', some entry) ∈ items.zip placed) : item = item' := by
  by_contra hne
  have hsymm : Std.Symm fun p q : PackedItem × Option EmbeddingPoolEntry =>
      ∀ entry other, p.2 = some entry → q.2 = some other → entry.serial ≠ other.serial :=
    ⟨fun _ _ hall entry other hentry hother => (hall other entry hother hentry).symm⟩
  refine h.serial_ne.forall hmem hmem' (fun heq => hne (congrArg Prod.fst heq)) entry entry rfl rfl
    rfl

/-- The rows of a new entry are the item's. -/
theorem scattered_new (h : Placed pool₀ items placed pool) (hsliced : Sliced packed items)
    {item : PackedItem} {entry : EmbeddingPoolEntry} (hmem : (item, some entry) ∈ items.zip placed)
    (hlookup : pool.entries.lookup item.hash = some entry) {row : Nat}
    (hrow : row < entry.length) :
    (pool.scattered packed (items.zip placed))[pool.slotAt entry row]? =
      packed.rows[item.offset + row]? := by
  have hentry := (lookup_eq_some_iff h.partitioned.keys).mp hlookup
  have hlength : entry.length = item.length := h.entry_length _ hmem entry rfl
  have hplace : item.offset + row < packed.rows.length := by
    have := hsliced.inside item (List.of_mem_zip hmem).1
    omega
  rw [List.getElem?_eq_getElem hplace]
  apply getElem?_scatterDrop
  · intro w hw hslot
    obtain ⟨item', hmem', hvalue⟩ := written_of_mem pool₀ h hsliced hentry hrow hw hslot
    obtain rfl := placed_unique pool₀ h hmem hmem'
    rw [List.getElem?_eq_getElem hplace] at hvalue
    exact (Option.some.inj hvalue).symm
  · exact slotAt_lt h.partitioned hentry hrow
  · right
    refine ⟨((pool.slotAt entry row : Int), packed.rows[item.offset + row]), ?_, rfl⟩
    exact List.mem_iff_getElem?.mpr ⟨item.offset + row, List.getElem?_zip_eq_some.mpr
      ⟨getElem?_slotArray pool₀ h hsliced hmem hlookup hrow, List.getElem?_eq_getElem hplace⟩⟩

/-- The rows of an entry that was there before stay. -/
theorem scattered_old (h : Placed pool₀ items placed pool) (hsliced : Sliced packed items)
    {e : Int × EmbeddingPoolEntry} (he : e ∈ pool.entries)
    (hold : e.2.serial < pool₀.serials) {row : Nat} (hrow : row < e.2.length) :
    (pool.scattered packed (items.zip placed))[pool.slotAt e.2 row]? =
      pool.pages.rows[pool.slotAt e.2 row]? := by
  have hlt := slotAt_lt h.partitioned he hrow
  rw [List.getElem?_eq_getElem hlt]
  apply getElem?_scatterDrop _ hlt (.inl (List.getElem?_eq_getElem hlt))
  intro w hw hslot
  obtain ⟨item, hmem, -⟩ := written_of_mem pool₀ h hsliced he hrow hw hslot
  exact absurd hold (Nat.not_lt.mpr (h.serial_ge _ hmem e.2 rfl))

end Scatter

/-- What a write leaves: an entry shows the last item written under its hash, or what it
showed before. -/
structure Written (pool : EmbeddingPool K) (packed : Mat K) (items : List PackedItem)
    (pool' : EmbeddingPool K) : Prop where
  partitioned : pool'.Partitioned
  numPages : pool'.numPages = pool.numPages
  pageSize : pool'.pageSize = pool.pageSize
  hidden : pool'.hidden = pool.hidden
  entries : ∀ e ∈ pool'.entries,
    (pool.lastItem e.1 items = none ∧ e ∈ pool.entries ∧
      ∀ rows, pool.Shows e.2 rows → pool'.Shows e.2 rows) ∨
    ∃ item, pool.lastItem e.1 items = some item ∧ pool'.Shows e.2 (item.rows packed)

section Outcome

variable {pool₀ : EmbeddingPool K} {placed : List (Option EmbeddingPoolEntry)} {packed : Mat K}

theorem length_rows (hsliced : Sliced packed items) {item : PackedItem} (hitem : item ∈ items) :
    (item.rows packed).length = item.length := by
  have := hsliced.inside item hitem
  simp only [PackedItem.rows, List.length_take, List.length_drop]
  omega

theorem getElem?_rows {item : PackedItem} {row : Nat} (hrow : row < item.length) :
    (item.rows packed)[row]? = packed.rows[item.offset + row]? := by
  rw [PackedItem.rows, List.getElem?_take_of_lt hrow, List.getElem?_drop]

theorem lookup_of_placed (h : Placed pool₀ items placed pool) {e : Int × EmbeddingPoolEntry}
    (he : e ∈ pool.entries) {item : PackedItem}
    (hlast : pool₀.lastItem e.1 items = some item) :
    pool.entries.lookup item.hash = some e.2 := by
  rw [lastItem_hash hlast]
  exact (lookup_eq_some_iff h.partitioned.keys).mpr he

/-- Some row is written. -/
theorem Placed.scatter (h : Placed pool₀ items placed pool) (h₀ : pool₀.Partitioned)
    (hsliced : Sliced packed items) {pages : Mat K} (hcols : pages.cols = pool.pages.cols)
    (hpages : pages.rows = pool.scattered packed (items.zip placed)) :
    Written pool₀ packed items { pool with pages := pages } where
  partitioned :=
    { pageSize_pos := h.partitioned.pageSize_pos
      keys := h.partitioned.keys
      pages_perm := h.partitioned.pages_perm
      sized := h.partitioned.sized
      serial_lt := h.partitioned.serial_lt
      rows := by
        show pages.rows.length = _
        rw [hpages, scattered, length_scatterDrop]
        exact h.partitioned.rows }
  numPages := h.buffer.numPages
  pageSize := h.buffer.pageSize
  hidden := by
    show pages.cols = pool₀.pages.cols
    rw [hcols, h.buffer.pages]
  entries := by
    intro e he
    have he : e ∈ pool.entries := he
    rcases h.entries e he with ⟨hnone, hold⟩ | ⟨item, hlast, hmem⟩
    · refine .inl ⟨hnone, hold, fun rows hshows => ?_⟩
      obtain ⟨hlength, hrows⟩ := h.buffer.shows.mpr hshows
      refine ⟨hlength, fun row hrow => ?_⟩
      obtain ⟨slot, hslot, hget⟩ := hrows row hrow
      refine ⟨slot, hslot, ?_⟩
      rw [slot_eq_slotAt h.partitioned he hrow] at hslot
      cases hslot
      rw [hpages, scattered_old pool₀ h hsliced he (h₀.serial_lt e hold) hrow, hget]
    · refine .inr ⟨item, hlast, ?_, fun row hrow => ?_⟩
      · rw [length_rows hsliced (List.of_mem_zip hmem).1]
        exact h.entry_length _ hmem e.2 rfl
      · refine ⟨_, slot_eq_slotAt h.partitioned he hrow, ?_⟩
        rw [hpages, scattered_new pool₀ h hsliced hmem (lookup_of_placed h he hlast) hrow,
          getElem?_rows (by rw [← h.entry_length _ hmem e.2 rfl]; exact hrow)]

/-- No row is written: the new entries have none. -/
theorem Placed.noScatter (h : Placed pool₀ items placed pool)
    (hsliced : Sliced packed items) (hempty : ¬ ((items.zip placed).map fun p =>
      pool.current p.1 p.2).any fun entry => entry.any fun entry => 0 < entry.length) :
    Written pool₀ packed items pool where
  partitioned := h.partitioned
  numPages := h.buffer.numPages
  pageSize := h.buffer.pageSize
  hidden := congrArg Mat.cols h.buffer.pages
  entries := by
    intro e he
    refine (h.entries e he).imp (fun ⟨hnone, hold⟩ => ⟨hnone, hold, fun rows =>
      h.buffer.shows.mpr⟩) fun ⟨item, hlast, hmem⟩ => ⟨item, hlast, ?_, fun row hrow => ?_⟩
    · rw [length_rows hsliced (List.of_mem_zip hmem).1]
      exact h.entry_length _ hmem e.2 rfl
    · exfalso
      apply hempty
      rw [List.any_eq_true]
      refine ⟨some e.2, List.mem_map.mpr ⟨(item, some e.2), hmem, ?_⟩, ?_⟩
      · exact current_eq_some.mpr ⟨rfl, lookup_of_placed h he hlast⟩
      · simpa using Nat.zero_lt_of_lt hrow

/-- A write of items whose slices are apart raises no error. -/
theorem writeItems_spec (h : pool.Partitioned) (hcols : packed.cols = pool.hidden)
    (hsliced : Sliced packed items) :
    ∃ results pool', pool.writeItems packed items = .ok (results, pool') ∧
      Written pool packed items pool' := by
  obtain ⟨placed, pool₁, hrun, hplaced⟩ := reserveAll_spec h items
  have hplace := placeAll_eq hplaced.partitioned (items.zip placed)
    (List.replicate packed.rows.length (-1))
  have hwidth : packed.cols = pool₁.pages.cols := by rw [hplaced.buffer.pages, hcols]; rfl
  unfold writeItems
  simp only [hrun, hplace, ok_bind]
  split
  · simp only [scatterRows, dif_pos hwidth, ok_bind]
    exact ⟨_, _, rfl, hplaced.scatter h hsliced rfl rfl⟩
  · next hempty => exact ⟨_, _, rfl, hplaced.noScatter hsliced hempty⟩

end Outcome

end EmbeddingPool

namespace PackedWrite

variable {call : PackedWrite K}

/-- The arguments fit one another and the packed array. -/
structure Accepted (call : PackedWrite K) (hidden : Nat) : Prop where
  hashes : call.itemHashes.length = call.lengths.length
  masks : call.mask.length = call.lengths.length
  cols : call.packed.cols = hidden
  lengths_nonneg : ∀ length ∈ call.lengths, 0 ≤ length
  sum_le : call.lengths.sum ≤ (call.capacity : Int)
  offsets_length : call.offsets.length = call.lengths.length
  inside : ∀ p ∈ call.offsets.zip call.lengths,
    0 ≤ p.1 ∧ p.1 + p.2 ≤ (call.capacity : Int)

/-- A call is carried out when its arguments fit, and refused before it changes anything
otherwise. -/
theorem writePacked_cases (pool : EmbeddingPool K) :
    (call.Accepted pool.hidden ∧ pool.writePacked call = pool.writeItems call.packed call.items) ∨
    (¬ call.Accepted pool.hidden ∧ ∃ error, pool.writePacked call = .error error) := by
  unfold EmbeddingPool.writePacked
  by_cases hhashes : call.itemHashes.length = call.lengths.length
  swap
  · exact .inr ⟨fun h => hhashes h.hashes, _, if_pos hhashes⟩
  rw [if_neg (not_not_intro hhashes)]
  by_cases hmask : call.mask.length = call.lengths.length
  swap
  · exact .inr ⟨fun h => hmask h.masks, _, if_pos hmask⟩
  rw [if_neg (not_not_intro hmask)]
  by_cases hcols : call.packed.cols = pool.hidden
  swap
  · exact .inr ⟨fun h => hcols h.cols, _, if_pos hcols⟩
  rw [if_neg (not_not_intro hcols)]
  by_cases hlengths : (∃ length ∈ call.lengths, length < 0) ∨
      (call.capacity : Int) < call.lengths.sum
  · refine .inr ⟨fun h => ?_, _, if_pos hlengths⟩
    rcases hlengths with ⟨length, hmem, hneg⟩ | hsum
    · exact absurd (h.lengths_nonneg length hmem) (not_le.mpr hneg)
    · exact absurd h.sum_le (not_le.mpr hsum)
  rw [if_neg hlengths]
  by_cases hoffsets : call.offsets.length ≠ call.lengths.length ∨
      ∃ p ∈ call.offsets.zip call.lengths,
        p.1 < 0 ∨ (call.capacity : Int) < p.1 + p.2
  · refine .inr ⟨fun h => ?_, _, if_pos hoffsets⟩
    rcases hoffsets with hne | ⟨p, hmem, hout⟩
    · exact hne h.offsets_length
    · have := h.inside p hmem
      omega
  · left
    push Not at hlengths hoffsets
    exact ⟨⟨hhashes, hmask, hcols, hlengths.1, hlengths.2, hoffsets.1, hoffsets.2⟩,
      if_neg (by push Not; exact hoffsets)⟩

end PackedWrite

end SglJax.Multimodal
