import SglJax.MemCache.Allocator

/-! What the allocators hand out and take back. The slots of an extend batch are
the rest of each sequence's last page followed by the start of its new pages,
in the order of the free list. -/
namespace SglJax.MemCache

/-! ### Sorted sets -/

@[simp] theorem mem_npUnique {x : Nat} {xs : List Nat} : x ∈ npUnique xs ↔ x ∈ xs := by
  simp [npUnique]

@[simp] theorem mem_npSetdiff {x : Nat} {xs ys : List Nat} :
    x ∈ npSetdiff xs ys ↔ x ∈ xs ∧ x ∉ ys := by
  simp [npSetdiff]

theorem npUnique_nodup (xs : List Nat) : (npUnique xs).Nodup :=
  ((List.perm_insertionSort _ _).nodup_iff).mpr (List.nodup_dedup _)

/-! ### Pages and slots -/

section Pages

variable {pageSize : Nat}

@[simp] theorem length_pageStart (page n : Nat) : (pageStart pageSize page n).length = n := by
  simp [pageStart]

@[simp] theorem length_pageSlots (page : Nat) : (pageSlots pageSize page).length = pageSize :=
  length_pageStart _ _

theorem take_pageSlots (page : Nat) {n : Nat} (hn : n ≤ pageSize) :
    (pageSlots pageSize page).take n = pageStart pageSize page n := by
  rw [pageSlots, pageStart, pageStart, ← List.map_take, List.take_range, Nat.min_eq_left hn]

theorem div_of_mem_pageStart {page n slot : Nat} (hn : n ≤ pageSize)
    (h : slot ∈ pageStart pageSize page n) : slot / pageSize = page := by
  obtain ⟨k, hk, rfl⟩ := List.mem_map.mp h
  rw [List.mem_range] at hk
  rw [Nat.mul_comm, Nat.mul_add_div (by omega), Nat.div_eq_of_lt (by omega), Nat.add_zero]

theorem length_flatMap_pageSlots (pages : List Nat) :
    (pages.flatMap (pageSlots pageSize)).length = pages.length * pageSize := by
  induction pages with
  | nil => simp
  | cons page pages ih =>
    rw [List.flatMap_cons, List.length_append, ih, length_pageSlots, List.length_cons]
    ring

theorem pagesFor_zero (hpage : 0 < pageSize) : pagesFor pageSize 0 = 0 :=
  Nat.div_eq_of_lt (by omega)

theorem pagesFor_add_page (hpage : 0 < pageSize) (n : Nat) :
    pagesFor pageSize (pageSize + n) = pagesFor pageSize n + 1 := by
  unfold pagesFor
  rw [show pageSize + n + pageSize - 1 = n + pageSize - 1 + pageSize by omega,
    Nat.add_div_right _ hpage]

theorem pagesFor_add_mul (hpage : 0 < pageSize) (c n : Nat) :
    pagesFor pageSize (c * pageSize + n) = c + pagesFor pageSize n := by
  induction c with
  | zero => simp
  | succ c ih =>
    rw [show (c + 1) * pageSize + n = pageSize + (c * pageSize + n) by ring,
      pagesFor_add_page hpage, ih]
    omega

theorem pagesFor_of_le (hn : 0 < n) (hle : n ≤ pageSize) : pagesFor pageSize n = 1 := by
  unfold pagesFor
  rw [Nat.div_eq_iff (by omega)]
  omega

theorem pagesFor_eq_zero (hpage : 0 < pageSize) {n : Nat} :
    pagesFor pageSize n = 0 ↔ n = 0 := by
  constructor
  · intro h
    by_contra hn
    unfold pagesFor at h
    have := Nat.div_pos (a := n + pageSize - 1) (b := pageSize) (by omega) hpage
    omega
  · rintro rfl
    exact pagesFor_zero hpage

theorem le_pagesFor_mul (hpage : 0 < pageSize) (n : Nat) : n ≤ pagesFor pageSize n * pageSize := by
  unfold pagesFor
  have := Nat.lt_div_mul_add (a := n + pageSize - 1) hpage
  omega

theorem pagesFor_mul_lt (hpage : 0 < pageSize) (n : Nat) :
    pagesFor pageSize n * pageSize < n + pageSize := by
  unfold pagesFor
  have := Nat.div_mul_le_self (n + pageSize - 1) pageSize
  omega

theorem pagesFor_mod (hpage : 0 < pageSize) {n : Nat} (h : n % pageSize = 0) :
    pagesFor pageSize n * pageSize = n := by
  obtain ⟨c, rfl⟩ := Nat.dvd_of_mod_eq_zero h
  have := pagesFor_add_mul hpage c 0
  rw [Nat.add_zero, pagesFor_zero hpage, Nat.add_zero, Nat.mul_comm] at this
  rw [this, Nat.mul_comm]

/-- Some of the slots lie in the page. -/
def Touches (pageSize : Nat) (slots : List Nat) (page : Nat) : Prop :=
  ∃ slot ∈ slots, slot / pageSize = page

@[simp] theorem touches_nil (page : Nat) : ¬ Touches pageSize [] page := by
  simp [Touches]

@[simp] theorem touches_append (left right : List Nat) (page : Nat) :
    Touches pageSize (left ++ right) page ↔
      Touches pageSize left page ∨ Touches pageSize right page := by
  simp only [Touches, List.mem_append, or_and_right, exists_or]

theorem touches_pageStart {page other n : Nat} (hpos : 0 < n) (hn : n ≤ pageSize) :
    Touches pageSize (pageStart pageSize page n) other ↔ other = page := by
  constructor
  · rintro ⟨slot, hslot, rfl⟩
    exact div_of_mem_pageStart hn hslot
  · rintro rfl
    have hmem : other * pageSize + 0 ∈ pageStart pageSize other n :=
      List.mem_map.mpr ⟨0, List.mem_range.mpr hpos, rfl⟩
    exact ⟨_, hmem, div_of_mem_pageStart hn hmem⟩

/-- As many slots as need all of the given pages touch each of them. -/
theorem touches_take_pages {pages : List Nat} {n page : Nat} (hpage : 0 < pageSize)
    (hn : pagesFor pageSize n = pages.length) :
    Touches pageSize ((pages.flatMap (pageSlots pageSize)).take n) page ↔ page ∈ pages := by
  induction pages generalizing n with
  | nil => simp
  | cons first pages ih =>
    rw [List.flatMap_cons, List.take_append, length_pageSlots]
    have hpos : 0 < n := by
      by_contra h
      rw [Nat.eq_zero_of_not_pos h, pagesFor_zero hpage] at hn
      simp at hn
    -- The first page is touched; the rest are by what is left of `n`.
    have hfirst : (pageSlots pageSize first).take n =
        pageStart pageSize first (min n pageSize) := by
      rcases Nat.le_total n pageSize with h | h
      · rw [take_pageSlots first h, Nat.min_eq_left h]
      · rw [List.take_of_length_le (by simpa using h), Nat.min_eq_right h, pageSlots]
    have hrest : pagesFor pageSize (n - pageSize) = pages.length := by
      rcases Nat.le_total n pageSize with h | h
      · rw [Nat.sub_eq_zero_of_le h, pagesFor_zero hpage]
        rw [pagesFor_of_le hpos h, List.length_cons] at hn
        omega
      · have := pagesFor_add_page hpage (n - pageSize)
        rw [Nat.add_sub_cancel' h, hn, List.length_cons] at this
        omega
    rw [touches_append, hfirst, touches_pageStart (by omega) (Nat.min_le_right _ _), ih hrest,
      List.mem_cons]

end Pages

/-! ### What an extend batch gets -/

namespace ExtendSeq

variable (pageSize : Nat) (seq : ExtendSeq)

/-- The new pages of the sequence. -/
def newPages : Nat := pagesFor pageSize seq.seqLen - pagesFor pageSize seq.prefixLen

/-- The slots of the sequence when it is given these new pages. -/
def slots (pages : List Nat) : List Nat :=
  seq.part1 pageSize ++
    (pages.flatMap (pageSlots pageSize)).take (seq.extendLen - seq.part1Size pageSize)

variable {pageSize}

@[simp] theorem length_part1 : (seq.part1 pageSize).length = seq.part1Size pageSize := by
  simp [part1]

theorem part1Size_le : seq.part1Size pageSize ≤ seq.extendLen := Nat.min_le_left _ _

/-- The new pages are those that the rest of the tokens fill. -/
theorem pagesFor_rest (hpage : 0 < pageSize) :
    pagesFor pageSize (seq.extendLen - seq.part1Size pageSize) = seq.newPages pageSize := by
  have hle := seq.le
  have hcap := le_pagesFor_mul hpage seq.prefixLen
  have hlt := pagesFor_mul_lt hpage seq.prefixLen
  unfold newPages part1Size extendLen
  rcases Nat.le_total (seq.seqLen - seq.prefixLen)
    (pagesFor pageSize seq.prefixLen * pageSize - seq.prefixLen) with h | h
  · rw [Nat.min_eq_left h, Nat.sub_self, pagesFor_zero hpage]
    -- The sequence still ends in the page it is in.
    have : pagesFor pageSize seq.seqLen ≤ pagesFor pageSize seq.prefixLen := by
      have hseq : seq.seqLen ≤ pagesFor pageSize seq.prefixLen * pageSize := by omega
      rw [pagesFor, ← Nat.lt_succ_iff, Nat.div_lt_iff_lt_mul hpage, Nat.succ_mul]
      omega
    omega
  · rw [Nat.min_eq_right h]
    have hsplit : seq.seqLen = pagesFor pageSize seq.prefixLen * pageSize +
        (seq.seqLen - seq.prefixLen -
          (pagesFor pageSize seq.prefixLen * pageSize - seq.prefixLen)) := by
      omega
    conv_rhs => rw [hsplit]
    rw [pagesFor_add_mul hpage]
    omega

theorem part1Size_pos_iff (hpage : 0 < pageSize) :
    0 < seq.part1Size pageSize ↔ 0 < seq.extendLen ∧ seq.prefixLen % pageSize ≠ 0 := by
  have hcap := le_pagesFor_mul hpage seq.prefixLen
  unfold part1Size
  rw [Nat.lt_min]
  refine and_congr Iff.rfl ?_
  constructor
  · intro h hmod
    rw [pagesFor_mod hpage hmod] at h
    omega
  · intro hmod
    by_contra h
    have heq : pagesFor pageSize seq.prefixLen * pageSize = seq.prefixLen := by omega
    rw [← heq] at hmod
    exact hmod (Nat.mul_mod_left _ _)

/-- The page a sequence goes on in has room up to the next boundary. -/
theorem room_of_partial (hpage : 0 < pageSize) (hmod : 0 < seq.prefixLen % pageSize) :
    seq.prefixLen % pageSize +
      (pagesFor pageSize seq.prefixLen * pageSize - seq.prefixLen) = pageSize := by
  have hdecomp := Nat.div_add_mod seq.prefixLen pageSize
  have hpages : pagesFor pageSize seq.prefixLen = seq.prefixLen / pageSize + 1 := by
    have := pagesFor_add_mul hpage (seq.prefixLen / pageSize) (seq.prefixLen % pageSize)
    rw [Nat.mul_comm, hdecomp, pagesFor_of_le hmod (Nat.mod_lt _ hpage).le] at this
    exact this
  have hge := le_pagesFor_mul hpage seq.prefixLen
  rw [hpages, Nat.add_mul, Nat.one_mul, Nat.mul_comm (seq.prefixLen / pageSize)] at hge ⊢
  omega

/-- When the last token sits at the offset the length gives, the rest of its
page lies in that page. -/
theorem touches_part1 (hpage : 0 < pageSize) {loc : Nat} (hloc : seq.lastLoc = loc)
    (hoffset : (loc + 1) % pageSize = seq.prefixLen % pageSize) {page : Nat} :
    Touches pageSize (seq.part1 pageSize) page ↔
      0 < seq.part1Size pageSize ∧ page = loc / pageSize := by
  have hslot (k : Nat) (hk : k < seq.part1Size pageSize) :
      (loc + 1 + k) / pageSize = loc / pageSize := by
    have hsize : seq.part1Size pageSize ≤
        pagesFor pageSize seq.prefixLen * pageSize - seq.prefixLen := Nat.min_le_right _ _
    have hmod : 0 < seq.prefixLen % pageSize := by
      have := ((seq.part1Size_pos_iff hpage).mp (by omega)).2
      omega
    have hroom := seq.room_of_partial hpage hmod
    have hdiv := Nat.div_add_mod (loc + 1) pageSize
    have hcomm := Nat.mul_comm pageSize ((loc + 1) / pageSize)
    have hsame : loc / pageSize = (loc + 1) / pageSize := by
      rw [Nat.div_eq_iff hpage]
      omega
    rw [hsame, Nat.div_eq_iff hpage]
    omega
  constructor
  · rintro ⟨slot, hmem, rfl⟩
    obtain ⟨k, hk, rfl⟩ := List.mem_map.mp hmem
    rw [List.mem_range] at hk
    refine ⟨by omega, ?_⟩
    rw [hloc, ← hslot k hk]
    norm_cast
  · rintro ⟨hpos, rfl⟩
    refine ⟨loc + 1 + 0, List.mem_map.mpr ⟨0, List.mem_range.mpr hpos, ?_⟩, hslot 0 hpos⟩
    rw [hloc]
    norm_cast

end ExtendSeq

section Extend

variable {pageSize : Nat} {allocated : List Nat}

theorem takePages_eq (n pageIdx : Nat) (hroom : pageIdx + n ≤ allocated.length) :
    takePages pageSize allocated n pageIdx =
      .ok (((allocated.drop pageIdx).take n).flatMap (pageSlots pageSize), pageIdx + n) := by
  induction n generalizing pageIdx with
  | zero => simp [takePages]
  | succ n ih =>
    have hlt : pageIdx < allocated.length := by omega
    rw [takePages, List.getElem?_eq_getElem hlt]
    simp only [ih (pageIdx + 1) (by omega), bind, Except.bind, pure, Except.pure]
    rw [List.drop_eq_getElem_cons hlt, List.take_succ_cons, List.flatMap_cons]
    congr 2
    omega

/-- What is left of a sequence fills the next pages in order. -/
theorem takeNew_eq (hpage : 0 < pageSize) (n pageIdx : Nat)
    (hroom : pageIdx + pagesFor pageSize n ≤ allocated.length) :
    takeNew pageSize allocated n pageIdx =
      .ok ((((allocated.drop pageIdx).take (pagesFor pageSize n)).flatMap
        (pageSlots pageSize)).take n, pageIdx + pagesFor pageSize n) := by
  have hdecomp : n = n / pageSize * pageSize + n % pageSize := by
    rw [Nat.mul_comm]
    exact (Nat.div_add_mod _ _).symm
  have hcount : pagesFor pageSize n = n / pageSize + pagesFor pageSize (n % pageSize) := by
    rw [← pagesFor_add_mul hpage, ← hdecomp]
  have hleft : n - n / pageSize * pageSize = n % pageSize := by omega
  have hlen : ((allocated.drop pageIdx).take (n / pageSize)).length = n / pageSize := by
    rw [List.length_take, List.length_drop]
    omega
  have hwhole : takePages pageSize allocated (n / pageSize) pageIdx =
      .ok (((allocated.drop pageIdx).take (n / pageSize)).flatMap (pageSlots pageSize),
        pageIdx + n / pageSize) :=
    takePages_eq _ _ (by omega)
  have hkeep : (((allocated.drop pageIdx).take (n / pageSize)).flatMap
      (pageSlots pageSize)).take n =
      ((allocated.drop pageIdx).take (n / pageSize)).flatMap (pageSlots pageSize) := by
    apply List.take_of_length_le
    rw [length_flatMap_pageSlots, hlen]
    omega
  simp only [takeNew, hwhole, bind, Except.bind, pure, Except.pure, hleft]
  by_cases hmod : n % pageSize > 0
  · have hone : pagesFor pageSize (n % pageSize) = 1 :=
      pagesFor_of_le hmod (Nat.mod_lt _ hpage).le
    have hlt : pageIdx + n / pageSize < allocated.length := by omega
    have hnext : (allocated.drop pageIdx).take (n / pageSize + 1) =
        (allocated.drop pageIdx).take (n / pageSize) ++ [allocated[pageIdx + n / pageSize]] := by
      rw [List.take_add_one, List.getElem?_drop, List.getElem?_eq_getElem hlt]
      rfl
    rw [if_pos hmod, List.getElem?_eq_getElem hlt, hcount, hone, hnext, List.flatMap_append,
      List.flatMap_singleton, List.take_append, length_flatMap_pageSlots, hlen, hleft, hkeep,
      take_pageSlots _ (Nat.mod_lt _ hpage).le]
    rfl
  · have hzero : n % pageSize = 0 := by omega
    rw [if_neg hmod, hcount, hzero, pagesFor_zero hpage, Nat.add_zero, hkeep]

theorem extendOne_eq (hpage : 0 < pageSize) (seq : ExtendSeq) (pageIdx : Nat)
    (hroom : pageIdx + seq.newPages pageSize ≤ allocated.length) :
    extendOne pageSize allocated seq pageIdx =
      .ok (seq.slots pageSize ((allocated.drop pageIdx).take (seq.newPages pageSize)),
        pageIdx + seq.newPages pageSize) := by
  have hrest := seq.pagesFor_rest hpage
  have hpart : seq.part1Size pageSize ≤ seq.extendLen := seq.part1Size_le
  unfold extendOne ExtendSeq.slots
  by_cases hzero : seq.extendLen = 0
  · have hnone : seq.newPages pageSize = 0 := by
      rw [← hrest, hzero, Nat.zero_sub, pagesFor_zero hpage]
    have hpart1 : seq.part1Size pageSize = 0 := by omega
    rw [if_pos hzero, hnone]
    simp [ExtendSeq.part1, hpart1]
  rw [if_neg hzero]
  dsimp only
  by_cases hdone : seq.extendLen - seq.part1Size pageSize = 0
  · have hnone : seq.newPages pageSize = 0 := by
      rw [← hrest, hdone, pagesFor_zero hpage]
    rw [if_pos hdone, hnone]
    simp
  · rw [if_neg hdone, takeNew_eq hpage _ _ (by rw [hrest]; exact hroom), hrest]
    rfl

/-- The slots of a batch when it is given these new pages in order. -/
def batchSlots (pageSize : Nat) : List ExtendSeq → List Nat → List Nat
  | [], _ => []
  | seq :: rest, pages =>
    seq.slots pageSize (pages.take (seq.newPages pageSize)) ++
      batchSlots pageSize rest (pages.drop (seq.newPages pageSize))

open PagedAllocator (newPages)

@[simp] theorem newPages_nil : newPages pageSize [] = 0 := rfl

@[simp] theorem newPages_cons (seq : ExtendSeq) (rest : List ExtendSeq) :
    newPages pageSize (seq :: rest) = seq.newPages pageSize + newPages pageSize rest := by
  simp [newPages, ExtendSeq.newPages]

theorem allocExtendLoop_eq (hpage : 0 < pageSize) (batch : List ExtendSeq) (pageIdx : Nat)
    (hroom : pageIdx + newPages pageSize batch ≤ allocated.length) :
    allocExtendLoop pageSize allocated batch pageIdx =
      .ok (batchSlots pageSize batch (allocated.drop pageIdx),
        pageIdx + newPages pageSize batch) := by
  induction batch generalizing pageIdx with
  | nil => rfl
  | cons seq rest ih =>
    rw [newPages_cons] at hroom ⊢
    have hone := extendOne_eq hpage seq pageIdx (by omega : _ ≤ allocated.length)
    have hrest := ih (pageIdx + seq.newPages pageSize) (by omega)
    simp only [allocExtendLoop, hone, hrest, bind, Except.bind, pure, Except.pure, batchSlots,
      List.drop_drop, Nat.add_assoc]

theorem length_slots (hpage : 0 < pageSize) (seq : ExtendSeq) {pages : List Nat}
    (hpages : pages.length = seq.newPages pageSize) :
    (seq.slots pageSize pages).length = seq.extendLen := by
  have hle := le_pagesFor_mul hpage (seq.extendLen - seq.part1Size pageSize)
  rw [seq.pagesFor_rest hpage] at hle
  have hpart : seq.part1Size pageSize ≤ seq.extendLen := seq.part1Size_le
  rw [ExtendSeq.slots, List.length_append, List.length_take, length_flatMap_pageSlots, hpages,
    ExtendSeq.length_part1]
  omega

theorem length_batchSlots (hpage : 0 < pageSize) (batch : List ExtendSeq) {pages : List Nat}
    (hpages : newPages pageSize batch ≤ pages.length) :
    (batchSlots pageSize batch pages).length = (batch.map ExtendSeq.extendLen).sum := by
  induction batch generalizing pages with
  | nil => rfl
  | cons seq rest ih =>
    rw [newPages_cons] at hpages
    rw [batchSlots, List.length_append, length_slots hpage seq (by rw [List.length_take]; omega),
      ih (by rw [List.length_drop]; omega), List.map_cons, List.sum_cons]

theorem allocExtendImpl_eq (hpage : 0 < pageSize) (batch : List ExtendSeq)
    (hroom : newPages pageSize batch ≤ allocated.length) :
    allocExtendImpl pageSize allocated batch (batch.map ExtendSeq.extendLen).sum =
      .ok (batchSlots pageSize batch allocated, newPages pageSize batch) := by
  have hlen := length_batchSlots hpage batch hroom
  have hloop := allocExtendLoop_eq hpage batch 0 (by omega : _ ≤ allocated.length)
  rw [List.drop_zero, Nat.zero_add] at hloop
  simp only [allocExtendImpl, hloop, bind, Except.bind, hlen, gt_iff_lt, lt_self_iff_false,
    if_false, Nat.sub_self, List.replicate_zero, List.append_nil, pure, Except.pure]

/-- The pages a batch writes to: those it is given, and the last pages of the
sequences that go on inside one. -/
theorem touches_batchSlots (hpage : 0 < pageSize) (batch : List ExtendSeq) {pages : List Nat}
    (hpages : newPages pageSize batch = pages.length) {page : Nat} :
    Touches pageSize (batchSlots pageSize batch pages) page ↔
      page ∈ pages ∨ ∃ seq ∈ batch, Touches pageSize (seq.part1 pageSize) page := by
  induction batch generalizing pages with
  | nil =>
    have : pages = [] := List.length_eq_zero_iff.mp hpages.symm
    simp [batchSlots, this]
  | cons seq rest ih =>
    rw [newPages_cons] at hpages
    have hlen : pagesFor pageSize (seq.extendLen - seq.part1Size pageSize) =
        (pages.take (seq.newPages pageSize)).length := by
      rw [seq.pagesFor_rest hpage, List.length_take]
      omega
    have hdrop : newPages pageSize rest = (pages.drop (seq.newPages pageSize)).length := by
      rw [List.length_drop]
      omega
    have hsplit : page ∈ pages ↔ page ∈ pages.take (seq.newPages pageSize) ∨
        page ∈ pages.drop (seq.newPages pageSize) := by
      rw [← List.mem_append, List.take_append_drop]
    rw [batchSlots, ExtendSeq.slots, touches_append, touches_append,
      touches_take_pages hpage hlen, ih hdrop, hsplit]
    simp only [List.mem_cons, exists_eq_or_imp]
    tauto

end Extend

/-! ### Decoding is extending by one token -/

def DecodeSeq.toExtend (seq : DecodeSeq) : ExtendSeq :=
  ⟨seq.seqLen - 1, seq.seqLen, seq.lastLoc, Nat.sub_le _ _⟩

@[simp] theorem DecodeSeq.extendLen_toExtend (seq : DecodeSeq) : seq.toExtend.extendLen = 1 := by
  have := seq.pos
  unfold toExtend ExtendSeq.extendLen
  dsimp only
  omega

section Decode

variable {pageSize : Nat}

/-- A decode sequence either starts a page or goes on in its last one. -/
theorem DecodeSeq.slots_toExtend (hpage : 0 < pageSize) (seq : DecodeSeq) :
    (needsNewPage pageSize seq = true ∧ seq.toExtend.newPages pageSize = 1 ∧
      seq.toExtend.part1Size pageSize = 0 ∧
      ∀ page, seq.toExtend.slots pageSize [page] = [page * pageSize]) ∨
    (needsNewPage pageSize seq = false ∧ seq.toExtend.newPages pageSize = 0 ∧
      seq.toExtend.part1Size pageSize = 1 ∧
      seq.toExtend.slots pageSize [] = [(seq.lastLoc + 1).toNat]) := by
  have hrest := seq.toExtend.pagesFor_rest hpage
  have hle : seq.toExtend.part1Size pageSize ≤ seq.toExtend.extendLen :=
    seq.toExtend.part1Size_le
  have hneed : needsNewPage pageSize seq = true ↔ 0 < seq.toExtend.newPages pageSize := by
    rw [needsNewPage, decide_eq_true_eq]
    exact Nat.sub_pos_iff_lt.symm
  rw [DecodeSeq.extendLen_toExtend] at hrest hle
  by_cases hpart : seq.toExtend.part1Size pageSize = 0
  · left
    rw [hpart, Nat.sub_zero, pagesFor_of_le Nat.one_pos hpage] at hrest
    refine ⟨hneed.mpr (by omega), hrest.symm, hpart, fun page => ?_⟩
    rw [ExtendSeq.slots, ExtendSeq.part1, hpart, DecodeSeq.extendLen_toExtend, Nat.sub_zero,
      List.flatMap_singleton, take_pageSlots page hpage]
    simp [pageStart]
  · right
    have hone : seq.toExtend.part1Size pageSize = 1 := by omega
    rw [hone, Nat.sub_self, pagesFor_zero hpage] at hrest
    refine ⟨?_, hrest.symm, hone, ?_⟩
    · rw [Bool.eq_false_iff, ne_eq, hneed]
      omega
    · rw [ExtendSeq.slots, ExtendSeq.part1, hone, DecodeSeq.extendLen_toExtend]
      simp [DecodeSeq.toExtend]

open PagedAllocator (newPages newDecodePages)

theorem newDecodePages_eq (hpage : 0 < pageSize) (batch : List DecodeSeq) :
    newDecodePages pageSize batch = newPages pageSize (batch.map DecodeSeq.toExtend) := by
  unfold newDecodePages
  induction batch with
  | nil => rfl
  | cons seq rest ih =>
    rw [List.map_cons, newPages_cons, ← ih, List.countP_cons]
    rcases seq.slots_toExtend hpage with ⟨hneed, hnew, -⟩ | ⟨hneed, hnew, -⟩
    · rw [hneed, hnew, if_pos rfl]
      omega
    · rw [hneed, hnew]
      simp

theorem allocDecodeImpl_eq (hpage : 0 < pageSize) {allocated : List Nat} (batch : List DecodeSeq)
    (pageIdx : Nat)
    (hroom : pageIdx + newPages pageSize (batch.map DecodeSeq.toExtend) ≤ allocated.length) :
    allocDecodeImpl pageSize allocated batch pageIdx =
      .ok (batchSlots pageSize (batch.map DecodeSeq.toExtend) (allocated.drop pageIdx),
        pageIdx + newPages pageSize (batch.map DecodeSeq.toExtend)) := by
  induction batch generalizing pageIdx with
  | nil => rfl
  | cons seq rest ih =>
    rw [List.map_cons, newPages_cons] at hroom
    rw [List.map_cons, newPages_cons, batchSlots]
    rcases seq.slots_toExtend hpage with ⟨hneed, hnew, -, hslots⟩ | ⟨hneed, hnew, -, hslots⟩
    · have hlt : pageIdx < allocated.length := by omega
      have htake : (allocated.drop pageIdx).take 1 = [allocated[pageIdx]] := by
        rw [List.drop_eq_getElem_cons hlt, List.take_succ_cons, List.take_zero]
      have hrest := ih (pageIdx + 1) (by omega)
      simp only [allocDecodeImpl, hneed, if_true, List.getElem?_eq_getElem hlt, hrest, bind,
        Except.bind, pure, Except.pure, hnew, htake, hslots, List.drop_drop, Nat.add_assoc,
        List.singleton_append]
    · have hrest := ih pageIdx (by omega)
      simp only [allocDecodeImpl, hneed, Bool.false_eq_true, if_false, hrest, bind, Except.bind,
        pure, Except.pure, hnew, List.take_zero, hslots, List.drop_zero, Nat.zero_add,
        List.singleton_append]

end Decode

/-! ### The page lists -/

namespace PagedAllocator

variable (a : PagedAllocator) (dpRank : Nat)

/-- The pages of a rank that can be handed out. -/
def freeList (a : PagedAllocator) (dpRank : Nat) : List Nat :=
  a.freePages dpRank ++ a.releasePages dpRank

/-- The settings no call changes. -/
structure SameSettings (a b : PagedAllocator) : Prop where
  pageSize : b.pageSize = a.pageSize
  sizePerRank : b.sizePerRank = a.sizePerRank
  pagesPerRank : b.pagesPerRank = a.pagesPerRank
  isNotInFreeGroup : b.isNotInFreeGroup = a.isNotInFreeGroup

theorem freeList_mergeAndSortFree (other : Nat) :
    ((a.mergeAndSortFree dpRank).freeList other).Perm (a.freeList other) := by
  unfold mergeAndSortFree freeList
  split
  · by_cases hrank : other = dpRank
    · subst hrank
      simpa using List.perm_insertionSort _ _
    · simp [Function.update_of_ne hrank]
  · exact .refl _

theorem freeList_reserve (pages other : Nat) :
    ((a.reserve pages dpRank).freeList other).Perm (a.freeList other) := by
  unfold reserve
  split
  · exact a.freeList_mergeAndSortFree dpRank other
  · exact .refl _

theorem sameSettings_reserve (pages : Nat) : SameSettings a (a.reserve pages dpRank) := by
  unfold reserve mergeAndSortFree
  split
  · split <;> exact ⟨rfl, rfl, rfl, rfl⟩
  · exact ⟨rfl, rfl, rfl, rfl⟩

/-- After `reserve` the free list alone decides whether there is room. -/
theorem reserve_room (pages : Nat) :
    pages ≤ ((a.reserve pages dpRank).freePages dpRank).length ↔
      pages ≤ (a.freeList dpRank).length := by
  unfold reserve freeList
  rw [List.length_append]
  split
  · unfold mergeAndSortFree
    split
    · simp
    · omega
  · omega

theorem freeList_dropFree (pages : Nat) :
    a.freeList dpRank =
      (a.freePages dpRank).take pages ++ (a.dropFree pages dpRank).freeList dpRank := by
  unfold freeList dropFree
  simp only [Function.update_self]
  rw [← List.append_assoc, List.take_append_drop]

theorem freeList_dropFree_of_ne {other : Nat} (pages : Nat) (h : other ≠ dpRank) :
    (a.dropFree pages dpRank).freeList other = a.freeList other := by
  simp [freeList, dropFree, Function.update_of_ne h]

theorem mem_pagesToFree {freeIndex : List Nat} {page : Nat} :
    page ∈ a.pagesToFree freeIndex dpRank ↔
      Touches a.pageSize freeIndex page ∧ page ∉ a.freeList dpRank := by
  simp only [pagesToFree, mem_npSetdiff, mem_npUnique, List.mem_map, freeList, List.mem_append,
    Touches, not_or]
  tauto

theorem pagesToFree_nodup (freeIndex : List Nat) : (a.pagesToFree freeIndex dpRank).Nodup :=
  npUnique_nodup _

theorem freeList_free (hgroup : a.isNotInFreeGroup = true) (freeIndex : List Nat) :
    ((a.free freeIndex dpRank).freeList dpRank).Perm
      (a.pagesToFree freeIndex dpRank ++ a.freeList dpRank) := by
  unfold free
  split
  · rename_i hnil
    have : a.pagesToFree freeIndex dpRank = [] := by
      apply List.eq_nil_iff_forall_not_mem.mpr
      intro page hpage
      rw [hnil] at hpage
      simpa using ((a.mem_pagesToFree dpRank).mp hpage).1
    rw [this, List.nil_append]
  · dsimp only
    split
    · simp only [freeList, Function.update_self]
      rw [← List.append_assoc, ← List.append_assoc]
      exact List.perm_append_comm.append_right _
    · rename_i hnone
      have : a.pagesToFree freeIndex dpRank = [] := List.length_eq_zero_iff.mp (by omega)
      rw [this, List.nil_append]

theorem freeList_free_of_ne {other : Nat} (hgroup : a.isNotInFreeGroup = true)
    (freeIndex : List Nat) (h : other ≠ dpRank) :
    (a.free freeIndex dpRank).freeList other = a.freeList other := by
  unfold free
  split
  · rfl
  · dsimp only
    split
    · simp [freeList, Function.update_of_ne h]
    · rfl

theorem sameSettings_free (freeIndex : List Nat) :
    SameSettings a (a.free freeIndex dpRank) := by
  unfold free
  split
  · exact ⟨rfl, rfl, rfl, rfl⟩
  · split
    · dsimp only
      split <;> exact ⟨rfl, rfl, rfl, rfl⟩
    · exact ⟨rfl, rfl, rfl, rfl⟩

/-- `free` makes the touched pages available and no others. -/
theorem mem_freeList_free (hgroup : a.isNotInFreeGroup = true) (freeIndex : List Nat)
    {page : Nat} : page ∈ (a.free freeIndex dpRank).freeList dpRank ↔
      page ∈ a.freeList dpRank ∨ Touches a.pageSize freeIndex page := by
  rw [(a.freeList_free dpRank hgroup freeIndex).mem_iff, List.mem_append, a.mem_pagesToFree]
  tauto

/-- `alloc_extend` fails and takes nothing, or hands out the first pages of the
free list. -/
theorem allocExtend_cases (hpage : 0 < a.pageSize) (batch : List ExtendSeq) :
    ((a.freeList dpRank).length < newPages a.pageSize batch ∧
      a.allocExtend batch (batch.map ExtendSeq.extendLen).sum dpRank =
        .ok (a.reserve (newPages a.pageSize batch) dpRank, none)) ∨
    (newPages a.pageSize batch ≤ (a.freeList dpRank).length ∧
      newPages a.pageSize batch ≤
        ((a.reserve (newPages a.pageSize batch) dpRank).freePages dpRank).length ∧
      a.allocExtend batch (batch.map ExtendSeq.extendLen).sum dpRank =
        .ok ((a.reserve (newPages a.pageSize batch) dpRank).dropFree
            (newPages a.pageSize batch) dpRank,
          some (batchSlots a.pageSize batch
            (((a.reserve (newPages a.pageSize batch) dpRank).freePages dpRank).take
              (newPages a.pageSize batch))))) := by
  have hroom := a.reserve_room dpRank (newPages a.pageSize batch)
  unfold allocExtend
  dsimp only
  by_cases h : newPages a.pageSize batch ≤ (a.freeList dpRank).length
  · right
    refine ⟨h, hroom.mpr h, ?_⟩
    rw [if_neg (by have := hroom.mpr h; omega), (a.sameSettings_reserve dpRank _).pageSize,
      allocExtendImpl_eq hpage batch (by rw [List.length_take]; have := hroom.mpr h; omega)]
    rfl
  · left
    refine ⟨by omega, ?_⟩
    rw [if_pos (by have := mt hroom.mp h; omega)]

theorem allocDecode_eq (hpage : 0 < a.pageSize) (batch : List DecodeSeq) :
    a.allocDecode batch dpRank = a.allocExtend (batch.map DecodeSeq.toExtend)
      ((batch.map DecodeSeq.toExtend).map ExtendSeq.extendLen).sum dpRank := by
  have hroom := a.reserve_room dpRank (newPages a.pageSize (batch.map DecodeSeq.toExtend))
  unfold allocDecode allocExtend
  dsimp only
  rw [newDecodePages_eq hpage]
  split
  · rfl
  · rename_i h
    rw [(a.sameSettings_reserve dpRank _).pageSize,
      allocExtendImpl_eq hpage _ (by rw [List.length_take]; omega),
      allocDecodeImpl_eq hpage batch 0 (by rw [List.length_take]; omega), List.drop_zero,
      Nat.zero_add]

end PagedAllocator

/-- The pages, or slots at page size one, that can be handed out. -/
def PoolAllocator.freeList : PoolAllocator → Nat → List Nat
  | .token a, dpRank => a.freeSlots dpRank
  | .paged a, dpRank => a.freeList dpRank

theorem PoolAllocator.availableSize_eq (a : PoolAllocator) (rank : Nat) :
    a.availableSize rank = (a.freeList rank).length * a.pageSize := by
  cases a with
  | token a => simp [availableSize, TokenAllocator.availableSize, freeList, pageSize]
  | paged a =>
    simp [availableSize, PagedAllocator.availableSize, freeList, PagedAllocator.freeList, pageSize]

end SglJax.MemCache
