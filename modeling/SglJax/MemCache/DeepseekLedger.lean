import Mathlib.Order.Interval.Finset.Nat
import SglJax.MemCache.DeepseekAllocator

/-! The invariant of one rank's ledger: which slots are live, and how the page
arrays, the mapping and the free lists follow them. -/
namespace SglJax.MemCache.DeepseekV4

variable {g : Geometry}

/-- A history page of the pool; page 0 is padding. -/
def Geometry.InPool (g : Geometry) (page : Nat) : Prop := 1 ≤ page ∧ page ≤ g.pagesPerRank

/-- The ledger tracks the live SWA slots. `reserved` and `reservedSwa` are pages
that a commit has taken off the free lists and not written yet. -/
structure Tracks (g : Geometry) (led : RankLedger) (reserved reservedSwa : List Nat)
    (live : Finset Nat) : Prop where
  pages_nodup : (reserved ++ led.freePages).Nodup
  pages_iff : ∀ page, page ∈ reserved ++ led.freePages ↔ g.InPool page ∧ led.ends page = 0
  ends_le : ∀ page, g.InPool page → led.ends page ≤ g.pageSize
  swa_nodup : (reservedSwa ++ led.swaFree).Nodup
  swa_iff : ∀ k, k ∈ reservedSwa ++ led.swaFree ↔
    (1 ≤ k ∧ k ≤ g.swaPagesPerRank) ∧ ∀ page, g.InPool page → led.swaPage page ≠ k
  swa_le : ∀ page, g.InPool page → led.swaPage page ≤ g.swaPagesPerRank
  swa_inj : ∀ page page', g.InPool page → g.InPool page' → led.swaPage page ≠ 0 →
    led.swaPage page = led.swaPage page' → page = page'
  count_zero : ∀ page, g.InPool page → (led.swaLiveCount page = 0 ↔ led.swaPage page = 0)
  count_le : ∀ page, g.InPool page → led.swaLiveCount page ≤ led.ends page
  /-- The live slots of a page are the last ones written. -/
  live_iff : ∀ loc, loc ∈ live ↔ g.InPool (loc / g.pageSize) ∧
    led.ends (loc / g.pageSize) ≤ loc % g.pageSize + led.swaLiveCount (loc / g.pageSize) ∧
    loc % g.pageSize < led.ends (loc / g.pageSize)
  mapping_eq : ∀ loc, led.mapping loc =
    if loc ∈ live then led.swaPage (loc / g.pageSize) * g.pageSize + loc % g.pageSize else 0

namespace Tracks

variable {led : RankLedger} {reserved reservedSwa : List Nat} {live : Finset Nat}

theorem swa_zero_of_ends (h : Tracks g led reserved reservedSwa live) {page : Nat}
    (hpage : g.InPool page) (hends : led.ends page = 0) : led.swaPage page = 0 := by
  have hle := h.count_le page hpage
  exact (h.count_zero page hpage).mp (by omega)

theorem mapping_ne_zero_iff (h : Tracks g led reserved reservedSwa live) (loc : Nat) :
    led.mapping loc ≠ 0 ↔ loc ∈ live := by
  rw [h.mapping_eq]
  by_cases hlive : loc ∈ live
  · simp only [hlive, if_true, iff_true]
    have hloc := (h.live_iff loc).mp hlive
    have hcount : led.swaLiveCount (loc / g.pageSize) ≠ 0 := by omega
    have hswa := mt (h.count_zero _ hloc.1).mpr hcount
    have hp := g.pageSize_pos
    have := Nat.mul_pos (Nat.pos_of_ne_zero hswa) hp
    omega
  · simp [hlive]

end Tracks

theorem tracks_cleared (g : Geometry) : Tracks g (clearedRank g) [] [] ∅ where
  pages_nodup := by simpa [clearedRank] using List.nodup_range'
  pages_iff := by
    intro page
    simp only [clearedRank, List.nil_append, List.mem_range'_1, Geometry.InPool, and_true]
    omega
  ends_le := by simp [clearedRank]
  swa_nodup := by simpa [clearedRank] using List.nodup_range'
  swa_iff := by
    intro k
    simp only [clearedRank, List.nil_append, List.mem_range'_1]
    constructor
    · intro hk
      exact ⟨by omega, fun _ _ => by omega⟩
    · rintro ⟨hk, _⟩
      omega
  swa_le := by simp [clearedRank]
  swa_inj := by simp [clearedRank]
  count_zero := by simp [clearedRank]
  count_le := by simp [clearedRank]
  live_iff := by simp [clearedRank]
  mapping_eq := by simp [clearedRank]

/-- The slots of a run of a page, by page and offset. -/
theorem mem_run_iff (g : Geometry) {page offset count loc : Nat}
    (h : offset + count ≤ g.pageSize) :
    (page * g.pageSize + offset ≤ loc ∧ loc < page * g.pageSize + offset + count) ↔
      loc / g.pageSize = page ∧ offset ≤ loc % g.pageSize ∧ loc % g.pageSize < offset + count := by
  have hp := g.pageSize_pos
  have hdiv := Nat.div_add_mod' loc g.pageSize
  constructor
  · rintro ⟨hlo, hhi⟩
    have hpage : loc / g.pageSize = page := by
      rw [Nat.div_eq_iff hp]
      constructor <;> omega
    rw [hpage] at hdiv
    exact ⟨hpage, by omega, by omega⟩
  · rintro ⟨rfl, hlo, hhi⟩
    omega

/-- What a write may assume: its page ends where the write starts, a page without
an SWA page gets the next reserved one, a new page is the next reserved one. -/
structure WriteFits (g : Geometry) (led : RankLedger) (w : PageWrite)
    (reserved reservedSwa reserved' reservedSwa' : List Nat) : Prop where
  inPool : g.InPool w.page
  ends : led.ends w.page = w.offset
  count_pos : 0 < w.count
  bound : w.offset + w.count ≤ g.pageSize
  pages : (w.offset = 0 ∧ reserved = w.page :: reserved') ∨ (w.offset ≠ 0 ∧ reserved = reserved')
  swa : (led.swaPage w.page = 0 ∧ reservedSwa = w.swa :: reservedSwa') ∨
    (led.swaPage w.page ≠ 0 ∧ w.swa = led.swaPage w.page ∧ reservedSwa = reservedSwa')

section CommitWrite

variable (led : RankLedger) (w : PageWrite) (page : Nat)

@[simp] theorem commitWrite_freePages : (commitWrite g led w).freePages = led.freePages := rfl

@[simp] theorem commitWrite_swaFree : (commitWrite g led w).swaFree = led.swaFree := rfl

@[simp] theorem commitWrite_freeGroup : (commitWrite g led w).freeGroup = led.freeGroup := rfl

@[simp] theorem commitWrite_ends : (commitWrite g led w).ends page =
    if page = w.page then w.offset + w.count else led.ends page := by
  simp [commitWrite, Function.update_apply]

@[simp] theorem commitWrite_swaPage : (commitWrite g led w).swaPage page =
    if page = w.page then w.swa else led.swaPage page := by
  simp [commitWrite, Function.update_apply]

theorem mem_locs_iff {loc : Nat} (h : w.offset + w.count ≤ g.pageSize) :
    loc ∈ w.locs g ↔ loc / g.pageSize = w.page ∧ w.offset ≤ loc % g.pageSize ∧
      loc % g.pageSize < w.offset + w.count := by
  unfold PageWrite.locs
  rw [List.mem_range'_1]
  exact mem_run_iff g h

end CommitWrite

namespace WriteFits

variable {led : RankLedger} {w : PageWrite}
  {reserved reservedSwa reserved' reservedSwa' : List Nat} {live : Finset Nat}

/-- The SWA page of the write is in range and no other page has it. -/
theorem swa_fresh (hw : WriteFits g led w reserved reservedSwa reserved' reservedSwa')
    (h : Tracks g led reserved reservedSwa live) :
    (1 ≤ w.swa ∧ w.swa ≤ g.swaPagesPerRank) ∧
      ∀ page, g.InPool page → page ≠ w.page → led.swaPage page ≠ w.swa := by
  rcases hw.swa with ⟨_, hreserved⟩ | ⟨hmapped, heq, _⟩
  · have hin := (h.swa_iff w.swa).mp (by simp [hreserved])
    exact ⟨hin.1, fun page hpage _ => hin.2 page hpage⟩
  · rw [heq]
    refine ⟨⟨Nat.pos_of_ne_zero hmapped, h.swa_le _ hw.inPool⟩, fun page hpage hne hsame => ?_⟩
    exact hne (h.swa_inj page w.page hpage hw.inPool (by rw [hsame]; exact hmapped) hsame)

/-- A page counts the slots of a write on top of what it had. -/
theorem count_eq (hw : WriteFits g led w reserved reservedSwa reserved' reservedSwa')
    (h : Tracks g led reserved reservedSwa live) (page : Nat) :
    (commitWrite g led w).swaLiveCount page =
      if page = w.page then led.swaLiveCount page + w.count else led.swaLiveCount page := by
  simp only [commitWrite, Function.update_apply]
  by_cases hpage : page = w.page
  · subst hpage
    rw [if_pos rfl, if_pos rfl]
    split
    · rename_i hzero
      rw [(h.count_zero _ hw.inPool).mpr hzero, Nat.zero_add]
    · rfl
  · rw [if_neg hpage, if_neg hpage]

theorem mem_live (hw : WriteFits g led w reserved reservedSwa reserved' reservedSwa')
    (h : Tracks g led reserved reservedSwa live) (loc : Nat) :
    loc ∈ live ∪ (w.locs g).toFinset ↔ g.InPool (loc / g.pageSize) ∧
      (commitWrite g led w).ends (loc / g.pageSize) ≤
        loc % g.pageSize + (commitWrite g led w).swaLiveCount (loc / g.pageSize) ∧
      loc % g.pageSize < (commitWrite g led w).ends (loc / g.pageSize) := by
  rw [Finset.mem_union, List.mem_toFinset, mem_locs_iff w hw.bound, h.live_iff loc,
    hw.count_eq h, commitWrite_ends]
  by_cases hpage : loc / g.pageSize = w.page
  · have hpool := hw.inPool
    have hends := hw.ends
    have hle := h.count_le _ hw.inPool
    rw [hpage, if_pos rfl, if_pos rfl]
    simp only [hpool, true_and]
    omega
  · rw [if_neg hpage, if_neg hpage]
    simp [hpage]

theorem mapping (hw : WriteFits g led w reserved reservedSwa reserved' reservedSwa')
    (h : Tracks g led reserved reservedSwa live) (loc : Nat) :
    (commitWrite g led w).mapping loc = if loc ∈ live ∪ (w.locs g).toFinset then
      (commitWrite g led w).swaPage (loc / g.pageSize) * g.pageSize + loc % g.pageSize
    else 0 := by
  have hdiv := Nat.div_add_mod' loc g.pageSize
  have hrun := @mem_run_iff g w.page w.offset w.count loc hw.bound
  by_cases hin : loc ∈ w.locs g
  · have hloc := (mem_locs_iff w hw.bound).mp hin
    have hmap : (commitWrite g led w).mapping loc =
        w.swa * g.pageSize + (loc - w.page * g.pageSize) := by
      unfold commitWrite
      exact if_pos (hrun.mpr hloc)
    rw [hmap, if_pos (by simp [hin]), commitWrite_swaPage, if_pos hloc.1]
    rw [hloc.1] at hdiv
    omega
  · have hmap : (commitWrite g led w).mapping loc = led.mapping loc := by
      unfold commitWrite
      exact if_neg fun hc => hin ((mem_locs_iff w hw.bound).mpr (hrun.mp hc))
    have hmem : loc ∈ live ∪ (w.locs g).toFinset ↔ loc ∈ live := by simp [hin]
    rw [hmap, h.mapping_eq, commitWrite_swaPage]
    by_cases hlive : loc ∈ live
    · rw [if_pos hlive, if_pos (hmem.mpr hlive)]
      split
      · rename_i hpage
        -- a page with live slots already has its SWA page
        have hloc := (h.live_iff loc).mp hlive
        have hcount : led.swaLiveCount (loc / g.pageSize) ≠ 0 := by omega
        have hmapped := mt (h.count_zero _ hloc.1).mpr hcount
        rw [hpage] at hmapped ⊢
        rcases hw.swa with ⟨hzero, _⟩ | ⟨_, heq, _⟩
        · exact absurd hzero hmapped
        · rw [heq]
      · rfl
    · rw [if_neg hlive, if_neg (mt hmem.mp hlive)]

/-- One round of the commit loop keeps the invariant. -/
theorem tracks (hw : WriteFits g led w reserved reservedSwa reserved' reservedSwa')
    (h : Tracks g led reserved reservedSwa live) :
    Tracks g (commitWrite g led w) reserved' reservedSwa' (live ∪ (w.locs g).toFinset) where
  pages_nodup := by
    have hnodup := h.pages_nodup
    rcases hw.pages with ⟨_, hr⟩ | ⟨_, hr⟩
    · rw [hr, List.cons_append] at hnodup
      exact (List.nodup_cons.mp hnodup).2
    · exact hr ▸ hnodup
  pages_iff := by
    intro page
    rw [commitWrite_freePages, commitWrite_ends]
    have hiff := h.pages_iff page
    have hcount := hw.count_pos
    rcases hw.pages with ⟨_, hr⟩ | ⟨hoff, hr⟩
    · have hnodup := h.pages_nodup
      rw [hr, List.cons_append, List.nodup_cons] at hnodup
      rw [hr, List.cons_append, List.mem_cons] at hiff
      by_cases hpage : page = w.page
      · subst hpage
        simp only [hnodup.1, if_pos, false_iff]
        omega
      · rw [if_neg hpage, ← hiff, or_iff_right hpage]
    · rw [← hr, hiff]
      by_cases hpage : page = w.page
      · subst hpage
        have hends := hw.ends
        rw [if_pos rfl]
        omega
      · rw [if_neg hpage]
  ends_le := by
    intro page hpage
    rw [commitWrite_ends]
    split
    · exact hw.bound
    · exact h.ends_le page hpage
  swa_nodup := by
    have hnodup := h.swa_nodup
    rcases hw.swa with ⟨_, hr⟩ | ⟨_, _, hr⟩
    · rw [hr, List.cons_append] at hnodup
      exact (List.nodup_cons.mp hnodup).2
    · exact hr ▸ hnodup
  swa_iff := by
    intro k
    rw [commitWrite_swaFree]
    have hiff := h.swa_iff k
    have hfresh := hw.swa_fresh h
    have hnew : (∀ page, g.InPool page → (commitWrite g led w).swaPage page ≠ k) ↔
        k ≠ w.swa ∧ ∀ page, g.InPool page → page ≠ w.page → led.swaPage page ≠ k := by
      constructor
      · intro hall
        refine ⟨fun heq => hall w.page hw.inPool (by simp [heq]), fun page hpage hne => ?_⟩
        have := hall page hpage
        rwa [commitWrite_swaPage, if_neg hne] at this
      · rintro ⟨hk, hall⟩ page hpage
        rw [commitWrite_swaPage]
        split
        · exact Ne.symm hk
        · rename_i hne
          exact hall page hpage hne
    rw [hnew]
    rcases hw.swa with ⟨hzero, hr⟩ | ⟨hmapped, heq, hr⟩
    · have hnodup := h.swa_nodup
      rw [hr, List.cons_append, List.nodup_cons] at hnodup
      rw [hr, List.cons_append, List.mem_cons] at hiff
      by_cases hk : k = w.swa
      · subst hk
        simp only [hnodup.1, ne_eq, not_true_eq_false, false_and, and_false]
      · rw [or_iff_right hk] at hiff
        rw [hiff]
        refine and_congr_right fun hrange => ?_
        constructor
        · exact fun hall => ⟨hk, fun page hpage _ => hall page hpage⟩
        · rintro ⟨_, hall⟩ page hpage
          by_cases hne : page = w.page
          · rw [hne, hzero]
            omega
          · exact hall page hpage hne
    · rw [← hr, hiff]
      refine and_congr_right fun _ => ?_
      constructor
      · exact fun hall => ⟨fun hk => hall w.page hw.inPool (heq ▸ hk.symm),
          fun page hpage _ => hall page hpage⟩
      · rintro ⟨hk, hall⟩ page hpage
        by_cases hne : page = w.page
        · rw [hne, ← heq]
          exact Ne.symm hk
        · exact hall page hpage hne
  swa_le := by
    intro page hpage
    rw [commitWrite_swaPage]
    split
    · exact (hw.swa_fresh h).1.2
    · exact h.swa_le page hpage
  swa_inj := by
    intro page page' hpage hpage' hne heq
    have hfresh := (hw.swa_fresh h).2
    rw [commitWrite_swaPage] at hne heq
    rw [commitWrite_swaPage] at heq
    by_cases h1 : page = w.page
    · by_cases h2 : page' = w.page
      · exact h1.trans h2.symm
      · rw [if_pos h1, if_neg h2] at heq
        exact absurd heq.symm (hfresh page' hpage' h2)
    · rw [if_neg h1] at hne heq
      by_cases h2 : page' = w.page
      · rw [if_pos h2] at heq
        exact absurd heq (hfresh page hpage h1)
      · rw [if_neg h2] at heq
        exact h.swa_inj page page' hpage hpage' hne heq
  count_zero := by
    intro page hpage
    have hswa := (hw.swa_fresh h).1.1
    have hcount := hw.count_pos
    have hold := h.count_zero page hpage
    rw [hw.count_eq h, commitWrite_swaPage]
    split
    · omega
    · exact hold
  count_le := by
    intro page hpage
    have hold := h.count_le page hpage
    have hends := hw.ends
    rw [hw.count_eq h, commitWrite_ends]
    split
    · rename_i heq
      subst heq
      omega
    · exact hold
  live_iff := hw.mem_live h
  mapping_eq := hw.mapping h

end WriteFits

end SglJax.MemCache.DeepseekV4
