import SglJax.MemCache.DeepseekPlan
import SglJax.MemCache.DeepseekRelease

/-! Runs of the allocator. A slot is live from the allocation that returned it
until a release names it; the ledger says the same in every reachable state. -/
namespace SglJax.MemCache.DeepseekV4

variable {g : Geometry}

inductive Call where
  | alloc (needSize dpRank : Int)
  | allocExtend (prefixLens seqLens lastLoc : NdArray) (extendNumTokens dpRank : Int)
  | allocDecode (seqLens lastLoc : NdArray) (dpRank : Int)
  | freeSwa (freeIndex : NdArray) (dpRank : Int)
  | free (freeIndex : NdArray) (dpRank : Int)
  | freeGroupBegin
  | freeGroupEnd
  | clear (dpRank : Option Int)

def Ledger.call (s : Ledger g) : Call → Outcome × Ledger g
  | .alloc needSize dpRank => s.alloc needSize dpRank
  | .allocExtend prefixLens seqLens lastLoc extendNumTokens dpRank =>
    s.allocExtend prefixLens seqLens lastLoc extendNumTokens dpRank
  | .allocDecode seqLens lastLoc dpRank => s.allocDecode seqLens lastLoc dpRank
  | .freeSwa freeIndex dpRank => s.freeSwa freeIndex dpRank
  | .free freeIndex dpRank => s.free freeIndex dpRank
  | .freeGroupBegin => s.freeGroupBegin
  | .freeGroupEnd => s.freeGroupEnd
  | .clear dpRank => s.clear dpRank

/-- The live slots of every rank. -/
abbrev LiveSlots (g : Geometry) := Fin g.dpSize → Finset Nat

def LiveSlots.atRank (live : LiveSlots g) (dpRank : Int) (change : Finset Nat → Finset Nat) :
    LiveSlots g :=
  match g.rank dpRank with
  | .error _ => live
  | .ok rank => Function.update live rank (change (live rank))

def NdArray.named (a : NdArray) : Finset Nat := (a.values.map (·.toNat)).toFinset

/-- What a release that went through took: nothing yet inside a free group, and
everything the group named at its end. -/
def LiveSlots.released (live : LiveSlots g) (s : Ledger g) : Call → LiveSlots g
  | .freeSwa freeIndex dpRank => live.atRank dpRank (· \ freeIndex.named)
  | .free freeIndex dpRank =>
    if s.isNotInFreeGroup then live.atRank dpRank (· \ freeIndex.named) else live
  | .freeGroupEnd => fun rank =>
    live rank \ (((s.ranks rank).freeGroup.flatMap (·.values)).map (·.toNat)).toFinset
  | .clear none => fun _ => ∅
  | .clear (some dpRank) => live.atRank dpRank fun _ => ∅
  | _ => live

def LiveSlots.allocated (live : LiveSlots g) (locs : List Nat) : Call → LiveSlots g
  | .alloc _ dpRank | .allocExtend _ _ _ _ dpRank | .allocDecode _ _ dpRank =>
    live.atRank dpRank (· ∪ locs.toFinset)
  | _ => live

/-- The live slots after a call with this outcome. -/
def LiveSlots.after (live : LiveSlots g) (s : Ledger g) (c : Call) : Outcome → LiveSlots g
  | .slots locs => live.allocated locs c
  | .finished => live.released s c
  | .exhausted | .raised _ => live

/-- The states of a run with the slots that are live in them. A backup is a state
the run has been in; restoring it restores what was live then. -/
inductive Reachable (g : Geometry) : Ledger g → LiveSlots g → Prop where
  | init : Reachable g (.init g) fun _ => ∅
  | call {s : Ledger g} {live : LiveSlots g} (c : Call) : Reachable g s live →
      Reachable g (s.call c).2 (live.after s c (s.call c).1)
  | restore {s saved : Ledger g} {live savedLive : LiveSlots g} : Reachable g s live →
      Reachable g saved savedLive → Reachable g (s.restoreState saved) savedLive

/-- Nothing was done: the call raised, or the allocation did not fit. -/
def Outcome.failed : Outcome → Bool
  | raised _ | exhausted => true
  | _ => false

/-- What the ledger of a rank says of its pages and slots. -/
structure RankExact (g : Geometry) (led : RankLedger) (live : Finset Nat) : Prop where
  free_nodup : led.freePages.Nodup
  /-- A page of the pool is free or in use, never both. -/
  free_iff : ∀ page, page ∈ led.freePages ↔ g.InPool page ∧ ¬ 0 < led.ends page
  swa_nodup : led.swaFree.Nodup
  /-- An SWA page is free or the SWA page of a history page, never both. -/
  swa_iff : ∀ k, k ∈ led.swaFree ↔
    (1 ≤ k ∧ k ≤ g.swaPagesPerRank) ∧ ¬ ∃ page, g.InPool page ∧ led.swaPage page = k
  swa_le : ∀ page, g.InPool page → led.swaPage page ≤ g.swaPagesPerRank
  swa_unique : ∀ page page', g.InPool page → g.InPool page' → led.swaPage page ≠ 0 →
    led.swaPage page = led.swaPage page' → page = page'
  live_inPool : ∀ loc ∈ live, g.InPool (loc / g.pageSize)
  mapping_ne_zero : ∀ loc, led.mapping loc ≠ 0 ↔ loc ∈ live
  mapping_eq : ∀ loc ∈ live, led.mapping loc =
    led.swaPage (loc / g.pageSize) * g.pageSize + loc % g.pageSize
  live_count : ∀ page, g.InPool page →
    led.swaLiveCount page = (live.filter fun loc => loc / g.pageSize = page).card

theorem Tracks.exact {led : RankLedger} {live : Finset Nat} (h : Tracks g led [] [] live) :
    RankExact g led live where
  free_nodup := h.pages_nodup
  free_iff := by
    intro page
    rw [Nat.not_lt, Nat.le_zero]
    exact h.pages_iff page
  swa_nodup := h.swa_nodup
  swa_iff := by
    intro k
    simpa using h.swa_iff k
  swa_le := h.swa_le
  swa_unique := h.swa_inj
  live_inPool := fun loc hloc => ((h.live_iff loc).mp hloc).1
  mapping_ne_zero := h.mapping_ne_zero_iff
  mapping_eq := by
    intro loc hloc
    rw [h.mapping_eq, if_pos hloc]
  live_count := fun _ hpage => (h.card_page hpage).symm

/-! One call. -/

section RankAllocExtend

variable {led : RankLedger} {prefixLens seqLens lastLoc : NdArray} {extendNumTokens : Int}

theorem rankAllocExtend_failed
    (h : (rankAllocExtend g led prefixLens seqLens lastLoc extendNumTokens).1.failed = true) :
    (rankAllocExtend g led prefixLens seqLens lastLoc extendNumTokens).2 = led := by
  unfold rankAllocExtend at h ⊢
  split
  · rfl
  · split
    · rfl
    · split
      · rfl
      · rename_i demand segments hplan hfits _ writes hplace
        rw [hplan] at h
        dsimp only at h
        rw [if_neg hfits, hplace] at h
        cases h

/-- Taking pages off the free lists reserves them for the commit. -/
theorem Tracks.reserve {live : Finset Nat} (h : Tracks g led [] [] live) (pages swaPages : Nat) :
    Tracks g { led with
      freePages := led.freePages.drop pages
      swaFree := led.swaFree.drop swaPages }
      (led.freePages.take pages) (led.swaFree.take swaPages) live :=
  { h with
    pages_nodup := by
      rw [List.take_append_drop]
      exact h.pages_nodup
    pages_iff := by
      intro page
      rw [List.take_append_drop]
      exact h.pages_iff page
    swa_nodup := by
      rw [List.take_append_drop]
      exact h.swa_nodup
    swa_iff := by
      intro k
      rw [List.take_append_drop]
      exact h.swa_iff k }

theorem rankAllocExtend_tracks {live : Finset Nat} (h : Tracks g led [] [] live) {locs : List Nat}
    (hlocs : (rankAllocExtend g led prefixLens seqLens lastLoc extendNumTokens).1 = .slots locs) :
    Tracks g (rankAllocExtend g led prefixLens seqLens lastLoc extendNumTokens).2 [] []
      (live ∪ locs.toFinset) := by
  unfold rankAllocExtend at hlocs ⊢
  split
  · rename_i hplan
    rw [hplan] at hlocs
    cases hlocs
  · rename_i demand segments hplan
    rw [hplan] at hlocs
    dsimp only at hlocs
    split
    · rename_i hfull
      rw [if_pos hfull] at hlocs
      cases hlocs
    · rename_i hfits
      rw [if_neg hfits] at hlocs
      split
      · rename_i hplace
        rw [hplace] at hlocs
        cases hlocs
      · rename_i writes hplace
        rw [hplace] at hlocs
        cases hlocs
        obtain ⟨st, hst, rfl, hpages, hswa⟩ := planned_of_plan hplan
        have hblank : ∀ page ∈ led.freePages.take demand.historyPages, led.swaPage page = 0 := by
          intro page hpage
          have hfree := (h.pages_iff page).mp (List.mem_of_mem_take hpage)
          exact h.swa_zero_of_ends hfree.1 hfree.2
        have hcommit : Committing g led { led with
            freePages := led.freePages.drop demand.historyPages
            swaFree := led.swaFree.drop demand.swaPages } st.segments :=
          ⟨hst.fits, hst.distinct, fun _ _ _ => rfl, fun _ _ _ => rfl⟩
        have hdone := tracks_commit hblank (k := 0) (h.reserve demand.historyPages demand.swaPages)
          hcommit hst.order hplace
        have hused : ∀ (l : List Nat) n, (l.take n).drop n = [] := by
          intro l n
          simp
        rw [Nat.zero_add, ← hst.newCount, ← hpages, ← hswa, hused, hused] at hdone
        exact hdone

end RankAllocExtend

namespace Ledger

variable {s : Ledger g} {live : LiveSlots g}

/-- The invariant of all ranks. -/
def TracksAll (s : Ledger g) (live : LiveSlots g) : Prop :=
  ∀ rank, Tracks g (s.ranks rank) [] [] (live rank)

@[simp] theorem setRank_self (s : Ledger g) (rank : Fin g.dpSize) :
    s.setRank rank (s.ranks rank) = s := by
  unfold setRank
  rw [Function.update_eq_self]

theorem TracksAll.setRank (h : s.TracksAll live) (rank : Fin g.dpSize) {led : RankLedger}
    {slots : Finset Nat} (hled : Tracks g led [] [] slots) :
    (s.setRank rank led).TracksAll (Function.update live rank slots) := by
  intro other
  unfold Ledger.setRank
  by_cases heq : other = rank
  · subst heq
    simpa using hled
  · simpa [heq] using h other

theorem allocExtend_failed {prefixLens seqLens lastLoc : NdArray} {extendNumTokens dpRank : Int}
    (h : (s.allocExtend prefixLens seqLens lastLoc extendNumTokens dpRank).1.failed = true) :
    (s.allocExtend prefixLens seqLens lastLoc extendNumTokens dpRank).2 = s := by
  unfold allocExtend at h ⊢
  cases hrank : g.rank dpRank with
  | error e => rfl
  | ok rank =>
    rw [hrank] at h
    dsimp only at h ⊢
    rw [rankAllocExtend_failed h, setRank_self]

theorem freeGroupEnd_failed (h : s.freeGroupEnd.1.failed = true) : s.freeGroupEnd.2 = s := by
  unfold freeGroupEnd at h ⊢
  split
  · rfl
  · rename_i hgroups
    rw [hgroups] at h
    dsimp only at h
    split
    · rfl
    · rename_i hpages
      rw [hpages] at h
      cases h

/-- A call that raises or returns `None` leaves the ledger as it was. -/
theorem call_failed (s : Ledger g) (c : Call) (h : (s.call c).1.failed = true) :
    (s.call c).2 = s := by
  cases c with
  | alloc needSize dpRank =>
    unfold call alloc at h ⊢
    dsimp only at h ⊢
    split
    · rfl
    · rename_i hsize
      rw [if_neg hsize] at h
      exact allocExtend_failed h
  | allocExtend prefixLens seqLens lastLoc extendNumTokens dpRank => exact allocExtend_failed h
  | allocDecode seqLens lastLoc dpRank =>
    unfold call allocDecode at h ⊢
    dsimp only at h ⊢
    split
    · rfl
    · rename_i hdim
      rw [if_neg hdim] at h
      exact allocExtend_failed h
  | freeSwa freeIndex dpRank =>
    unfold call freeSwa at h ⊢
    dsimp only at h ⊢
    cases hrank : g.rank dpRank with
    | error e => rfl
    | ok rank =>
      rw [hrank] at h
      dsimp only at h ⊢
      cases hpages : releasePages g (s.ranks rank) freeIndex true with
      | error e => rfl
      | ok pages =>
        rw [hpages] at h
        cases h
  | free freeIndex dpRank =>
    unfold call free at h ⊢
    dsimp only at h ⊢
    cases hrank : g.rank dpRank with
    | error e => rfl
    | ok rank =>
      rw [hrank] at h
      dsimp only at h ⊢
      split
      · rename_i hgroup
        rw [if_pos hgroup] at h
        cases h
      · rename_i hgroup
        rw [if_neg hgroup] at h
        cases hpages : releasePages g (s.ranks rank) freeIndex false with
        | error e => rfl
        | ok pages =>
          rw [hpages] at h
          cases h
  | freeGroupBegin =>
    unfold call freeGroupBegin at h ⊢
    dsimp only at h ⊢
    split
    · rfl
    · rename_i hgroup
      rw [if_neg hgroup] at h
      cases h
  | freeGroupEnd => exact freeGroupEnd_failed h
  | clear dpRank =>
    cases dpRank with
    | none => cases h
    | some dpRank =>
      unfold call clear at h ⊢
      dsimp only at h ⊢
      cases hrank : g.rank dpRank with
      | error e => rfl
      | ok rank =>
        rw [hrank] at h
        cases h

theorem TracksAll.atRank (h : s.TracksAll live) (change : Finset Nat → Finset Nat)
    {dpRank : Int} {rank : Fin g.dpSize} (hrank : g.rank dpRank = .ok rank) {led : RankLedger}
    (hled : Tracks g led [] [] (change (live rank))) :
    (s.setRank rank led).TracksAll (live.atRank dpRank change) := by
  unfold LiveSlots.atRank
  rw [hrank]
  exact h.setRank rank hled

theorem TracksAll.allocExtend (h : s.TracksAll live) {prefixLens seqLens lastLoc : NdArray}
    {extendNumTokens dpRank : Int} {locs : List Nat}
    (hlocs : (s.allocExtend prefixLens seqLens lastLoc extendNumTokens dpRank).1 = .slots locs) :
    (s.allocExtend prefixLens seqLens lastLoc extendNumTokens dpRank).2.TracksAll
      (live.atRank dpRank (· ∪ locs.toFinset)) := by
  unfold Ledger.allocExtend at hlocs ⊢
  cases hrank : g.rank dpRank with
  | error e =>
    rw [hrank] at hlocs
    cases hlocs
  | ok rank =>
    rw [hrank] at hlocs
    exact h.atRank (· ∪ locs.toFinset) hrank (rankAllocExtend_tracks (h rank) hlocs)

/-- Releasing the pages of a list that passed the validation takes the named slots. -/
theorem released_tracks {led : RankLedger} {slots : Finset Nat} (h : Tracks g led [] [] slots)
    {indices : NdArray} {pages : List Nat} {swaOnly : Bool}
    (hpages : releasePages g led indices swaOnly = .ok pages) :
    Tracks g (freeSwaPages g led pages) [] [] (slots \ indices.named) ∧
      Tracks g (freeFullPages g led pages) [] [] (slots \ indices.named) := by
  obtain ⟨hnodup, hpool, htaken⟩ := releasePages_spec h hpages
  unfold NdArray.named
  rw [← htaken]
  exact ⟨h.freeSwaPages hnodup hpool, h.freeFullPages hnodup hpool⟩

theorem rankAllocExtend_outcome {led : RankLedger} {prefixLens seqLens lastLoc : NdArray}
    {extendNumTokens : Int} :
    (rankAllocExtend g led prefixLens seqLens lastLoc extendNumTokens).1 ≠ .finished := by
  unfold rankAllocExtend
  split
  · simp
  · split
    · simp
    · split <;> simp

theorem allocExtend_outcome {prefixLens seqLens lastLoc : NdArray} {extendNumTokens dpRank : Int} :
    (s.allocExtend prefixLens seqLens lastLoc extendNumTokens dpRank).1 ≠ .finished := by
  unfold Ledger.allocExtend
  split
  · simp
  · exact rankAllocExtend_outcome

theorem firstError_none {α : Type} {result : Fin g.dpSize → Except LedgerError α}
    (h : firstError result = none) (rank : Fin g.dpSize) : ∃ value, result rank = .ok value := by
  unfold firstError at h
  have hrank := List.findSome?_eq_none_iff.mp h rank (List.mem_finRange rank)
  cases hres : result rank with
  | error e => simp [hres] at hrank
  | ok value => exact ⟨value, rfl⟩

theorem concatenate_values {group : List NdArray} {a : NdArray} (h : concatenate group = .ok a) :
    a.values = group.flatMap (·.values) := by
  cases group with
  | nil =>
    cases h
    rfl
  | cons b rest =>
    simp only [concatenate] at h
    split at h
    · cases h
      rfl
    · cases h

theorem TracksAll.alloc (h : s.TracksAll live) {needSize dpRank : Int} {locs : List Nat}
    (hlocs : (s.alloc needSize dpRank).1 = .slots locs) :
    (s.alloc needSize dpRank).2.TracksAll (live.atRank dpRank (· ∪ locs.toFinset)) := by
  unfold Ledger.alloc at hlocs ⊢
  split
  · rename_i hsize
    rw [if_pos hsize] at hlocs
    cases hlocs
  · rename_i hsize
    rw [if_neg hsize] at hlocs
    exact h.allocExtend hlocs

theorem TracksAll.allocDecode (h : s.TracksAll live) {seqLens lastLoc : NdArray} {dpRank : Int}
    {locs : List Nat} (hlocs : (s.allocDecode seqLens lastLoc dpRank).1 = .slots locs) :
    (s.allocDecode seqLens lastLoc dpRank).2.TracksAll
      (live.atRank dpRank (· ∪ locs.toFinset)) := by
  unfold Ledger.allocDecode at hlocs ⊢
  split
  · rename_i hdim
    rw [if_pos hdim] at hlocs
    cases hlocs
  · rename_i hdim
    rw [if_neg hdim] at hlocs
    exact h.allocExtend hlocs

theorem TracksAll.freeSwa (h : s.TracksAll live) {freeIndex : NdArray} {dpRank : Int}
    (hdone : (s.freeSwa freeIndex dpRank).1 = .finished) :
    (s.freeSwa freeIndex dpRank).2.TracksAll (live.released s (.freeSwa freeIndex dpRank)) := by
  unfold Ledger.freeSwa at hdone ⊢
  cases hrank : g.rank dpRank with
  | error e =>
    rw [hrank] at hdone
    cases hdone
  | ok rank =>
    rw [hrank] at hdone
    dsimp only at hdone ⊢
    cases hpages : releasePages g (s.ranks rank) freeIndex true with
    | error e =>
      rw [hpages] at hdone
      cases hdone
    | ok pages => exact h.atRank (· \ freeIndex.named) hrank (released_tracks (h rank) hpages).1

/-- Inside a free group a release is only noted down. -/
theorem TracksAll.free (h : s.TracksAll live) {freeIndex : NdArray} {dpRank : Int}
    (hdone : (s.free freeIndex dpRank).1 = .finished) :
    (s.free freeIndex dpRank).2.TracksAll (live.released s (.free freeIndex dpRank)) := by
  unfold Ledger.free at hdone ⊢
  unfold LiveSlots.released
  cases hrank : g.rank dpRank with
  | error e =>
    rw [hrank] at hdone
    cases hdone
  | ok rank =>
    rw [hrank] at hdone
    dsimp only at hdone ⊢
    cases hgroup : s.isNotInFreeGroup with
    | false =>
      have hled : Tracks g
          { s.ranks rank with freeGroup := (s.ranks rank).freeGroup ++ [freeIndex] } [] []
          (live rank) := { h rank with }
      have hnoted := h.setRank rank hled
      rwa [Function.update_eq_self] at hnoted
    | true =>
      rw [hgroup] at hdone
      simp only [Bool.not_true, Bool.false_eq_true, if_false, if_true] at hdone ⊢
      cases hpages : releasePages g (s.ranks rank) freeIndex false with
      | error e =>
        rw [hpages] at hdone
        cases hdone
      | ok pages => exact h.atRank (· \ freeIndex.named) hrank (released_tracks (h rank) hpages).2

theorem TracksAll.clear (h : s.TracksAll live) {dpRank : Option Int}
    (hdone : (s.clear dpRank).1 = .finished) :
    (s.clear dpRank).2.TracksAll (live.released s (.clear dpRank)) := by
  cases dpRank with
  | none => exact fun _ => tracks_cleared g
  | some dpRank =>
    unfold Ledger.clear at hdone ⊢
    dsimp only at hdone ⊢
    cases hrank : g.rank dpRank with
    | error e =>
      rw [hrank] at hdone
      cases hdone
    | ok rank => exact h.atRank (fun _ => ∅) hrank (tracks_cleared g)

theorem TracksAll.freeGroupEnd (h : s.TracksAll live)
    (hdone : s.freeGroupEnd.1 = .finished) :
    s.freeGroupEnd.2.TracksAll (live.released s .freeGroupEnd) := by
  unfold Ledger.freeGroupEnd at hdone ⊢
  split
  · rename_i hgroups
    rw [hgroups] at hdone
    cases hdone
  · rename_i hgroups
    rw [hgroups] at hdone
    dsimp only at hdone
    split
    · rename_i hpages
      rw [hpages] at hdone
      cases hdone
    · rename_i hpages
      intro rank
      obtain ⟨indices, hindices⟩ := firstError_none hgroups rank
      obtain ⟨pages, hrank⟩ := firstError_none hpages rank
      have hrelease : releasePages g (s.ranks rank) indices false = .ok pages := by
        unfold groupPages at hrank
        rw [hindices] at hrank
        exact hrank
      have htracks := (released_tracks (h rank) hrelease).2
      unfold NdArray.named at htracks
      rw [concatenate_values hindices] at htracks
      dsimp only
      rw [hrank]
      exact { htracks with }

/-- Calls that take slots back. -/
def IsRelease : Call → Prop
  | .alloc _ _ | .allocExtend _ _ _ _ _ | .allocDecode _ _ _ => False
  | _ => True

theorem release_no_slots {c : Call} {locs : List Nat} (hc : IsRelease c) :
    (s.call c).1 ≠ .slots locs := by
  cases c with
  | alloc needSize dpRank => cases hc
  | allocExtend prefixLens seqLens lastLoc extendNumTokens dpRank => cases hc
  | allocDecode seqLens lastLoc dpRank => cases hc
  | freeSwa freeIndex dpRank =>
    unfold Ledger.call Ledger.freeSwa
    dsimp only
    split
    · simp
    · split <;> simp
  | free freeIndex dpRank =>
    unfold Ledger.call Ledger.free
    dsimp only
    split
    · simp
    · split
      · simp
      · split <;> simp
  | freeGroupBegin =>
    unfold Ledger.call Ledger.freeGroupBegin
    dsimp only
    split <;> simp
  | freeGroupEnd =>
    unfold Ledger.call Ledger.freeGroupEnd
    dsimp only
    split
    · simp
    · split <;> simp
  | clear dpRank =>
    unfold Ledger.call Ledger.clear
    cases dpRank with
    | none => simp
    | some dpRank =>
      dsimp only
      split <;> simp

/-- One call keeps the invariant of all ranks. -/
theorem TracksAll.call (h : s.TracksAll live) (c : Call) :
    (s.call c).2.TracksAll (live.after s c (s.call c).1) := by
  cases hout : (s.call c).1 with
  | raised e =>
    rw [call_failed s c (by rw [hout]; rfl)]
    exact h
  | exhausted =>
    rw [call_failed s c (by rw [hout]; rfl)]
    exact h
  | slots locs =>
    cases c with
    | alloc needSize dpRank => exact h.alloc hout
    | allocExtend prefixLens seqLens lastLoc extendNumTokens dpRank => exact h.allocExtend hout
    | allocDecode seqLens lastLoc dpRank => exact h.allocDecode hout
    | freeSwa freeIndex dpRank => exact absurd hout (release_no_slots trivial)
    | free freeIndex dpRank => exact absurd hout (release_no_slots trivial)
    | freeGroupBegin => exact absurd hout (release_no_slots trivial)
    | freeGroupEnd => exact absurd hout (release_no_slots trivial)
    | clear dpRank => exact absurd hout (release_no_slots trivial)
  | finished =>
    cases c with
    | alloc needSize dpRank =>
      unfold Ledger.call Ledger.alloc at hout
      dsimp only at hout
      split at hout
      · cases hout
      · exact absurd hout allocExtend_outcome
    | allocExtend prefixLens seqLens lastLoc extendNumTokens dpRank =>
      exact absurd hout allocExtend_outcome
    | allocDecode seqLens lastLoc dpRank =>
      unfold Ledger.call Ledger.allocDecode at hout
      dsimp only at hout
      split at hout
      · cases hout
      · exact absurd hout allocExtend_outcome
    | freeSwa freeIndex dpRank => exact h.freeSwa hout
    | free freeIndex dpRank => exact h.free hout
    | freeGroupBegin =>
      unfold Ledger.call Ledger.freeGroupBegin
      dsimp only
      split
      · exact h
      · exact h
    | freeGroupEnd => exact h.freeGroupEnd hout
    | clear dpRank => exact h.clear hout

end Ledger

/-- In every state of a run the ledger of every rank is exact, and a call that
raises or does not fit leaves the whole ledger as it was. -/
theorem reachable_ledger_exact {s : Ledger g} {live : LiveSlots g} (h : Reachable g s live) :
    (∀ rank, RankExact g (s.ranks rank) (live rank)) ∧
      ∀ c, (s.call c).1.failed = true → (s.call c).2 = s := by
  have htracks : s.TracksAll live := by
    induction h with
    | init => exact fun _ => tracks_cleared g
    | call c _ ih => exact ih.call c
    | restore _ _ _ ih => exact ih
  exact ⟨fun rank => (htracks rank).exact, s.call_failed⟩

/-- Two history pages and two SWA pages of four slots on one rank. -/
def smallPool : Geometry := ⟨8, 8, 4, 1, by decide⟩

def onlyRank : Fin smallPool.dpSize := ⟨0, by decide⟩

/-- After one page was allocated: its slots are live, and naming half of them
frees nothing. -/
theorem small_pool_ledger_exact :
    RankExact smallPool (((Ledger.init smallPool).call (.alloc 4 0)).2.ranks onlyRank) {4, 5, 6, 7} ∧
      (((Ledger.init smallPool).call (.alloc 4 0)).2.call (.freeSwa (.ofInts [4, 5]) 0)).2 =
        ((Ledger.init smallPool).call (.alloc 4 0)).2 := by
  have hexact := reachable_ledger_exact (.call (.alloc 4 0) (.init (g := smallPool)))
  refine ⟨?_, hexact.2 _ (by decide)⟩
  have hlive : (LiveSlots.after (fun _ => ∅) (Ledger.init smallPool) (.alloc 4 0)
      ((Ledger.init smallPool).call (.alloc 4 0)).1) onlyRank = {4, 5, 6, 7} := by decide
  rw [← hlive]
  exact hexact.1 onlyRank

end SglJax.MemCache.DeepseekV4
