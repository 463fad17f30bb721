import SglJax.Foundation.Results
import SglJax.MemCache.SwaAllocator

/-! The allocator of a scheduler: one pool, or a FULL pool with a window pool
beside it. Giving slots back takes no room from any rank, and an allocation takes
room from its own rank only. -/
namespace SglJax.MemCache

/-- A sequence needs a page when its last one was full. -/
theorem needsNewPage_iff {pageSize : Nat} (hpage : 0 < pageSize) (seq : DecodeSeq) :
    needsNewPage pageSize seq = true ↔ (seq.seqLen - 1) % pageSize = 0 := by
  unfold needsNewPage
  obtain ⟨seqLen, loc, hpos⟩ := seq
  obtain ⟨n, rfl⟩ : ∃ n, seqLen = n + 1 := ⟨seqLen - 1, by omega⟩
  have hlt := Nat.mod_lt n hpage
  have hold := pagesFor_add_mul hpage (n / pageSize) (n % pageSize)
  have hnew := pagesFor_add_mul hpage (n / pageSize) (n % pageSize + 1)
  have hone : pagesFor pageSize (n % pageSize + 1) = 1 := pagesFor_of_le (by omega) (by omega)
  have hsplit : n / pageSize * pageSize + n % pageSize = n := Nat.div_add_mod' n pageSize
  rw [hsplit] at hold
  rw [← Nat.add_assoc, hsplit, hone] at hnew
  simp only [Nat.add_sub_cancel, decide_eq_true_eq, hold, hnew]
  rcases Nat.eq_zero_or_pos (n % pageSize) with hzero | hrest
  · simp [hzero, pagesFor_zero hpage]
  · rw [pagesFor_of_le hrest (by omega)]
    omega
/-- `new` has the pages of `old` and at least its room, for the ranks in `on`. -/
structure PoolAllocator.Keeps (on : Nat → Prop) (old new : PoolAllocator) : Prop where
  pageSize : new.pageSize = old.pageSize
  room : ∀ rank, on rank → old.availableSize rank ≤ new.availableSize rank

namespace PoolAllocator

variable {on : Nat → Prop} {a b c : PoolAllocator}

theorem Keeps.refl (on : Nat → Prop) (a : PoolAllocator) : Keeps on a a := ⟨rfl, fun _ _ => le_rfl⟩

theorem Keeps.trans (hab : Keeps on a b) (hbc : Keeps on b c) : Keeps on a c where
  pageSize := hbc.pageSize.trans hab.pageSize
  room rank hrank := (hab.room rank hrank).trans (hbc.room rank hrank)

theorem Keeps.mono {on' : Nat → Prop} (h : Keeps on a b) (hsub : ∀ rank, on' rank → on rank) :
    Keeps on' a b :=
  ⟨h.pageSize, fun rank hrank => h.room rank (hsub rank hrank)⟩

/-- More free pages of the same size are more room. -/
theorem Keeps.of_freeList (hpage : b.pageSize = a.pageSize)
    (hlist : ∀ rank, on rank → (a.freeList rank).length ≤ (b.freeList rank).length) :
    Keeps on a b where
  pageSize := hpage
  room rank hrank := by
    rw [availableSize_eq, availableSize_eq, hpage]
    exact Nat.mul_le_mul_right _ (hlist rank hrank)

theorem length_freeList_free_token (a : TokenAllocator) (slots : List Nat) (dpRank rank : Nat) :
    (a.freeSlots rank).length ≤ ((a.free slots dpRank).freeSlots rank).length := by
  unfold TokenAllocator.free
  split
  · exact le_rfl
  · split
    · by_cases hrank : rank = dpRank
      · subst hrank
        simp
      · simp [Function.update_of_ne hrank]
    · exact le_rfl

theorem length_freeList_free_paged (a : PagedAllocator) (slots : List Nat) (dpRank rank : Nat) :
    (a.freeList rank).length ≤ ((a.free slots dpRank).freeList rank).length := by
  unfold PagedAllocator.free
  split
  · exact le_rfl
  · split
    · dsimp only
      split
      · by_cases hrank : rank = dpRank
        · subst hrank
          simp [PagedAllocator.freeList]
        · simp [PagedAllocator.freeList, Function.update_of_ne hrank]
      · exact le_rfl
    · exact le_rfl

theorem keeps_free (a : PoolAllocator) (slots : List Nat) (dpRank : Nat) :
    Keeps (fun _ => True) a (a.free slots dpRank) := by
  cases a with
  | token a =>
    exact .of_freeList rfl fun rank _ => length_freeList_free_token a slots dpRank rank
  | paged a =>
    apply Keeps.of_freeList
    · exact (a.sameSettings_free dpRank slots).pageSize
    · intro rank _
      exact length_freeList_free_paged a slots dpRank rank

theorem keeps_reserve (a : PagedAllocator) (pages dpRank : Nat) :
    Keeps (fun _ => True) (.paged a) (.paged (a.reserve pages dpRank)) := by
  apply Keeps.of_freeList
  · exact (a.sameSettings_reserve dpRank pages).pageSize
  · intro rank _
    exact (a.freeList_reserve dpRank pages rank).length_eq.ge

theorem keeps_dropFree (a : PagedAllocator) (pages dpRank : Nat) :
    Keeps (· ≠ dpRank) (.paged a) (.paged (a.dropFree pages dpRank)) := by
  apply Keeps.of_freeList
  · rfl
  · intro rank hrank
    exact (congrArg List.length (a.freeList_dropFree_of_ne dpRank pages hrank)).ge

theorem keeps_take (a : PagedAllocator) (reserved dropped dpRank : Nat) :
    Keeps (· ≠ dpRank) (.paged a)
      (.paged ((a.reserve reserved dpRank).dropFree dropped dpRank)) :=
  ((keeps_reserve a reserved dpRank).mono fun _ _ => trivial).trans (keeps_dropFree _ _ _)

/-! ### Allocations -/

/-- What an allocation of one rank does to the others, and when it finds nothing. -/
structure Served (dpRank need : Nat) (a b : PoolAllocator) (out : Option (List Nat)) : Prop where
  keeps : Keeps (· ≠ dpRank) a b
  none : out = none → a.availableSize dpRank < need

theorem served_alloc {needSize dpRank : Nat} {out : Option (List Nat)}
    (heq : a.alloc needSize dpRank = .ok (b, out)) : Served dpRank needSize a b out := by
  cases a with
  | token a =>
    unfold alloc TokenAllocator.alloc at heq
    dsimp only at heq
    split at heq
    · rename_i hshort
      cases heq
      exact ⟨.refl _ _, fun _ => hshort⟩
    · cases heq
      refine ⟨.of_freeList rfl fun rank hrank => ?_, fun h => by cases h⟩
      simp [freeList, Function.update_of_ne hrank]
  | paged a =>
    unfold alloc PagedAllocator.alloc at heq
    dsimp only at heq
    split at heq
    · cases heq
    · rename_i hwhole
      have hmod : needSize % a.pageSize = 0 := not_ne_iff.mp hwhole
      split at heq
      · rename_i hshort
        cases heq
        refine ⟨(keeps_reserve a _ dpRank).mono fun _ _ => trivial, fun _ => ?_⟩
        have hfew := mt (a.reserve_room dpRank _).mpr (not_le.mpr hshort)
        have hneed := Nat.div_add_mod needSize a.pageSize
        have hlt : (a.freeList dpRank).length < needSize / a.pageSize := not_le.mp hfew
        have hpos : 0 < a.pageSize := by
          rcases Nat.eq_zero_or_pos a.pageSize with h | h
          · rw [h, Nat.div_zero] at hlt
            omega
          · exact h
        rw [availableSize_eq]
        change (a.freeList dpRank).length * a.pageSize < needSize
        calc (a.freeList dpRank).length * a.pageSize
            < needSize / a.pageSize * a.pageSize := Nat.mul_lt_mul_of_pos_right hlt hpos
          _ ≤ needSize := Nat.div_mul_le_self _ _
      · cases heq
        exact ⟨keeps_take a _ _ dpRank, fun h => by cases h⟩

theorem served_allocDecode {batch : List DecodeSeq} {dpRank : Nat} {out : Option (List Nat)}
    (hpage : 0 < a.pageSize) (heq : a.allocDecode batch dpRank = .ok (b, out)) :
    Served dpRank (PagedAllocator.newDecodePages a.pageSize batch * a.pageSize) a b out := by
  cases a with
  | token a => cases heq
  | paged a =>
    change 0 < a.pageSize at hpage
    unfold allocDecode PagedAllocator.allocDecode at heq
    dsimp only at heq
    split at heq
    · rename_i hshort
      cases heq
      refine ⟨(keeps_reserve a _ dpRank).mono fun _ _ => trivial, fun _ => ?_⟩
      have hfew := mt (a.reserve_room dpRank _).mpr (not_le.mpr hshort)
      rw [availableSize_eq]
      exact Nat.mul_lt_mul_of_pos_right (not_le.mp hfew) hpage
    · cases himpl : allocDecodeImpl (a.reserve _ dpRank).pageSize _ batch 0 with
      | error e =>
        rw [himpl] at heq
        cases heq
      | ok result =>
        rw [himpl] at heq
        cases heq
        exact ⟨keeps_take a _ _ dpRank, fun h => by cases h⟩

theorem served_allocExtend {batch : List ExtendSeq} {dpRank : Nat} {out : Option (List Nat)}
    (hpage : 0 < a.pageSize)
    (heq : a.allocExtend batch (batch.map ExtendSeq.extendLen).sum dpRank = .ok (b, out)) :
    Served dpRank (PagedAllocator.newPages a.pageSize batch * a.pageSize) a b out := by
  cases a with
  | token a => cases heq
  | paged a =>
    change 0 < a.pageSize at hpage
    unfold allocExtend at heq
    dsimp only at heq
    rcases a.allocExtend_cases dpRank hpage batch with ⟨hfew, hcase⟩ | ⟨-, -, hcase⟩
    · rw [hcase] at heq
      cases heq
      refine ⟨(keeps_reserve a _ dpRank).mono fun _ _ => trivial, fun _ => ?_⟩
      rw [availableSize_eq]
      exact Nat.mul_lt_mul_of_pos_right hfew hpage
    · rw [hcase] at heq
      cases heq
      exact ⟨keeps_take a _ _ dpRank, fun h => by cases h⟩

end PoolAllocator

/-! ### One pool or two -/

inductive KvAllocator where
  | pool (a : PoolAllocator)
  | swa (s : SwaAllocator)

namespace KvAllocator

/-- The pools an allocation takes slots from. -/
def pools : KvAllocator → List PoolAllocator
  | .pool a => [a]
  | .swa s => [s.full, s.swa]

def pageSize : KvAllocator → Nat
  | .pool a => a.pageSize
  | .swa s => s.full.pageSize

def alloc : KvAllocator → Nat → Nat → Except AllocError (KvAllocator × Option (List Nat))
  | .pool a, needSize, dpRank => (a.alloc needSize dpRank).map (Prod.map .pool id)
  | .swa s, needSize, dpRank => (s.alloc needSize dpRank).map (Prod.map .swa id)

def allocDecode : KvAllocator → List DecodeSeq → Nat →
    Except AllocError (KvAllocator × Option (List Nat))
  | .pool a, batch, dpRank => (a.allocDecode batch dpRank).map (Prod.map .pool id)
  | .swa s, batch, dpRank => (s.allocDecode batch dpRank).map (Prod.map .swa id)

/-- Every pool can hand out `n` slots of the rank. -/
def Room (a : KvAllocator) (rank n : Nat) : Prop := ∀ p ∈ a.pools, n ≤ p.availableSize rank

/-- What the constructors see to: pages are not empty, and both pools have pages
of one size. -/
structure WellFormed (a : KvAllocator) : Prop where
  page_pos : 0 < a.pageSize
  same_pages : ∀ p ∈ a.pools, p.pageSize = a.pageSize

def Keeps (on : Nat → Prop) (a b : KvAllocator) : Prop :=
  List.Forall₂ (PoolAllocator.Keeps on) a.pools b.pools

variable {on : Nat → Prop} {a b c : KvAllocator}

theorem Keeps.refl (on : Nat → Prop) (a : KvAllocator) : Keeps on a a :=
  List.forall₂_same.mpr fun p _ => .refl on p

theorem Keeps.trans (hab : Keeps on a b) (hbc : Keeps on b c) : Keeps on a c := by
  unfold Keeps at *
  generalize a.pools = as at *
  generalize b.pools = bs at *
  generalize c.pools = cs at *
  induction hab generalizing cs with
  | nil => exact hbc
  | cons hp _ ih =>
    cases hbc with
    | cons hq hrest => exact .cons (hp.trans hq) (ih _ hrest)

theorem Keeps.mono {on' : Nat → Prop} (h : Keeps on a b) (hsub : ∀ rank, on' rank → on rank) :
    Keeps on' a b :=
  List.Forall₂.imp (fun _ _ hp => hp.mono hsub) h

theorem Keeps.pageSize (h : Keeps on a b) : b.pageSize = a.pageSize := by
  cases a <;> cases b <;> cases h
  · rename_i hp hrest
    exact hp.pageSize
  · rename_i hp hrest
    cases hrest
  · rename_i hp hrest
    cases hrest
  · rename_i hp hrest
    exact hp.pageSize

theorem Keeps.room (h : Keeps on a b) {rank n : Nat} (hrank : on rank) (hroom : a.Room rank n) :
    b.Room rank n := by
  intro q hq
  obtain ⟨i, hi⟩ := List.getElem?_of_mem hq
  have hlt := (List.getElem?_eq_some_iff.mp hi).1
  have hp := List.forall₂_iff_get.mp h
  have hlt' : i < a.pools.length := hp.1 ▸ hlt
  have hkeep := hp.2 i hlt' hlt
  have hhas := hroom _ (List.get_mem a.pools ⟨i, hlt'⟩)
  have hqi := (List.getElem?_eq_some_iff.mp hi).2
  simp only [List.get_eq_getElem, hqi] at hkeep hhas
  exact hhas.trans (hkeep.room rank hrank)

theorem WellFormed.keeps (h : WellFormed a) (hkeep : Keeps on a b) : WellFormed b where
  page_pos := hkeep.pageSize ▸ h.page_pos
  same_pages := by
    intro q hq
    rw [hkeep.pageSize]
    obtain ⟨i, hi⟩ := List.getElem?_of_mem hq
    have hlt := (List.getElem?_eq_some_iff.mp hi).1
    have hp := List.forall₂_iff_get.mp hkeep
    have hlt' : i < a.pools.length := hp.1 ▸ hlt
    have hone := hp.2 i hlt' hlt
    have hqi := (List.getElem?_eq_some_iff.mp hi).2
    simp only [List.get_eq_getElem, hqi] at hone
    rw [hone.pageSize]
    exact h.same_pages _ (List.getElem_mem hlt')

/-! ### What a cache may do to it -/

/-- One call of `free`, `free_full` or `free_swa`. -/
inductive FreeStep : KvAllocator → KvAllocator → Prop where
  | free {a : PoolAllocator} (slots : List Nat) (dpRank : Nat) :
      FreeStep (.pool a) (.pool (a.free slots dpRank))
  | freeBoth {s s' : SwaAllocator} {slots : List Nat} {dpRank : Nat}
      (heq : s.free slots dpRank = .ok s') : FreeStep (.swa s) (.swa s')
  | freeFull {s : SwaAllocator} (slots : List Nat) (dpRank : Nat) :
      FreeStep (.swa s) (.swa (s.freeFull slots dpRank))
  | freeSwa {s : SwaAllocator} (slots : List Nat) (dpRank : Nat) :
      FreeStep (.swa s) (.swa (s.freeSwa slots dpRank))

/-- Any number of such calls. -/
def Frees : KvAllocator → KvAllocator → Prop := Relation.ReflTransGen FreeStep

theorem keeps_freeFull (s : SwaAllocator) (slots : List Nat) (dpRank : Nat) :
    Keeps (fun _ => True) (.swa s) (.swa (s.freeFull slots dpRank)) := by
  unfold SwaAllocator.freeFull
  split
  · exact .cons (s.full.keeps_free slots dpRank) (.cons (.refl _ _) .nil)
  · exact .refl _ _

theorem keeps_freeSwa (s : SwaAllocator) (slots : List Nat) (dpRank : Nat) :
    Keeps (fun _ => True) (.swa s) (.swa (s.freeSwa slots dpRank)) := by
  unfold SwaAllocator.freeSwa SwaAllocator.setMapping
  dsimp only
  split
  · exact .cons (.refl _ _) (.cons (s.swa.keeps_free _ dpRank) .nil)
  · exact .refl _ _

theorem FreeStep.keeps (h : FreeStep a b) : Keeps (fun _ => True) a b := by
  cases h with
  | free slots dpRank => exact .cons (PoolAllocator.keeps_free _ slots dpRank) .nil
  | freeFull slots dpRank => exact keeps_freeFull _ slots dpRank
  | freeSwa slots dpRank => exact keeps_freeSwa _ slots dpRank
  | @freeBoth s s' slots dpRank heq =>
    have hboth := (keeps_freeFull s slots dpRank).trans (keeps_freeSwa _ slots dpRank)
    unfold SwaAllocator.free at heq
    dsimp only at heq
    split at heq
    · cases heq
      exact .refl _ _
    · split at heq
      · cases heq
      · split at heq
        · cases heq
        · cases heq
          exact hboth

theorem Frees.refl (a : KvAllocator) : Frees a a := Relation.ReflTransGen.refl

theorem Frees.step (h : FreeStep a b) : Frees a b := Relation.ReflTransGen.single h

theorem Frees.trans (hab : Frees a b) (hbc : Frees b c) : Frees a c :=
  Relation.ReflTransGen.trans hab hbc

theorem Frees.keeps (h : Frees a b) : Keeps (fun _ => True) a b := by
  induction h with
  | refl => exact .refl _ _
  | tail _ hstep ih => exact ih.trans hstep.keeps

/-! ### Allocations -/

/-- The same as for one pool; either pool may be the one without room. -/
structure Served (dpRank need : Nat) (a b : KvAllocator) (out : Option (List Nat)) : Prop where
  keeps : Keeps (· ≠ dpRank) a b
  room : a.Room dpRank need → out.isSome

section Swa

variable {s : SwaAllocator} {full swa : PoolAllocator} {fullOut swaOut : Option (List Nat)}
  {dpRank need : Nat} (hfull : PoolAllocator.Served dpRank need s.full full fullOut)
  (hswa : PoolAllocator.Served dpRank need s.swa swa swaOut)

include hfull

/-- The FULL pool has nothing, and the window pool is not asked. -/
theorem served_noFull (hnone : fullOut = none) :
    Served dpRank need (.swa s) (.swa { s with full := full }) none where
  keeps := .cons hfull.keeps (.cons (.refl _ _) .nil)
  room h := by
    have hhas := h s.full (by simp [pools])
    have hshort := hfull.none hnone
    omega

include hswa

/-- The window pool has nothing, and the FULL slots go back. -/
theorem served_rollback (slots : List Nat) (hnone : swaOut = none) :
    Served dpRank need (.swa s) (.swa { s with full := full.free slots dpRank, swa := swa })
      none where
  keeps :=
    .cons (hfull.keeps.trans ((full.keeps_free slots dpRank).mono fun _ _ => trivial))
      (.cons hswa.keeps .nil)
  room h := by
    have hhas := h s.swa (by simp [pools])
    have hshort := hswa.none hnone
    omega

theorem served_both (fullIndices swaIndices : List Nat) :
    Served dpRank need (.swa s)
      (.swa ({ s with full := full, swa := swa }.setMapping dpRank fullIndices swaIndices))
      (some fullIndices) where
  keeps := .cons hfull.keeps (.cons hswa.keeps .nil)
  room _ := rfl

end Swa

theorem served_pool {p q : PoolAllocator} {need dpRank : Nat} {out : Option (List Nat)}
    (h : PoolAllocator.Served dpRank need p q out) : Served dpRank need (.pool p) (.pool q) out where
  keeps := .cons h.keeps .nil
  room hroom := by
    by_contra hout
    have hhas := hroom p (by simp [pools])
    have hshort := h.none (by simpa using hout)
    omega

theorem served_allocSwa {s s' : SwaAllocator} {needSize dpRank : Nat} {out : Option (List Nat)}
    (heq : s.alloc needSize dpRank = .ok (s', out)) :
    Served dpRank needSize (.swa s) (.swa s') out := by
  unfold SwaAllocator.alloc at heq
  split at heq
  · rename_i hshort
    cases heq
    exact ⟨.refl _ _, fun h => absurd (h s.full (by simp [pools])) (by omega)⟩
  · split at heq
    · rename_i hshort
      cases heq
      exact ⟨.refl _ _, fun h => absurd (h s.swa (by simp [pools])) (by omega)⟩
    · cases hf : s.full.alloc needSize dpRank with
      | error e =>
        rw [hf] at heq
        cases heq
      | ok f =>
        rw [hf] at heq
        cases hw : s.swa.alloc needSize dpRank with
        | error e =>
          rw [hw] at heq
          cases heq
        | ok w =>
          rw [hw] at heq
          obtain ⟨full, fullOut⟩ := f
          obtain ⟨swa, swaOut⟩ := w
          have hfull := PoolAllocator.served_alloc hf
          have hswa := PoolAllocator.served_alloc hw
          cases fullOut <;> cases swaOut <;> cases heq
          · exact served_rollback hfull hswa _ rfl
          · exact served_both hfull hswa _ _

theorem served_alloc {needSize dpRank : Nat} {out : Option (List Nat)}
    (heq : a.alloc needSize dpRank = .ok (b, out)) : Served dpRank needSize a b out := by
  cases a with
  | pool p =>
    obtain ⟨result, hp, hres⟩ := map_eq_ok.mp heq
    cases hres
    exact served_pool (PoolAllocator.served_alloc hp)
  | swa s =>
    obtain ⟨result, hs, hres⟩ := map_eq_ok.mp heq
    cases hres
    exact served_allocSwa hs

/-- The window pool is asked for the same lengths, so for as many pages. -/
theorem newDecodePages_relocated (pageSize : Nat) (batch : List DecodeSeq) (loc : Int → Int) :
    PagedAllocator.newDecodePages pageSize
      (batch.map fun seq => { seq with lastLoc := loc seq.lastLoc }) =
      PagedAllocator.newDecodePages pageSize batch := by
  unfold PagedAllocator.newDecodePages
  rw [List.countP_map]
  rfl

theorem served_allocDecodeSwa {s s' : SwaAllocator} {batch : List DecodeSeq} {dpRank : Nat}
    {out : Option (List Nat)} (hwf : WellFormed (.swa s))
    (heq : s.allocDecode batch dpRank = .ok (s', out)) :
    Served dpRank (PagedAllocator.newDecodePages s.full.pageSize batch * s.full.pageSize)
      (.swa s) (.swa s') out := by
  have hpage : s.swa.pageSize = s.full.pageSize := hwf.same_pages s.swa (by simp [pools])
  have hpos : 0 < s.full.pageSize := hwf.page_pos
  unfold SwaAllocator.allocDecode at heq
  cases hf : s.full.allocDecode batch dpRank with
  | error e =>
    rw [hf] at heq
    cases heq
  | ok f =>
    rw [hf] at heq
    obtain ⟨full, fullOut⟩ := f
    have hfull := PoolAllocator.served_allocDecode hpos hf
    cases fullOut with
    | none =>
      cases heq
      exact served_noFull hfull rfl
    | some fullIndices =>
      simp only [bind, Except.bind] at heq
      cases hw : s.swa.allocDecode (batch.map fun seq =>
          { seq with lastLoc := s.mapAt dpRank seq.lastLoc }) dpRank with
      | error e =>
        rw [hw] at heq
        cases heq
      | ok w =>
        rw [hw] at heq
        obtain ⟨swa, swaOut⟩ := w
        have hswa := PoolAllocator.served_allocDecode (hpage ▸ hpos) hw
        rw [newDecodePages_relocated _ _ fun loc => (s.mapAt dpRank loc : Int), hpage] at hswa
        cases swaOut <;> cases heq
        · exact served_rollback hfull hswa _ rfl
        · exact served_both hfull hswa _ _

theorem served_allocDecode {batch : List DecodeSeq} {dpRank : Nat} {out : Option (List Nat)}
    (hwf : WellFormed a) (heq : a.allocDecode batch dpRank = .ok (b, out)) :
    Served dpRank (PagedAllocator.newDecodePages a.pageSize batch * a.pageSize) a b out := by
  cases a with
  | pool p =>
    obtain ⟨result, hp, hres⟩ := map_eq_ok.mp heq
    cases hres
    exact served_pool (PoolAllocator.served_allocDecode hwf.page_pos hp)
  | swa s =>
    obtain ⟨result, hs, hres⟩ := map_eq_ok.mp heq
    cases hres
    exact served_allocDecodeSwa hwf hs

end KvAllocator
end SglJax.MemCache
