import SglJax.Foundation.PoolLedger
import SglJax.MemCache.PageLayout

/-! A paged allocator whose used pages belong to numbered holders on every rank. -/
namespace SglJax.MemCache

open Foundation (Ledger)

/-- `held rank i` are the pages that holder `i` has on a rank. -/
structure PageTier (pageSize pages holders : Nat) (a : PagedAllocator)
    (held : Nat → Nat → List Nat) : Prop where
  pageSize_pos : 0 < pageSize
  pageSize_eq : a.pageSize = pageSize
  notInGroup : a.isNotInFreeGroup = true
  ledger : ∀ rank, Ledger (List.range' 1 pages) (a.freeList rank) (held rank) holders

namespace PageTier

variable {pageSize pages holders : Nat} {a : PagedAllocator} {held : Nat → Nat → List Nat}
  {rank i : Nat}

/-- `held` with other pages for one holder on one rank. -/
def give (held : Nat → Nat → List Nat) (rank i : Nat) (xs : List Nat) : Nat → Nat → List Nat :=
  Function.update held rank (Function.update (held rank) i xs)

@[simp] theorem give_self (held : Nat → Nat → List Nat) (rank i : Nat) (xs : List Nat) :
    give held rank i xs rank i = xs := by
  simp [give]

@[simp] theorem give_rank {other : Nat} (h : other ≠ rank) (xs : List Nat) :
    give held rank i xs other = held other :=
  Function.update_of_ne h _ _

theorem give_holder {j : Nat} (h : j ≠ i) (other : Nat) (xs : List Nat) :
    give held rank i xs other j = held other j := by
  by_cases hrank : other = rank
  · subst hrank
    rw [give, Function.update_self, Function.update_of_ne h]
  · rw [give_rank hrank]

/-- A new pool has all its pages. -/
theorem init {dpSize : Nat} (hpage : 0 < pageSize) (hdp : 0 < dpSize)
    (hheld : ∀ rank i, held rank i = []) :
    PageTier pageSize pages holders (.init (pages * pageSize * dpSize) pageSize dpSize) held where
  pageSize_pos := hpage
  pageSize_eq := rfl
  notInGroup := rfl
  ledger := by
    intro rank
    have hcount : pages * pageSize * dpSize / pageSize / dpSize = pages := by
      rw [Nat.mul_right_comm, Nat.mul_div_cancel _ hpage, Nat.mul_div_cancel _ hdp]
    simp only [PagedAllocator.freeList, PagedAllocator.init, hcount, List.append_nil]
    exact .start (List.nodup_range' 1) fun i _ => hheld rank i

theorem congr {held' : Nat → Nat → List Nat} (h : PageTier pageSize pages holders a held)
    (hheld : ∀ rank, ∀ i < holders, held rank i = held' rank i) :
    PageTier pageSize pages holders a held' :=
  ⟨h.pageSize_pos, h.pageSize_eq, h.notInGroup, fun rank =>
    (h.ledger rank).congr (.refl _) (hheld rank)⟩

theorem availableSize_eq (h : PageTier pageSize pages holders a held) (rank : Nat) :
    a.availableSize rank = (a.freeList rank).length * pageSize := by
  rw [PagedAllocator.availableSize, PagedAllocator.freeList, List.length_append, h.pageSize_eq]

/-- Pages are handed out when there are enough of them. -/
theorem alloc (h : PageTier pageSize pages holders a held) (hi : i < holders) {n : Nat}
    (hroom : n ≤ (a.freeList rank).length) :
    ∃ b fresh, a.alloc (n * pageSize) rank = .ok (b, some (fresh.flatMap (pageSlots pageSize))) ∧
      fresh.length = n ∧
      PageTier pageSize pages holders b (give held rank i (held rank i ++ fresh)) ∧
      (b.freeList rank).length + n = (a.freeList rank).length ∧
      ∀ other, other ≠ rank → (b.freeList other).length = (a.freeList other).length := by
  have hpage := h.pageSize_pos
  have hreserve := (a.reserve_room rank n).mpr hroom
  obtain ⟨⟨hsame, -, hgroup⟩, hhere, helse⟩ := PoolAllocator.takes_dropFree a rank n n
  have hsize := (a.sameSettings_reserve rank n).pageSize
  refine ⟨(a.reserve n rank).dropFree n rank, ((a.reserve n rank).freePages rank).take n,
    ?_, ?_, ⟨hpage, hsame.trans h.pageSize_eq, hgroup.trans h.notInGroup, ?_⟩, ?_, ?_⟩
  · unfold PagedAllocator.alloc
    rw [h.pageSize_eq, if_neg (by rw [Nat.mul_mod_left]; simp), Nat.mul_div_cancel _ hpage]
    dsimp only
    rw [if_neg (by omega), hsize, h.pageSize_eq]
  · rw [List.length_take, Nat.min_eq_left hreserve]
  · intro other
    by_cases hrank : other = rank
    · subst hrank
      rw [give, Function.update_self]
      exact (h.ledger other).take hi hhere
    · rw [give_rank hrank]
      exact (h.ledger other).congr (helse other hrank) fun _ _ => rfl
  · have hlen := hhere.length_eq
    rw [List.length_append, List.length_take, Nat.min_eq_left hreserve] at hlen
    change _ = _ + (PagedAllocator.freeList _ rank).length at hlen
    change (PagedAllocator.freeList a rank).length = _ at hlen
    omega
  · intro other hrank
    exact (helse other hrank).length_eq.symm

/-- A holder gives its pages back as they were laid out. -/
theorem free (h : PageTier pageSize pages holders a held) (hi : i < holders) {slots : List Nat}
    (hlaid : Laid pageSize slots (held rank i)) :
    PageTier pageSize pages holders (a.free slots rank) (give held rank i []) := by
  have hsep (page : Nat) := (h.ledger rank).count_le hi page
  obtain ⟨⟨hsame, -, hgroup⟩, hhere, helse⟩ := PoolAllocator.takes_free (a := .paged a)
    (by rw [show (PoolAllocator.paged a).pageSize = pageSize from h.pageSize_eq]
        exact h.pageSize_pos) h.notInGroup
    (by rw [show (PoolAllocator.paged a).pageSize = pageSize from h.pageSize_eq]
        exact hlaid) hsep
  refine ⟨h.pageSize_pos, hsame.symm.trans h.pageSize_eq, hgroup.symm.trans h.notInGroup, ?_⟩
  intro other
  by_cases hrank : other = rank
  · subst hrank
    rw [give, Function.update_self]
    exact (h.ledger other).give hi hhere
  · rw [give_rank hrank]
    exact (h.ledger other).congr (helse other hrank).symm fun _ _ => rfl

end PageTier
end SglJax.MemCache
