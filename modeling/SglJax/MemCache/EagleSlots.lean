import SglJax.MemCache.UnifiedRelease

/-! When every slot of an EAGLE request has a place after its release, in both
prefix caches. -/
namespace SglJax.MemCache

open Foundation Foundation.NodeTable

/-- A request that nothing was found for owns its whole row. -/
theorem TreeOwned.fresh {α : Type} [Keyed α] {w : TreeNode α → List Nat} {pageSize : Nat}
    {req : KvReq} (row : PagedRow pageSize req.row) (ids : RadixCache.PlainIds req.key)
    (hzero : req.cacheProtectedLen = 0) (hroot : req.lastNode = rootId)
    (high : req.kvCommittedLen ≤ req.row.length) (key_le : req.kvCommittedLen ≤ req.key.length) :
    TreeOwned w pageSize [] req where
  row := row
  ids := ids
  low := by
    rw [hzero]
    exact Nat.zero_le _
  high := high
  key_le := key_le
  path := by
    refine ⟨[], by rw [hroot]; exact .root, by simp, ?_, ?_⟩
    · rw [hzero]
      rfl
    · rw [hzero]
      rfl
  own := by
    rintro slot - other ⟨n, hn, -⟩
    cases hn

/-- A released EAGLE request leaves no slot without a place exactly where pages of
one slot are all the tree's already, or longer pages begin where the last match
ended. `RadixCache` needs a committed slot past the tree's on top. -/
theorem eagle_release_accounted_iff (req : KvReq) (isInsert : Bool) :
    (∀ c : RadixCache, RadixCache.Valid c → c.isEagle = true →
      (c.disable = true → c.tree = []) →
      TreeOwned RadixCache.values c.pageSize c.tree req →
      ∃ d calls, c.releaseCalls req isInsert = .ok (d, calls) ∧
        (AllAccounted RadixCache.values c.pageSize c.tree d.tree calls req ↔
          c.disable = true ∨ c.pageSize = 1 ∧ req.cacheProtectedLen = req.kvCommittedLen ∨
            c.pageSize ≠ 1 ∧ req.cacheProtectedLen ≤ req.lastMatchedPrefixLen ∧
              (req.cacheProtectedLen < req.kvCommittedLen ∨ req.cacheProtectedLen = 0))) ∧
    (∀ (c : UnifiedCache) (cacheLens : List (Option Nat)),
      UnifiedCache.Valid c → c.isEagle = true → (c.disable = true → c.tree = []) →
      TreeOwned UnifiedCache.slots c.pageSize c.tree req →
      UnifiedCache.Locked c req.lastNode →
      ∃ d calls, c.releaseCalls req isInsert cacheLens = .ok (d, calls) ∧
        (AllAccounted UnifiedCache.slots c.pageSize c.tree d.tree calls req ↔
          c.disable = true ∨ c.pageSize = 1 ∧ req.cacheProtectedLen = req.kvCommittedLen ∨
            c.pageSize ≠ 1 ∧ req.cacheProtectedLen ≤ req.lastMatchedPrefixLen)) :=
  ⟨fun _ valid hEagle hclear h =>
      RadixCache.release_accounted_iff valid hEagle hclear h isInsert,
    fun _ cacheLens valid hEagle hclear h hlocked =>
      UnifiedCache.release_accounted_iff valid hEagle hclear h hlocked isInsert cacheLens⟩

/-- Three committed tokens in pages of this row, nothing of them in the tree. -/
def threeTokens (row : List Nat) : KvReq where
  key := ⟨[.id 1, .id 2, .id 3], none, none⟩
  row := row
  kvCommittedLen := 3
  cacheProtectedLen := 0
  lastMatchedPrefixLen := 0
  lastNode := rootId

/-- Two pages of two slots: the second one is given back whole. -/
theorem eagle_release_two_pages :
    (∃ d calls, (RadixCache.reset 2 false true).releaseCalls (threeTokens [2, 3, 4, 5]) true =
        .ok (d, calls) ∧
      (AllAccounted RadixCache.values 2 [] d.tree calls (threeTokens [2, 3, 4, 5]) ↔
        false = true ∨ (2 : Nat) = 1 ∧ 0 = 3 ∨ (2 : Nat) ≠ 1 ∧ 0 ≤ 0 ∧ (0 < 3 ∨ 0 = 0))) ∧
    (∃ d calls, (UnifiedCache.reset 2 false true).releaseCalls (threeTokens [2, 3, 4, 5]) true
        [none] = .ok (d, calls) ∧
      (AllAccounted UnifiedCache.slots 2 [] d.tree calls (threeTokens [2, 3, 4, 5]) ↔
        false = true ∨ (2 : Nat) = 1 ∧ 0 = 3 ∨ (2 : Nat) ≠ 1 ∧ 0 ≤ 0)) := by
  have row : PagedRow 2 (threeTokens [2, 3, 4, 5]).row :=
    ⟨by decide, ⟨by decide, by decide⟩, by decide, by decide⟩
  constructor
  · exact (eagle_release_accounted_iff _ true).1 (RadixCache.reset 2 false true)
      (.reset (by decide) false true) rfl (fun h => by cases h)
      (.fresh row (by decide) rfl rfl (by decide) (by decide))
  · exact (eagle_release_accounted_iff _ true).2 (UnifiedCache.reset 2 false true) [none]
      (.reset (by decide) false true) rfl (fun h => by cases h)
      (.fresh row (by decide) rfl rfl (by decide) (by decide)) ⟨[], .root, by simp⟩

/-- With pages of one slot the slot of the last token stays neither in the tree nor
freed, in both caches. -/
theorem eagle_release_loses_last_slot :
    (∃ d calls, (RadixCache.reset 1 false true).releaseCalls (threeTokens [1, 2, 3]) true =
        .ok (d, calls) ∧ d.tree.flatMap RadixCache.values = [1, 2] ∧
      freedTimes 1 0 3 calls = 0 ∧
      ¬ AllAccounted RadixCache.values 1 [] d.tree calls (threeTokens [1, 2, 3])) ∧
    (∃ d calls, (UnifiedCache.reset 1 false true).releaseCalls (threeTokens [1, 2, 3]) true
        [none] = .ok (d, calls) ∧ d.tree.flatMap UnifiedCache.slots = [1, 2] ∧
      freedTimes 1 0 3 calls = 0 ∧
      ¬ AllAccounted UnifiedCache.slots 1 [] d.tree calls (threeTokens [1, 2, 3])) := by
  -- A slot that the tree has not is freed once.
  have hlost {α : Type} [Keyed α] {w : TreeNode α → List Nat} {t : Tree α}
      {calls : List FreeCall} (hslots : t.flatMap w = [1, 2]) (hfreed : freedTimes 1 0 3 calls = 0) :
      ¬ AllAccounted w 1 [] t calls (threeTokens [1, 2, 3]) := by
    intro hall
    have hone := (hall 3 (by decide)).gone (by
      rintro ⟨n, hn, -, hslot⟩
      have := List.mem_flatMap.mpr ⟨n, hn, hslot⟩
      rw [hslots] at this
      simp at this)
    change freedTimes 1 0 3 calls = 1 at hone
    omega
  constructor
  · refine ⟨_, _, rfl, rfl, rfl, ?_⟩
    exact hlost rfl rfl
  · refine ⟨_, _, rfl, rfl, rfl, ?_⟩
    exact hlost rfl rfl

end SglJax.MemCache
