import SglJax.Managers.DecodeCaches
import SglJax.Managers.PrefillServed

/-! The radix cache and the chunk cache as caches of a prefill batch, and what
admission promises with any such cache. -/
namespace SglJax.Managers

open Foundation MemCache

variable {ρ : Type}

section Radix

variable {tree : RadixCache} {p q : PoolAllocator} {held held' : List (Nat × Unit)} {node rank : Nat}

/-- The locks of the tree are the held ones, and no page is in two places. -/
def RadixSound (tree : RadixCache) (p : PoolAllocator) (held : List (Nat × Unit)) : Prop :=
  ∃ pool, Backed pool ⟨p, tree⟩ (held.map Prod.fst)

theorem RadixSound.evictableSize (h : RadixSound tree p held) (rank : Nat) :
    0 ≤ tree.evictableSize rank ∧ (p.pageSize : Int) ∣ tree.evictableSize rank := by
  obtain ⟨pool, backed⟩ := h
  obtain ⟨rest, ledger⟩ := backed.ledger
  have hpage : p.pageSize = tree.pageSize := ledger.page
  constructor
  · rw [backed.custody.sized rank]
    exact Int.natCast_nonneg _
  · rw [hpage]
    exact backed.custody.dvd_evictableSize rank

end Radix

/-- A chunk cache locks nothing, finds nothing and has nothing to evict. -/
def chunkAdmission (slidingWindowSize : Nat) : AdmissionCache (Nat → Nat) Unit Unit where
  disable _ := true
  hicacheEnabled := false
  recurrentTrackInterval := none
  slidingWindowSize := slidingWindowSize
  evictionIntervalMultiplier := 1
  evictableSize _ _ := 0
  fullEvictableSize _ _ := 0
  swaEvictableSize _ _ := 0
  incLockRef evicted _ := (evicted, ())
  decLockRef evicted _ _ := evicted
  initLoadBack evicted allocator lastHostNode _ _ := ⟨evicted, allocator, [], lastHostNode, []⟩
  locks _ := ()
  locks_release _ _ := rfl
  nothing_loaded _ _ _ _ _ _ _ := ⟨rfl, rfl⟩

/-- `ChunkCache` for the prefill batches; it has no nodes. -/
def chunkPrefillCache (slidingWindowSize pageSize : Nat) (reqOf : BatchReq ρ → ChunkReq) :
    PrefillCache (Nat → Nat) Unit Unit ρ where
  toTreeCache := chunkTreeCache slidingWindowSize pageSize reqOf
  admission := chunkAdmission slidingWindowSize
  matchPrefix evicted _ := .ok (evicted, RadixCache.emptyMatch)
  Sound _ p _ := 0 < p.pageSize
  HasNode _ _ _ := True
  page_pos h := h
  whole_pages _ _ := ⟨le_rfl, Int.dvd_zero _⟩
  sound_perm h _ := h
  sound_take h takes := takes.settings.pageSize.symm ▸ h
  match_sound h _ heq := by
    cases heq
    exact ⟨h, trivial, fun _ => rfl⟩
  lock_sound h _ := ⟨h, fun _ _ => trivial, fun _ _ => rfl⟩
  lock_again _ _ _ := rfl
  release_sound h := ⟨h, fun _ => le_rfl⟩
  release_lock _ _ _ := rfl
  load_sound hon := nomatch hon
  evict_sound _ _ _ hkind := absurd rfl hkind
  chunk_empty _ _ _ := rfl

end SglJax.Managers
