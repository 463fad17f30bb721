import SglJax.MemCache.KvAllocator

/-! An allocation that there is room for succeeds, and takes just its own size from the
room of its rank. -/
namespace SglJax.MemCache

theorem PagedAllocator.alloc_of_room (a : PagedAllocator) {need rank : Nat}
    (hwhole : need % a.pageSize = 0) (hpos : 0 < a.pageSize) (hroom : need ≤ a.availableSize rank) :
    ∃ b out, a.alloc need rank = .ok (b, some out) ∧ b.pageSize = a.pageSize ∧
      b.availableSize rank + need = a.availableSize rank := by
  have hneed : need / a.pageSize * a.pageSize = need := Nat.div_mul_cancel
    (Nat.dvd_of_mod_eq_zero hwhole)
  have hlist : ∀ c : PagedAllocator, c.availableSize rank = (c.freeList rank).length * c.pageSize := by
    intro c
    unfold availableSize freeList
    rw [List.length_append]
  have hpages : need / a.pageSize ≤ (a.freeList rank).length := by
    rw [hlist, ← hneed] at hroom
    exact Nat.le_of_mul_le_mul_right hroom hpos
  have hfirst := (a.reserve_room rank (need / a.pageSize)).mpr hpages
  have hsize := (a.sameSettings_reserve rank (need / a.pageSize)).pageSize
  have hperm := (a.freeList_reserve rank (need / a.pageSize) rank).length_eq
  unfold alloc
  rw [if_neg (not_not.mpr hwhole)]
  dsimp only
  rw [if_neg (Nat.not_lt.mpr hfirst)]
  refine ⟨_, _, rfl, hsize, ?_⟩
  have hdrop := congrArg List.length ((a.reserve (need / a.pageSize) rank).freeList_dropFree rank
    (need / a.pageSize))
  rw [List.length_append, List.length_take, Nat.min_eq_left hfirst, hperm] at hdrop
  have hdropSize : ((a.reserve (need / a.pageSize) rank).dropFree (need / a.pageSize)
      rank).pageSize = a.pageSize := hsize
  rw [hlist, hlist, hdrop, hdropSize, Nat.add_mul, hneed, Nat.add_comm]

theorem PoolAllocator.alloc_of_room (a : PoolAllocator) {need rank : Nat}
    (hwhole : need % a.pageSize = 0) (hpos : 0 < a.pageSize) (hroom : need ≤ a.availableSize rank) :
    ∃ b out, a.alloc need rank = .ok (b, some out) ∧
      b.availableSize rank + need = a.availableSize rank := by
  cases a with
  | token a =>
    have hle : need ≤ (a.freeSlots rank).length := hroom
    let left := Function.update a.freeSlots rank ((a.freeSlots rank).drop need)
    refine ⟨.token { a with freeSlots := left }, (a.freeSlots rank).take need, ?_, ?_⟩
    · unfold alloc TokenAllocator.alloc
      dsimp only
      rw [if_neg (Nat.not_lt.mpr hle)]
      rfl
    · show (Function.update a.freeSlots rank ((a.freeSlots rank).drop need) rank).length + need =
        (a.freeSlots rank).length
      rw [Function.update_self, List.length_drop]
      omega
  | paged a =>
    obtain ⟨b, out, heq, _, hleft⟩ := a.alloc_of_room hwhole hpos hroom
    refine ⟨.paged b, out, ?_, hleft⟩
    show (a.alloc need rank).map _ = _
    rw [heq]
    rfl

namespace KvAllocator

/-- What an allocation that is served leaves. -/
structure Took (rank need : Nat) (a b : KvAllocator) : Prop where
  others : Keeps (· ≠ rank) a b
  room : ∀ n, a.Room rank (need + n) → b.Room rank n

theorem alloc_of_room {a : KvAllocator} (hwf : a.WellFormed) {need rank : Nat}
    (hwhole : need % a.pageSize = 0) (hroom : a.Room rank need) :
    ∃ b out, a.alloc need rank = .ok (b, some out) ∧ Took rank need a b := by
  cases a with
  | pool p =>
    obtain ⟨q, out, heq, hleft⟩ := p.alloc_of_room hwhole hwf.page_pos
      (hroom p (by simp [pools]))
    have halloc : (KvAllocator.pool p).alloc need rank = .ok (.pool q, some out) := by
      show (p.alloc need rank).map _ = _
      rw [heq]
      rfl
    refine ⟨_, _, halloc, (served_alloc halloc).keeps, fun n h r hr => ?_⟩
    obtain rfl : r = q := List.mem_singleton.mp hr
    have := h p (by simp [pools])
    omega
  | swa s =>
    have hpage : s.swa.pageSize = s.full.pageSize := hwf.same_pages s.swa (by simp [pools])
    have hpos : 0 < s.full.pageSize := hwf.page_pos
    have hfullRoom := hroom s.full (by simp [pools])
    have hswaRoom := hroom s.swa (by simp [pools])
    obtain ⟨full, fullOut, hfull, hfullLeft⟩ := s.full.alloc_of_room hwhole hpos hfullRoom
    obtain ⟨swa, swaOut, hswa, hswaLeft⟩ :=
      s.swa.alloc_of_room (hpage ▸ hwhole) (hpage ▸ hpos) hswaRoom
    have halloc : (KvAllocator.swa s).alloc need rank =
        .ok (.swa ({ s with full := full, swa := swa }.setMapping rank fullOut swaOut),
          some fullOut) := by
      show (s.alloc need rank).map _ = _
      unfold SwaAllocator.alloc
      rw [if_neg (Nat.not_lt.mpr hfullRoom), if_neg (Nat.not_lt.mpr hswaRoom), hfull]
      simp only [bind, Except.bind]
      rw [hswa]
      rfl
    refine ⟨_, _, halloc, (served_alloc halloc).keeps, fun n h r hr => ?_⟩
    have hfullMore := h s.full (by simp [pools])
    have hswaMore := h s.swa (by simp [pools])
    rcases List.mem_cons.mp hr with hr | hr
    · have hsame : r = full := hr
      rw [hsame]
      omega
    · have hsame : r = swa := List.mem_singleton.mp hr
      rw [hsame]
      omega

/-- `available_size` -/
def availableSize : KvAllocator → Nat → Nat
  | .pool a, rank => a.availableSize rank
  | .swa s, rank => min (s.fullAvailableSize rank) (s.swaAvailableSize rank)

end KvAllocator

/-! ### Request slots -/

/-- What `ReqToTokenPool.alloc` looks at. -/
structure SlotReq where
  reqPoolIdx : Option Nat
  isChunked : Int
  kvCommittedLen : Nat
deriving DecidableEq, Repr

structure ReqToTokenPool where
  size : Nat
  freeSlots : List Nat
deriving DecidableEq, Repr

namespace ReqToTokenPool

def init (size : Nat) : ReqToTokenPool := ⟨size, List.range size⟩

/-- The slots of the requests: a chunked request keeps its own. -/
def assign : List SlotReq → List Nat → List Nat
  | [], _ => []
  | req :: rest, selectIndices =>
    match req.reqPoolIdx, selectIndices with
    | some idx, _ => idx :: assign rest selectIndices
    | none, idx :: later => idx :: assign rest later
    | none, [] => assign rest []

def alloc (pool : ReqToTokenPool) (reqs : List SlotReq) :
    Except AllocError (ReqToTokenPool × Option (List Nat)) :=
  let chunked := reqs.filter fun req => req.reqPoolIdx.isSome
  if chunked.length > 1 then .error .assertionError
  else if chunked.any fun req => req.isChunked ≤ 0 ∧ req.kvCommittedLen = 0 then
    .error .assertionError
  else
    let needSize := reqs.length - chunked.length
    if needSize > pool.freeSlots.length then .ok (pool, none)
    else
      .ok ({ pool with freeSlots := pool.freeSlots.drop needSize },
        some (assign reqs (pool.freeSlots.take needSize)))

def free (pool : ReqToTokenPool) (reqPoolIdx : Option Nat) : Except AllocError ReqToTokenPool :=
  match reqPoolIdx with
  | none => .error .assertionError
  | some idx => .ok { pool with freeSlots := pool.freeSlots ++ [idx] }

/-- A new request gets the first free slot. -/
theorem alloc_new (pool : ReqToTokenPool) (isChunked : Int) (kvCommittedLen : Nat) :
    pool.alloc [⟨none, isChunked, kvCommittedLen⟩] =
      match pool.freeSlots with
      | [] => .ok (pool, none)
      | idx :: rest => .ok ({ pool with freeSlots := rest }, some [idx]) := by
  unfold alloc
  cases hfree : pool.freeSlots with
  | nil => simp
  | cons idx rest => simp [assign]

end ReqToTokenPool
end SglJax.MemCache
