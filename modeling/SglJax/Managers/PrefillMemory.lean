import SglJax.Managers.DecodeMemory
import SglJax.Managers.PrefillAdder

/-! The memory a prefill batch takes: `prepare_for_extend` evicts and allocates
rank by rank for the requests that were admitted. The window eviction that follows
it is one of hybrid allocators and is left out. -/
namespace SglJax.MemCache

/-- `token_to_kv_pool_allocator.alloc_extend` -/
def KvAllocator.allocExtend : KvAllocator → List ExtendSeq → Nat → Nat →
    Except AllocError (KvAllocator × Option (List Nat))
  | .pool a, batch, extendNumTokens, dpRank =>
    (a.allocExtend batch extendNumTokens dpRank).map (Prod.map .pool id)
  | .swa s, batch, extendNumTokens, dpRank =>
    (s.allocExtend batch extendNumTokens dpRank).map (Prod.map .swa id)

end SglJax.MemCache

namespace SglJax.Managers

open MemCache

variable {τ R ρ : Type}

/-- The cache with the pools behind it, and the request slots that are free. -/
structure ExtendMem (τ ρ : Type) extends DecodeMem τ ρ where
  freeSlots : List Nat

/-- What `prepare_for_extend` sets for a rank. -/
structure ExtendInfo where
  reqPoolIndices : List Nat
  seqLens : List Nat
  prefixLens : List Nat
  extendLens : List Int
  seqLensSum : Nat
  extendNumTokens : Nat
  inputIds : List Nat
  outCacheLoc : List Nat
deriving DecidableEq, Repr

/-- The fields of a rank without requests. -/
def ExtendInfo.cleared : ExtendInfo := ⟨[], [], [], [], 0, 0, [], []⟩

/-- `len(fill_ids) - extend_input_len` -/
def WaitingReq.prefixLen (req : WaitingReq R) : Nat := req.fillIds.length - req.extendInputLen.toNat

/-- `req_to_token_pool.write((idx, slice(start, start + len(values))), values)` -/
def writeRow (table : ReqToToken) (idx start : Nat) (values : List Nat) : ReqToToken :=
  TreeCache.writeSlots table (List.replicate values.length idx)
    (List.range' start values.length) values

/-- The rows of the requests get their cached prefixes. -/
def writePrefixes (table : ReqToToken) (reqs : List (Nat × WaitingReq R)) : ReqToToken :=
  reqs.foldl (fun table (idx, req) =>
    writeRow table idx 0 (req.prefixIndices.take req.prefixLen)) table

/-- The rows get the new slots, each request its share in turn. -/
def writeExtends (table : ReqToToken) : List (Nat × WaitingReq R) → List Nat → ReqToToken
  | [], _ => table
  | (idx, req) :: reqs, outCacheLoc =>
    let extendLen := req.extendInputLen.toNat
    writeExtends (writeRow table idx req.prefixLen (outCacheLoc.take extendLen)) reqs
      (outCacheLoc.drop extendLen)

/-- `get_last_loc` -/
def getLastLoc (table : ReqToToken) (idx prefixLen : Nat) : Int :=
  if 0 < prefixLen then table idx ((prefixLen : Int) - 1) else -1

/-- The arguments of `alloc_extend`. -/
def extendSeqs (table : ReqToToken) (reqs : List (Nat × WaitingReq R)) : List ExtendSeq :=
  reqs.map fun (idx, req) =>
    ⟨req.prefixLen, req.fillIds.length, getLastLoc table idx req.prefixLen, Nat.sub_le _ _⟩

/-- `alloc_req_slots` for requests of the waiting queue, none of which has a slot. -/
def takeReqSlots (freeSlots : List Nat) (needSize : Nat) :
    Except DecodeError (List Nat × List Nat) :=
  if needSize > freeSlots.length then .error (.batch .reqSlotsOutOfMemory)
  else .ok (freeSlots.take needSize, freeSlots.drop needSize)

/-- `sum(extend_lens)` -/
def extendNumTokens (reqs : List (WaitingReq R)) : Nat :=
  (reqs.map WaitingReq.extendInputLen).sum.toNat

namespace TreeCache

variable (cache : TreeCache τ ρ)

/-- `alloc_paged_token_slots_extend` -/
def allocPagedTokenSlotsExtend (seqs : List ExtendSeq) (extendNumTokens dpRank : Nat)
    (m : DecodeMem τ ρ) : Except DecodeError (DecodeMem τ ρ × List Nat) := do
  let numTokens := extendNumTokens + seqs.length * m.allocator.pageSize
  let m ← cache.evictFromTreeCache numTokens dpRank m
  takeSlots m (m.allocator.allocExtend seqs extendNumTokens dpRank)

/-- The allocation of one rank of `prepare_for_extend`. -/
def allocExtendSlots (dpRank : Nat) (reqs : List (Nat × WaitingReq R)) (m : DecodeMem τ ρ) :
    Except DecodeError (DecodeMem τ ρ × List Nat) :=
  let numTokens := extendNumTokens (reqs.map Prod.snd)
  if m.allocator.pageSize = 1 then cache.allocTokenSlots numTokens dpRank m
  else cache.allocPagedTokenSlotsExtend (extendSeqs m.reqToToken reqs) numTokens dpRank m

/-- One rank of `prepare_for_extend`. -/
def extendRank (dpRank : Nat) (reqs : List (WaitingReq R)) (m : ExtendMem τ ρ) :
    Except DecodeError (ExtendInfo × ExtendMem τ ρ) :=
  if reqs.isEmpty then .ok (.cleared, m)
  else do
    let (reqPoolIndices, freeSlots) ← takeReqSlots m.freeSlots reqs.length
    let rows := reqPoolIndices.zip reqs
    let start := { m.toDecodeMem with reqToToken := writePrefixes m.reqToToken rows }
    let (mem, outCacheLoc) ← cache.allocExtendSlots dpRank rows start
    let info : ExtendInfo := {
      reqPoolIndices := reqPoolIndices
      seqLens := reqs.map (·.fillIds.length)
      prefixLens := reqs.map (·.prefixLen)
      extendLens := reqs.map (·.extendInputLen)
      seqLensSum := (reqs.map (·.fillIds.length)).sum
      extendNumTokens := extendNumTokens reqs
      inputIds := reqs.flatMap fun req => req.fillIds.drop req.prefixLen
      outCacheLoc := outCacheLoc }
    return (info, ⟨{ mem with
      reqToToken := writeExtends mem.reqToToken rows outCacheLoc }, freeSlots⟩)

def extendRanks : Nat → List (List (WaitingReq R)) → ExtendMem τ ρ →
    Except DecodeError (List ExtendInfo × ExtendMem τ ρ)
  | _, [], m => .ok ([], m)
  | dpRank, reqs :: ranks, m => do
    let (info, m) ← cache.extendRank dpRank reqs m
    let (infos, m) ← extendRanks (dpRank + 1) ranks m
    return (info :: infos, m)

/-- `prepare_for_extend` over the pools, for the requests of every rank. -/
def prepareForExtend (reqs : List (List (WaitingReq R))) (m : ExtendMem τ ρ) :
    Except DecodeError (List ExtendInfo × ExtendMem τ ρ) :=
  cache.extendRanks 0 reqs m

end TreeCache

/-! ### Caches that admission may trust -/

/-- What a rank can get: what is free and what the cache says it could evict. -/
def AdmissionCache.budget {Λ : Type} (admission : AdmissionCache τ R Λ) (tree : τ)
    (p : PoolAllocator) (rank : Nat) : Int :=
  p.availableSize rank + admission.evictableSize tree rank

/-- A load finds its slots and its nodes within the budgets, with the request's last
node locked. -/
structure LoadsWithin {Λ : Type} (admission : AdmissionCache τ R Λ)
    (Sound : τ → PoolAllocator → List (Nat × R) → Prop) (HasNode : τ → Nat → Nat → Prop)
    (tree : τ) (p : PoolAllocator) (held : List (Nat × R)) (node : Nat) (receipt : R)
    (rank hostHitLength : Nat) (out : LoadBack τ) (q : PoolAllocator) : Prop where
  allocator : out.allocator = .pool q
  pageSize : q.pageSize = p.pageSize
  sound : Sound out.tree q ((node, receipt) :: held)
  hasNode : HasNode out.tree node rank
  budget : ∀ r, admission.budget tree p r ≤ admission.budget out.tree q r
  found : out.newIndices ≠ [] → out.newIndices.length ≤ hostHitLength ∧
    HasNode out.tree out.lastNode rank ∧
    ∀ r, admission.budget out.tree q r ≤
      admission.budget (admission.incLockRef out.tree out.lastNode).1 q r +
        if r = rank then (out.newIndices.length : Int) else 0

/-- A tree cache as the scheduler uses it for prefill. `Sound` is what its calls
keep, with the locks that are held; `HasNode` says of which rank a node is. -/
structure PrefillCache (τ R Λ ρ : Type) extends TreeCache τ ρ where
  admission : AdmissionCache τ R Λ
  matchPrefix : τ → RadixKey → Except CacheError (τ × MatchResult)
  Sound : τ → PoolAllocator → List (Nat × R) → Prop
  HasNode : τ → Nat → Nat → Prop
  page_pos : ∀ {t p held}, Sound t p held → 0 < p.pageSize
  whole_pages : ∀ {t p held}, Sound t p held → ∀ rank,
    0 ≤ admission.evictableSize t rank ∧ (p.pageSize : Int) ∣ admission.evictableSize t rank
  sound_perm : ∀ {t p held held'}, Sound t p held → held.Perm held' → Sound t p held'
  sound_take : ∀ {t p held rank pages q}, Sound t p held → PoolAllocator.Takes p rank pages q →
    Sound t q held
  match_sound : ∀ {t t' p held key result}, Sound t p held → RadixCache.PlainIds key →
    matchPrefix t key = .ok (t', result) → Sound t' p held ∧
      HasNode t' result.lastDeviceNode key.rank ∧
      ∀ r, admission.evictableSize t' r = admission.evictableSize t r
  lock_sound : ∀ {t p held node rank}, Sound t p held → HasNode t node rank →
    Sound (admission.incLockRef t node).1 p ((node, (admission.incLockRef t node).2) :: held) ∧
      (∀ other, HasNode t other rank → HasNode (admission.incLockRef t node).1 other rank) ∧
      ∀ r, r ≠ rank →
        admission.evictableSize (admission.incLockRef t node).1 r = admission.evictableSize t r
  lock_again : ∀ {t p held node receipt}, Sound t p held → (node, receipt) ∈ held → ∀ r,
    admission.evictableSize (admission.incLockRef t node).1 r = admission.evictableSize t r
  release_sound : ∀ {t p held node receipt}, Sound t p ((node, receipt) :: held) →
    Sound (admission.decLockRef t node receipt) p held ∧
      ∀ r, admission.evictableSize t r ≤
        admission.evictableSize (admission.decLockRef t node receipt) r
  release_lock : ∀ {t p held node rank}, Sound t p held → HasNode t node rank → ∀ r,
    admission.evictableSize (admission.decLockRef (admission.incLockRef t node).1 node
      (admission.incLockRef t node).2) r = admission.evictableSize t r
  load_sound : ∀ {t p held node receipt rank hostNode},
    admission.hicacheEnabled = true → Sound t p ((node, receipt) :: held) →
    HasNode t node rank → HasNode t hostNode rank → ∀ hostHitLength memQuota,
    ∃ q, LoadsWithin admission Sound HasNode t p held node receipt rank hostHitLength
      (admission.initLoadBack t (.pool p) hostNode hostHitLength memQuota) q
  evict_sound : ∀ {t p held}, Sound t p held → ∀ numTokens rank, kind ≠ .chunk →
    ∃ t' q, evict t (.pool p) ⟨numTokens, 0, rank⟩ = .ok (t', .pool q) ∧
      q.pageSize = p.pageSize ∧ Sound t' q held ∧
      (∀ r, admission.budget t' q r = admission.budget t p r) ∧
      min (numTokens : Int) (admission.budget t p rank) ≤ q.availableSize rank
  chunk_empty : kind = .chunk → ∀ t rank, admission.evictableSize t rank = 0

/-- What `init_next_round_input` leaves of a request: the tokens past the cached
prefix are to be computed, and those on the host are among them. -/
structure WaitingReq.Fits (req : WaitingReq R) : Prop where
  extend : req.extendInputLen = (req.fillIds.length : Int) - req.prefixIndices.length
  host : req.prefixIndices.length + req.hostHitLength ≤ req.fillIds.length

/-- The states of the loop over the waiting queue, when no chunked request goes on.
A request's last node is one a lookup has found. -/
inductive AdmissionRun {Λ : Type} (cache : PrefillCache τ R Λ ρ) : PrefillAdder τ R → Prop where
  | start {a : PrefillAdder τ R} {p : PoolAllocator} {held : List (Nat × R)}
      (hallocator : a.allocator = .pool p) (hpage : a.pageSize = p.pageSize)
      (hsound : cache.Sound a.tree p held) (hnone : ∀ rank, a.canRunList rank = [])
      (htotal : ∀ rank, 0 ≤ a.remTotalTokenOffset rank)
      (hcur : ∀ rank, 0 ≤ a.curRemTokenOffset rank) : AdmissionRun cache a
  | lookup {a : PrefillAdder τ R} {key : RadixKey} {tree : τ} {result : MatchResult}
      (run : AdmissionRun cache a) (hids : RadixCache.PlainIds key)
      (heq : cache.matchPrefix a.tree key = .ok (tree, result)) :
      AdmissionRun cache { a with tree := tree }
  | addOneReq {a : PrefillAdder τ R} {req : WaitingReq R} (run : AdmissionRun cache a)
      (hfits : req.Fits) (hnode : cache.HasNode a.tree req.lastNode req.dpRank)
      (hhost : cache.HasNode a.tree req.lastHostNode req.dpRank) :
      AdmissionRun cache (PrefillAdder.addOneReq cache.admission a req).1

namespace PrefillAdder

/-- The sum of `ceil_page(extend_input_len)` over the admitted requests of a rank. -/
def tokensNeeded (a : PrefillAdder τ R) (rank : Nat) : Int :=
  ((a.canRunList rank).map fun req => ceilPagedTokens a.pageSize req.extendInputLen).sum

/-- The memory of the scheduler after the admissions. -/
def extendMem (a : PrefillAdder τ R) (table : ReqToToken) (freeSlots : List Nat) :
    ExtendMem τ ρ :=
  ⟨⟨a.tree, a.allocator, table, []⟩, freeSlots⟩

/-- The admitted requests, rank by rank. -/
def admitted (a : PrefillAdder τ R) : List (List (WaitingReq R)) :=
  (List.range a.dpSize).map a.canRunList

end PrefillAdder
end SglJax.Managers
