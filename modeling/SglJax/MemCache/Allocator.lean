import Mathlib

/-! The token and page allocators behind the KV pools. Every dp rank has its own
free lists over the same local indices; page 0 is never handed out. -/
namespace SglJax.MemCache

/-- What an allocator call can raise. -/
inductive AllocError where
  | assertionError
  | indexError
  | valueError
  | notImplemented
deriving DecidableEq, Repr

/-- `np.unique` -/
def npUnique (xs : List Nat) : List Nat := xs.dedup.insertionSort (· ≤ ·)

/-- `np.setdiff1d` -/
def npSetdiff (xs ys : List Nat) : List Nat := npUnique (xs.filter (· ∉ ys))

/-- One sequence of a batch to extend: how many of its tokens have a slot, how
many shall have one, and the slot of its last token, `-1` when it has none. -/
structure ExtendSeq where
  prefixLen : Nat
  seqLen : Nat
  lastLoc : Int
  le : prefixLen ≤ seqLen
deriving DecidableEq, Repr

def ExtendSeq.extendLen (seq : ExtendSeq) : Nat := seq.seqLen - seq.prefixLen

/-- One sequence of a decode batch: its length with the new token, and the slot
of the token before. -/
structure DecodeSeq where
  seqLen : Nat
  lastLoc : Int
  pos : 0 < seqLen
deriving DecidableEq, Repr

/-- `(n + page_size - 1) // page_size` -/
def pagesFor (pageSize n : Nat) : Nat := (n + pageSize - 1) / pageSize

structure TokenAllocator where
  sizePerRank : Nat
  freeSlots : Nat → List Nat
  freeGroup : Nat → List (List Nat)
  isNotInFreeGroup : Bool

namespace TokenAllocator

/-- A new `TokenToKVPoolAllocator`. -/
def init (size dpSize : Nat) : TokenAllocator where
  sizePerRank := size / dpSize
  freeSlots := fun _ => List.range' 1 (size / dpSize)
  freeGroup := fun _ => []
  isNotInFreeGroup := true

def alloc (a : TokenAllocator) (needSize dpRank : Nat) : TokenAllocator × Option (List Nat) :=
  let slots := a.freeSlots dpRank
  if needSize > slots.length then (a, none)
  else ({ a with freeSlots := Function.update a.freeSlots dpRank (slots.drop needSize) },
    some (slots.take needSize))

def free (a : TokenAllocator) (freeIndex : List Nat) (dpRank : Nat) : TokenAllocator :=
  if freeIndex = [] then a
  else if a.isNotInFreeGroup then
    { a with freeSlots := Function.update a.freeSlots dpRank (a.freeSlots dpRank ++ freeIndex) }
  else
    { a with freeGroup :=
        Function.update a.freeGroup dpRank (a.freeGroup dpRank ++ [freeIndex]) }

def availableSize (a : TokenAllocator) (dpRank : Nat) : Nat := (a.freeSlots dpRank).length

end TokenAllocator

structure PagedAllocator where
  pageSize : Nat
  sizePerRank : Nat
  pagesPerRank : Nat
  freePages : Nat → List Nat
  releasePages : Nat → List Nat
  freeGroup : Nat → List (List Nat)
  isNotInFreeGroup : Bool

/-- The first slots of a page. -/
def pageStart (pageSize page n : Nat) : List Nat :=
  (List.range n).map fun k => page * pageSize + k

def pageSlots (pageSize page : Nat) : List Nat := pageStart pageSize page pageSize

/-- Part 2 of `_alloc_extend_impl` for one sequence: whole new pages. -/
def takePages (pageSize : Nat) (allocated : List Nat) : Nat → Nat →
    Except AllocError (List Nat × Nat)
  | 0, pageIdx => .ok ([], pageIdx)
  | n + 1, pageIdx =>
    match allocated[pageIdx]? with
    | none => .error .indexError
    | some page => do
      let (out, pageIdx) ← takePages pageSize allocated n (pageIdx + 1)
      return (pageSlots pageSize page ++ out, pageIdx)

/-- Parts 2 and 3: whole new pages, then the start of one more page. -/
def takeNew (pageSize : Nat) (allocated : List Nat) (remainingTokens pageIdx : Nat) :
    Except AllocError (List Nat × Nat) := do
  let completePages := remainingTokens / pageSize
  let (part2, pageIdx) ← takePages pageSize allocated completePages pageIdx
  let remainingTokens := remainingTokens - completePages * pageSize
  if remainingTokens > 0 then
    match allocated[pageIdx]? with
    | none => .error .indexError
    | some page => return (part2 ++ pageStart pageSize page remainingTokens, pageIdx + 1)
  else return (part2, pageIdx)

namespace ExtendSeq

/-- How many tokens go to the rest of the sequence's last page. -/
def part1Size (pageSize : Nat) (seq : ExtendSeq) : Nat :=
  min seq.extendLen (pagesFor pageSize seq.prefixLen * pageSize - seq.prefixLen)

def part1 (pageSize : Nat) (seq : ExtendSeq) : List Nat :=
  (List.range (seq.part1Size pageSize)).map fun k : Nat => (seq.lastLoc + 1 + k).toNat

end ExtendSeq

/-- The body of the loop of `_alloc_extend_impl`: the rest of the sequence's
last page, then new pages. -/
def extendOne (pageSize : Nat) (allocated : List Nat) (seq : ExtendSeq) (pageIdx : Nat) :
    Except AllocError (List Nat × Nat) :=
  if seq.extendLen = 0 then .ok ([], pageIdx)
  else
    let remainingTokens := seq.extendLen - seq.part1Size pageSize
    if remainingTokens = 0 then .ok (seq.part1 pageSize, pageIdx)
    else do
      let (fresh, pageIdx) ← takeNew pageSize allocated remainingTokens pageIdx
      return (seq.part1 pageSize ++ fresh, pageIdx)

/-- The loop of `_alloc_extend_impl`. -/
def allocExtendLoop (pageSize : Nat) (allocated : List Nat) : List ExtendSeq → Nat →
    Except AllocError (List Nat × Nat)
  | [], pageIdx => .ok ([], pageIdx)
  | seq :: rest, pageIdx => do
    let (out, pageIdx) ← extendOne pageSize allocated seq pageIdx
    let (more, pageIdx) ← allocExtendLoop pageSize allocated rest pageIdx
    return (out ++ more, pageIdx)

/-- `_alloc_extend_impl`: the slots are written into a zeroed buffer of
`extend_num_tokens` entries. -/
def allocExtendImpl (pageSize : Nat) (allocated : List Nat) (batch : List ExtendSeq)
    (extendNumTokens : Nat) : Except AllocError (List Nat × Nat) := do
  let (out, pageIdx) ← allocExtendLoop pageSize allocated batch 0
  if out.length > extendNumTokens then .error .valueError
  else return (out ++ List.replicate (extendNumTokens - out.length) 0, pageIdx)

def needsNewPage (pageSize : Nat) (seq : DecodeSeq) : Bool :=
  pagesFor pageSize seq.seqLen > pagesFor pageSize (seq.seqLen - 1)

/-- `_alloc_decode_impl` -/
def allocDecodeImpl (pageSize : Nat) (allocated : List Nat) : List DecodeSeq → Nat →
    Except AllocError (List Nat × Nat)
  | [], pageIdx => .ok ([], pageIdx)
  | seq :: rest, pageIdx => do
    let (slot, pageIdx) ←
      if needsNewPage pageSize seq then
        match allocated[pageIdx]? with
        | none => .error .indexError
        | some page => .ok (page * pageSize, pageIdx + 1)
      else .ok ((seq.lastLoc + 1).toNat, pageIdx)
    let (more, pageIdx) ← allocDecodeImpl pageSize allocated rest pageIdx
    return (slot :: more, pageIdx)

namespace PagedAllocator

/-- A new `PagedTokenToKVPoolAllocator`. -/
def init (size pageSize dpSize : Nat) : PagedAllocator where
  pageSize := pageSize
  sizePerRank := size / dpSize
  pagesPerRank := size / pageSize / dpSize
  freePages := fun _ => List.range' 1 (size / pageSize / dpSize)
  releasePages := fun _ => []
  freeGroup := fun _ => []
  isNotInFreeGroup := true

def availableSize (a : PagedAllocator) (dpRank : Nat) : Nat :=
  ((a.freePages dpRank).length + (a.releasePages dpRank).length) * a.pageSize

def mergeAndSortFree (a : PagedAllocator) (dpRank : Nat) : PagedAllocator :=
  if (a.releasePages dpRank).length > 0 then
    { a with
      freePages := Function.update a.freePages dpRank
        ((a.freePages dpRank ++ a.releasePages dpRank).insertionSort (· ≤ ·))
      releasePages := Function.update a.releasePages dpRank [] }
  else a

/-- `merge_and_sort_free` is called only when the free list alone is too short. -/
def reserve (a : PagedAllocator) (pages dpRank : Nat) : PagedAllocator :=
  if pages > (a.freePages dpRank).length then a.mergeAndSortFree dpRank else a

def dropFree (a : PagedAllocator) (pages dpRank : Nat) : PagedAllocator :=
  { a with freePages := Function.update a.freePages dpRank ((a.freePages dpRank).drop pages) }

def alloc (a : PagedAllocator) (needSize dpRank : Nat) :
    Except AllocError (PagedAllocator × Option (List Nat)) :=
  if needSize % a.pageSize ≠ 0 then .error .assertionError
  else
    let numPages := needSize / a.pageSize
    let a := a.reserve numPages dpRank
    if numPages > (a.freePages dpRank).length then .ok (a, none)
    else
      let outPages := (a.freePages dpRank).take numPages
      .ok (a.dropFree numPages dpRank, some (outPages.flatMap (pageSlots a.pageSize)))

/-- The new pages an extend batch needs. -/
def newPages (pageSize : Nat) (batch : List ExtendSeq) : Nat :=
  (batch.map fun seq => pagesFor pageSize seq.seqLen - pagesFor pageSize seq.prefixLen).sum

def allocExtend (a : PagedAllocator) (batch : List ExtendSeq) (extendNumTokens dpRank : Nat) :
    Except AllocError (PagedAllocator × Option (List Nat)) :=
  let totalNewPages := newPages a.pageSize batch
  let a := a.reserve totalNewPages dpRank
  if totalNewPages > (a.freePages dpRank).length then .ok (a, none)
  else do
    let allocated := (a.freePages dpRank).take totalNewPages
    let (outIndices, pagesUsed) ← allocExtendImpl a.pageSize allocated batch extendNumTokens
    return (a.dropFree pagesUsed dpRank, some outIndices)

def newDecodePages (pageSize : Nat) (batch : List DecodeSeq) : Nat :=
  batch.countP (needsNewPage pageSize)

def allocDecode (a : PagedAllocator) (batch : List DecodeSeq) (dpRank : Nat) :
    Except AllocError (PagedAllocator × Option (List Nat)) :=
  let totalNewPages := newDecodePages a.pageSize batch
  let a := a.reserve totalNewPages dpRank
  if totalNewPages > (a.freePages dpRank).length then .ok (a, none)
  else do
    let allocated := (a.freePages dpRank).take totalNewPages
    let (outIndices, pagesUsed) ← allocDecodeImpl a.pageSize allocated batch 0
    return (a.dropFree pagesUsed dpRank, some outIndices)

/-- The pages of the given slots that are not in a list already. -/
def pagesToFree (a : PagedAllocator) (freeIndex : List Nat) (dpRank : Nat) : List Nat :=
  npSetdiff (npSetdiff (npUnique (freeIndex.map (· / a.pageSize))) (a.releasePages dpRank))
    (a.freePages dpRank)

def free (a : PagedAllocator) (freeIndex : List Nat) (dpRank : Nat) : PagedAllocator :=
  if freeIndex = [] then a
  else if a.isNotInFreeGroup then
    let pages := a.pagesToFree freeIndex dpRank
    if pages.length > 0 then
      { a with releasePages :=
          Function.update a.releasePages dpRank (pages ++ a.releasePages dpRank) }
    else a
  else
    { a with freeGroup :=
        Function.update a.freeGroup dpRank (a.freeGroup dpRank ++ [freeIndex]) }

end PagedAllocator

/-- The allocator of one pool: by token when the page size is one, else by
page. -/
inductive PoolAllocator where
  | token (a : TokenAllocator)
  | paged (a : PagedAllocator)

namespace PoolAllocator

def init (size pageSize dpSize : Nat) : PoolAllocator :=
  if pageSize = 1 then .token (.init size dpSize) else .paged (.init size pageSize dpSize)

def pageSize : PoolAllocator → Nat
  | .token _ => 1
  | .paged a => a.pageSize

def sizePerRank : PoolAllocator → Nat
  | .token a => a.sizePerRank
  | .paged a => a.sizePerRank

def availableSize : PoolAllocator → Nat → Nat
  | .token a, dpRank => a.availableSize dpRank
  | .paged a, dpRank => a.availableSize dpRank

def alloc : PoolAllocator → Nat → Nat → Except AllocError (PoolAllocator × Option (List Nat))
  | .token a, needSize, dpRank => .ok ((a.alloc needSize dpRank).map .token id)
  | .paged a, needSize, dpRank => (a.alloc needSize dpRank).map (Prod.map .paged id)

def allocExtend : PoolAllocator → List ExtendSeq → Nat → Nat →
    Except AllocError (PoolAllocator × Option (List Nat))
  | .token _, _, _, _ => .error .notImplemented
  | .paged a, batch, extendNumTokens, dpRank =>
    (a.allocExtend batch extendNumTokens dpRank).map (Prod.map .paged id)

def allocDecode : PoolAllocator → List DecodeSeq → Nat →
    Except AllocError (PoolAllocator × Option (List Nat))
  | .token _, _, _ => .error .notImplemented
  | .paged a, batch, dpRank => (a.allocDecode batch dpRank).map (Prod.map .paged id)

def free : PoolAllocator → List Nat → Nat → PoolAllocator
  | .token a, freeIndex, dpRank => .token (a.free freeIndex dpRank)
  | .paged a, freeIndex, dpRank => .paged (a.free freeIndex dpRank)

end PoolAllocator
end SglJax.MemCache
