import Mathlib.Data.List.Sort
import Mathlib.Data.Finset.Card
import Mathlib.Logic.Function.Basic
import Mathlib.Tactic.Common

/-! `DeepseekV4TokenToKVPoolAllocator`: per DP rank a ledger of history pages and
an independent ledger of SWA pages. An allocation is planned with symbolic pages
first and committed as a whole; a release is validated page by page first. -/
namespace SglJax.MemCache.DeepseekV4

/-! Arrays as the callers hand them in. -/

/-- Kind and width of a dtype; everything that is no integer is `other`. -/
inductive Dtype where
  | signed (bits : Nat)
  | unsigned (bits : Nat)
  | other
deriving DecidableEq, Repr

/-- The common dtype of a concatenation. -/
def Dtype.promote : Dtype → Dtype → Dtype
  | signed a, signed b => signed (max a b)
  | unsigned a, unsigned b => unsigned (max a b)
  | signed a, unsigned b | unsigned b, signed a =>
    if b < a then signed a else if 2 * b ≤ 64 then signed (2 * b) else other
  | _, _ => other

structure NdArray where
  ndim : Nat
  dtype : Dtype
  /-- The entries as `int64`; for a dtype that is no integer only their number counts. -/
  values : List Int
deriving DecidableEq, Repr

namespace NdArray

/-- `np.asarray` of a list of Python integers. -/
def ofInts (values : List Int) : NdArray where
  ndim := 1
  dtype := if values = [] then .other else .signed 64
  values := values

/-- `v.ndim != 1 or (v.size and v.dtype.kind not in "iu")` -/
def malformed (a : NdArray) : Bool :=
  a.ndim ≠ 1 || (a.values ≠ [] && a.dtype = .other)

/-- `a - 1` -/
def pred (a : NdArray) : NdArray := { a with values := a.values.map (· - 1) }

end NdArray

inductive LedgerError where
  | valueError (message : String)
  | indexError
  | stopIteration
  | typeError
  /-- Raised inside numpy, with a text of its own. -/
  | numpyError
deriving DecidableEq, Repr

/-- `np.concatenate(g) if g else np.empty(0, np.int32)` -/
def concatenate : List NdArray → Except LedgerError NdArray
  | [] => .ok ⟨1, .signed 32, []⟩
  | a :: rest =>
    if (a :: rest).all (·.ndim = 1) then
      .ok ⟨1, (rest.map (·.dtype)).foldl Dtype.promote a.dtype, (a :: rest).flatMap (·.values)⟩
    else .error .numpyError

/-- The sizes a pool is made with. -/
structure Geometry where
  size : Nat
  sizeSwa : Nat
  pageSize : Nat
  dpSize : Nat
  pageSize_pos : 0 < pageSize

namespace Geometry

variable (g : Geometry)

def sizePerRank : Nat := g.size / g.dpSize

def pagesPerRank : Nat := g.sizePerRank / g.pageSize

def swaPagesPerRank : Nat := g.sizeSwa / g.dpSize / g.pageSize

/-- `len(self._mapping[dp_rank])` -/
def mappingLen : Nat := g.sizePerRank + g.pageSize

/-- `_rank`: the rank, or the error for one out of range. -/
def rank (dpRank : Int) : Except LedgerError (Fin g.dpSize) :=
  if h : 0 ≤ dpRank ∧ dpRank < g.dpSize then .ok ⟨dpRank.toNat, by omega⟩
  else .error (.valueError "invalid DP rank")

end Geometry

/-- What the allocator keeps of one rank; arrays are functions of the index. -/
structure RankLedger where
  freePages : List Nat
  swaFree : List Nat
  mapping : Nat → Nat
  ends : Nat → Nat
  swaPage : Nat → Nat
  swaLiveCount : Nat → Nat
  freeGroup : List NdArray

structure DeepseekV4AllocationDemand where
  historyPages : Nat
  swaPages : Nat
deriving DecidableEq, Repr

/-- Part of a page to allocate; a negative page is a new one, counted from -1 down. -/
structure Segment where
  page : Int
  offset : Nat
  count : Nat
deriving DecidableEq, Repr

structure PlanState where
  segments : List Segment
  newCount : Nat
  seenTail : List Int
deriving DecidableEq, Repr

section Rank

variable (g : Geometry)

/-- `while count:` over new pages; the fuel is the count, each round takes one
slot at least. -/
def freshSegments : Nat → Nat → PlanState → PlanState
  | 0, _, st => st
  | fuel + 1, count, st =>
    if count = 0 then st
    else
      let take := min count g.pageSize
      freshSegments fuel (count - take)
        { st with
          newCount := st.newCount + 1
          segments := st.segments ++ [⟨-(st.newCount + 1 : Nat), 0, take⟩] }

/-- One request of `_plan`. -/
def planRequest (led : RankLedger) (st : PlanState) (pre fin tail : Int) :
    Except LedgerError PlanState :=
  let p : Int := g.pageSize
  let count := (fin - pre).toNat
  if count = 0 then .ok st
  else if pre ≠ 0 then
    let page := tail / p
    let offset := tail % p
    if page ≤ 0 ∨ page > g.pagesPerRank ∨ offset ≠ (pre - 1) % p ∨
        (led.ends page.toNat : Int) ≠ offset + 1 ∨ page ∈ st.seenTail then
      .error (.valueError "last_loc must identify a distinct live request tail")
    else
      let st := { st with seenTail := page :: st.seenTail }
      if pre % p ≠ 0 then
        let take := min count (p - pre % p).toNat
        .ok (freshSegments g (count - take) (count - take)
          { st with segments := st.segments ++ [⟨page, (pre % p).toNat, take⟩] })
      else .ok (freshSegments g count count st)
  else if tail ≠ -1 ∧ tail ≠ 0 then
    .error (.valueError "empty prefix must use padding last_loc -1 or 0")
  else .ok (freshSegments g count count st)

def planRequests (led : RankLedger) : PlanState → List (Int × Int × Int) →
    Except LedgerError PlanState
  | st, [] => .ok st
  | st, (pre, fin, tail) :: rest =>
    match planRequest g led st pre fin tail with
    | .error e => .error e
    | .ok st => planRequests led st rest

/-- `page < 0 or self._swa_page[dp_rank][page] == 0` -/
def needsSwa (led : RankLedger) (seg : Segment) : Bool :=
  seg.page < 0 || led.swaPage seg.page.toNat = 0

/-- `_plan`, once the rank is known. -/
def plan (led : RankLedger) (prefixLens seqLens lastLoc : NdArray) (extendNumTokens : Int) :
    Except LedgerError (DeepseekV4AllocationDemand × List Segment) :=
  if prefixLens.malformed || seqLens.malformed || lastLoc.malformed then
    .error (.valueError "lengths/locations must be one-dimensional integer arrays")
  else
    let pre := prefixLens.values
    let seq := seqLens.values
    let last := lastLoc.values
    if pre.length ≠ seq.length ∨ seq.length ≠ last.length ∨ pre.any (· < 0) ∨
        (pre.zip seq).any fun ps => ps.2 < ps.1 then
      .error (.valueError "invalid extend lengths")
    else if ((pre.zip seq).map fun ps => ps.2 - ps.1).foldl (· + ·) 0 ≠ extendNumTokens then
      .error (.valueError "extend_num_tokens does not match lengths")
    else
      match planRequests g led ⟨[], 0, []⟩ (pre.zip (seq.zip last)) with
      | .error e => .error e
      | .ok st => .ok (⟨st.newCount, st.segments.countP (needsSwa led)⟩, st.segments)

def fullAvailableSize (led : RankLedger) : Nat := led.freePages.length * g.pageSize

def swaAvailableSize (led : RankLedger) : Nat := led.swaFree.length * g.pageSize

def canAllocate (led : RankLedger) (demand : DeepseekV4AllocationDemand) : Bool :=
  demand.historyPages * g.pageSize ≤ fullAvailableSize g led &&
    demand.swaPages * g.pageSize ≤ swaAvailableSize g led

/-- A segment with its pages: the slots `page * p + offset ..` get the SWA slots
`swa * p + offset ..`. -/
structure PageWrite where
  page : Nat
  swa : Nat
  offset : Nat
  count : Nat
deriving DecidableEq, Repr

/-- `page * self.page_size + np.arange(offset, offset + count)` -/
def PageWrite.locs (w : PageWrite) : List Nat :=
  List.range' (w.page * g.pageSize + w.offset) w.count

/-- The loop that gives every segment its pages; nothing is committed in it. -/
def placeSegments (led : RankLedger) (pages : List Nat) :
    List Nat → List Segment → Except LedgerError (List PageWrite)
  | _, [] => .ok []
  | swaPages, seg :: rest =>
    let page? := if seg.page < 0 then pages[(-seg.page - 1).toNat]? else some seg.page.toNat
    match page? with
    | none => .error .indexError
    | some page =>
      if led.swaPage page ≠ 0 then
        (placeSegments led pages swaPages rest).map
          (⟨page, led.swaPage page, seg.offset, seg.count⟩ :: ·)
      else
        match swaPages with
        | [] => .error .stopIteration
        | swa :: swaPages =>
          (placeSegments led pages swaPages rest).map (⟨page, swa, seg.offset, seg.count⟩ :: ·)

/-- One round of the commit loop. -/
def commitWrite (led : RankLedger) (w : PageWrite) : RankLedger :=
  { led with
    swaLiveCount := Function.update led.swaLiveCount w.page
      (if led.swaPage w.page = 0 then w.count else led.swaLiveCount w.page + w.count)
    ends := Function.update led.ends w.page (w.offset + w.count)
    swaPage := Function.update led.swaPage w.page w.swa
    mapping := fun loc =>
      if w.page * g.pageSize + w.offset ≤ loc ∧
          loc < w.page * g.pageSize + w.offset + w.count then
        w.swa * g.pageSize + (loc - w.page * g.pageSize)
      else led.mapping loc }

/-- How a call ends: with the slots of an allocation, with the `None` of one that
does not fit, with nothing to return, or with an exception. -/
inductive Outcome where
  | slots (locs : List Nat)
  | exhausted
  | finished
  | raised (e : LedgerError)
deriving DecidableEq, Repr

/-- `alloc_extend`, once the rank is known. -/
def rankAllocExtend (led : RankLedger) (prefixLens seqLens lastLoc : NdArray)
    (extendNumTokens : Int) : Outcome × RankLedger :=
  match plan g led prefixLens seqLens lastLoc extendNumTokens with
  | .error e => (.raised e, led)
  | .ok (demand, segments) =>
    if !canAllocate g led demand then (.exhausted, led)
    else
      match placeSegments led (led.freePages.take demand.historyPages)
          (led.swaFree.take demand.swaPages) segments with
      | .error e => (.raised e, led)
      | .ok writes =>
        let led := { led with
          freePages := led.freePages.drop demand.historyPages
          swaFree := led.swaFree.drop demand.swaPages }
        (.slots (writes.flatMap (·.locs g)), writes.foldl (commitWrite g) led)

/-- The values of an index array without repetitions, ascending. -/
def uniqueIndices (indices : NdArray) : List Nat :=
  ((indices.values.map (·.toNat)).dedup).insertionSort (· ≤ ·)

/-- The check of one touched page; the second coverage rule is that of `free_swa`. -/
def checkPage (led : RankLedger) (swaOnly : Bool) (unique : List Nat) (page : Nat) :
    Except LedgerError Unit :=
  if g.pagesPerRank < page then .error .indexError
  else
    let requested := unique.filter fun loc => loc / g.pageSize = page
    let expected := if swaOnly then led.swaLiveCount page else led.ends page
    let covered :=
      if swaOnly then requested.countP fun loc => led.mapping loc ≠ 0
      else requested.countP fun loc => loc < page * g.pageSize + expected
    if covered ≠ expected then .error (.valueError "partial page release would free live tokens")
    else .ok ()

def checkPages (led : RankLedger) (swaOnly : Bool) (unique : List Nat) :
    List Nat → Except LedgerError Unit
  | [] => .ok ()
  | page :: rest =>
    match checkPage g led swaOnly unique page with
    | .error e => .error e
    | .ok () => checkPages led swaOnly unique rest

/-- `_release_pages`, once the rank is known: the touched pages. -/
def releasePages (led : RankLedger) (indices : NdArray) (swaOnly : Bool) :
    Except LedgerError (List Nat) :=
  if indices.malformed then
    .error (.valueError "free indices must be a one-dimensional integer array")
  else if indices.values.any fun i => i < g.pageSize ∨ g.mappingLen ≤ i then
    .error (.valueError "cannot free padding or out-of-range locations")
  else
    let unique := uniqueIndices indices
    let pages := (unique.map (· / g.pageSize)).dedup
    match checkPages g led swaOnly unique pages with
    | .error e => .error e
    | .ok () => .ok pages

/-- `_free_swa_pages` -/
def freeSwaPages (led : RankLedger) (pages : List Nat) : RankLedger :=
  let mapped := pages.filter fun page => led.swaPage page ≠ 0
  { led with
    swaFree :=
      if mapped = [] then led.swaFree
      else (led.swaFree ++ mapped.map led.swaPage).insertionSort (· ≤ ·)
    mapping := fun loc => if loc / g.pageSize ∈ mapped then 0 else led.mapping loc
    swaPage := fun page => if page ∈ pages then 0 else led.swaPage page
    swaLiveCount := fun page => if page ∈ pages then 0 else led.swaLiveCount page }

/-- `_free_full_pages` -/
def freeFullPages (led : RankLedger) (pages : List Nat) : RankLedger :=
  let live := pages.filter fun page => led.ends page ≠ 0
  if live = [] then led
  else
    let led := freeSwaPages g led live
    { led with
      ends := fun page => if page ∈ live then 0 else led.ends page
      freePages := (led.freePages ++ live).insertionSort (· ≤ ·) }

/-- A rank as `clear` leaves it. -/
def clearedRank : RankLedger where
  freePages := List.range' 1 g.pagesPerRank
  swaFree := List.range' 1 g.swaPagesPerRank
  mapping := fun _ => 0
  ends := fun _ => 0
  swaPage := fun _ => 0
  swaLiveCount := fun _ => 0
  freeGroup := []

end Rank

/-- The whole allocator, and what `backup_state` copies of it. -/
structure Ledger (g : Geometry) where
  ranks : Fin g.dpSize → RankLedger
  isNotInFreeGroup : Bool

namespace Ledger

variable {g : Geometry}

def init (g : Geometry) : Ledger g where
  ranks := fun _ => clearedRank g
  isNotInFreeGroup := true

def setRank (s : Ledger g) (rank : Fin g.dpSize) (led : RankLedger) : Ledger g :=
  { s with ranks := Function.update s.ranks rank led }

def allocExtend (s : Ledger g) (prefixLens seqLens lastLoc : NdArray) (extendNumTokens : Int)
    (dpRank : Int) : Outcome × Ledger g :=
  match g.rank dpRank with
  | .error e => (.raised e, s)
  | .ok rank =>
    let after := rankAllocExtend g (s.ranks rank) prefixLens seqLens lastLoc extendNumTokens
    (after.1, s.setRank rank after.2)

/-- `len(seq_lens)` fails for an array without dimensions. -/
def allocDecode (s : Ledger g) (seqLens lastLoc : NdArray) (dpRank : Int) : Outcome × Ledger g :=
  if seqLens.ndim = 0 then (.raised .typeError, s)
  else s.allocExtend seqLens.pred seqLens lastLoc seqLens.values.length dpRank

def alloc (s : Ledger g) (needSize dpRank : Int) : Outcome × Ledger g :=
  if needSize < 0 ∨ needSize % g.pageSize ≠ 0 then
    (.raised (.valueError "alloc size must be nonnegative and page aligned"), s)
  else s.allocExtend (.ofInts [0]) (.ofInts [needSize]) (.ofInts [-1]) needSize dpRank

def freeSwa (s : Ledger g) (freeIndex : NdArray) (dpRank : Int) : Outcome × Ledger g :=
  match g.rank dpRank with
  | .error e => (.raised e, s)
  | .ok rank =>
    match releasePages g (s.ranks rank) freeIndex true with
    | .error e => (.raised e, s)
    | .ok pages => (.finished, s.setRank rank (freeSwaPages g (s.ranks rank) pages))

def free (s : Ledger g) (freeIndex : NdArray) (dpRank : Int) : Outcome × Ledger g :=
  match g.rank dpRank with
  | .error e => (.raised e, s)
  | .ok rank =>
    let led := s.ranks rank
    if !s.isNotInFreeGroup then
      (.finished, s.setRank rank { led with freeGroup := led.freeGroup ++ [freeIndex] })
    else
      match releasePages g led freeIndex false with
      | .error e => (.raised e, s)
      | .ok pages => (.finished, s.setRank rank (freeFullPages g led pages))

def clear (s : Ledger g) : Option Int → Outcome × Ledger g
  | none => (.finished, ⟨fun _ => clearedRank g, true⟩)
  | some dpRank =>
    match g.rank dpRank with
    | .error e => (.raised e, s)
    | .ok rank => (.finished, { s.setRank rank (clearedRank g) with isNotInFreeGroup := true })

def freeGroupBegin (s : Ledger g) : Outcome × Ledger g :=
  if !s.isNotInFreeGroup then (.raised (.valueError "nested free groups are unsupported"), s)
  else (.finished, { s with isNotInFreeGroup := false })

/-- The group of one rank, concatenated and validated. -/
def groupPages (s : Ledger g) (rank : Fin g.dpSize) : Except LedgerError (List Nat) :=
  match concatenate (s.ranks rank).freeGroup with
  | .error e => .error e
  | .ok indices => releasePages g (s.ranks rank) indices false

/-- The error of the first rank that has one. -/
def firstError {α : Type} (result : Fin g.dpSize → Except LedgerError α) : Option LedgerError :=
  (List.finRange g.dpSize).findSome? fun rank =>
    match result rank with
    | .error e => some e
    | .ok _ => none

/-- The groups of all ranks are concatenated, then validated, before a rank is
changed. -/
def freeGroupEnd (s : Ledger g) : Outcome × Ledger g :=
  match firstError fun rank => concatenate (s.ranks rank).freeGroup with
  | some e => (.raised e, s)
  | none =>
    match firstError s.groupPages with
    | some e => (.raised e, s)
    | none =>
      (.finished,
        { ranks := fun rank =>
            { freeFullPages g (s.ranks rank) ((s.groupPages rank).toOption.getD []) with
              freeGroup := [] }
          isNotInFreeGroup := true })

/-- `restore_state` takes everything from the saved state; the mapping arrays keep
their identity, not their contents. -/
def restoreState (_s saved : Ledger g) : Ledger g := saved

end Ledger

end SglJax.MemCache.DeepseekV4
