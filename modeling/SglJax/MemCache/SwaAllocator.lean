import SglJax.MemCache.AllocatorSpec

/-! `SWATokenToKVPoolAllocator`: a FULL pool and a sliding-window pool that are
allocated together, and the map from FULL slots to the window slots behind
them. A slot that is mapped to 0 has no window slot. -/
namespace SglJax.MemCache

structure SwaAllocator where
  full : PoolAllocator
  swa : PoolAllocator
  mappingSize : Nat
  fullToSwa : Nat → Nat → Nat
  isNotInFreeGroup : Bool
  freeGroupFull : Nat → List (List Nat)
  freeGroupSwa : Nat → List (List Nat)
  freeGroupFullSeen : Nat → List Nat
  freeGroupSwaSeen : Nat → List Nat

namespace SwaAllocator

/-- A new allocator over pools of the given sizes. -/
def init (size sizeSwa pageSize dpSize : Nat) : SwaAllocator where
  full := .init size pageSize dpSize
  swa := .init sizeSwa pageSize dpSize
  mappingSize := size / dpSize + pageSize
  fullToSwa := fun _ _ => 0
  isNotInFreeGroup := true
  freeGroupFull := fun _ => []
  freeGroupSwa := fun _ => []
  freeGroupFullSeen := fun _ => []
  freeGroupSwaSeen := fun _ => []

/-- `mapping[i]`; a negative index counts from the end. -/
def mapAt (s : SwaAllocator) (dpRank : Nat) (i : Int) : Nat :=
  s.fullToSwa dpRank (if i < 0 then (s.mappingSize + i).toNat else i.toNat)

/-- `mapping[indices] = values` -/
def setMapping (s : SwaAllocator) (dpRank : Nat) (indices values : List Nat) : SwaAllocator :=
  let mapping := (indices.zip values).foldl (fun m iv => Function.update m iv.1 iv.2)
    (s.fullToSwa dpRank)
  { s with fullToSwa := Function.update s.fullToSwa dpRank mapping }

def fullAvailableSize (s : SwaAllocator) (dpRank : Nat) : Nat := s.full.availableSize dpRank

def swaAvailableSize (s : SwaAllocator) (dpRank : Nat) : Nat := s.swa.availableSize dpRank

def alloc (s : SwaAllocator) (needSize dpRank : Nat) :
    Except AllocError (SwaAllocator × Option (List Nat)) :=
  if needSize > s.full.availableSize dpRank then .ok (s, none)
  else if needSize > s.swa.availableSize dpRank then .ok (s, none)
  else do
    let (full, fullIndices) ← s.full.alloc needSize dpRank
    let (swa, swaIndices) ← s.swa.alloc needSize dpRank
    match fullIndices, swaIndices with
    | some fullIndices, some swaIndices =>
      return ({ s with full := full, swa := swa }.setMapping dpRank fullIndices swaIndices,
        some fullIndices)
    | some fullIndices, none =>
      return ({ s with full := full.free fullIndices dpRank, swa := swa }, none)
    -- `None` cannot index the mapping.
    | none, some _ => .error .indexError
    | none, none => .error .valueError

def allocExtend (s : SwaAllocator) (batch : List ExtendSeq) (extendNumTokens dpRank : Nat) :
    Except AllocError (SwaAllocator × Option (List Nat)) := do
  let (full, fullIndices) ← s.full.allocExtend batch extendNumTokens dpRank
  match fullIndices with
  | none => return ({ s with full := full }, none)
  | some fullIndices =>
    let swaBatch := batch.map fun seq => { seq with lastLoc := s.mapAt dpRank seq.lastLoc }
    let (swa, swaIndices) ← s.swa.allocExtend swaBatch extendNumTokens dpRank
    match swaIndices with
    | none => return ({ s with full := full.free fullIndices dpRank, swa := swa }, none)
    | some swaIndices =>
      return ({ s with full := full, swa := swa }.setMapping dpRank fullIndices swaIndices,
        some fullIndices)

def allocDecode (s : SwaAllocator) (batch : List DecodeSeq) (dpRank : Nat) :
    Except AllocError (SwaAllocator × Option (List Nat)) := do
  let (full, fullIndices) ← s.full.allocDecode batch dpRank
  match fullIndices with
  | none => return ({ s with full := full }, none)
  | some fullIndices =>
    let swaBatch := batch.map fun seq => { seq with lastLoc := s.mapAt dpRank seq.lastLoc }
    let (swa, swaIndices) ← s.swa.allocDecode swaBatch dpRank
    match swaIndices with
    | none => return ({ s with full := full.free fullIndices dpRank, swa := swa }, none)
    | some swaIndices =>
      return ({ s with full := full, swa := swa }.setMapping dpRank fullIndices swaIndices,
        some fullIndices)

/-- `mapping[indices]` -/
def mapped (s : SwaAllocator) (dpRank : Nat) (indices : List Nat) : List Nat :=
  indices.map (s.fullToSwa dpRank)

def translateFullToSwa (s : SwaAllocator) (fullIndices : List Nat) (dpRank : Nat)
    (requireMapped : Bool) : Except AllocError (List Nat) :=
  if requireMapped && (s.mapped dpRank fullIndices).any (· == 0) then .error .valueError
  else .ok (s.mapped dpRank fullIndices)

/-- The indices `_queue_group_free` appends: those not seen before. -/
def unseen : List Nat → List Nat → List Nat
  | [], _ => []
  | i :: rest, seen => if i ∈ seen then unseen rest seen else i :: unseen rest (seen ++ [i])

def queueGroupFree (queues : Nat → List (List Nat)) (seen : Nat → List Nat)
    (indices : List Nat) (dpRank : Nat) : (Nat → List (List Nat)) × (Nat → List Nat) :=
  let fresh := unseen indices (seen dpRank)
  if fresh = [] then (queues, seen)
  else (Function.update queues dpRank (queues dpRank ++ [fresh]),
    Function.update seen dpRank (seen dpRank ++ fresh))

def freeFull (s : SwaAllocator) (fullIndices : List Nat) (dpRank : Nat) : SwaAllocator :=
  if s.isNotInFreeGroup then { s with full := s.full.free fullIndices dpRank }
  else
    let (queues, seen) :=
      queueGroupFree s.freeGroupFull s.freeGroupFullSeen fullIndices dpRank
    { s with freeGroupFull := queues, freeGroupFullSeen := seen }

def freeSwa (s : SwaAllocator) (freeIndex : List Nat) (dpRank : Nat) : SwaAllocator :=
  let swaIndices := (s.mapped dpRank freeIndex).filter (· > 0)
  let s := s.setMapping dpRank freeIndex (freeIndex.map fun _ => 0)
  if s.isNotInFreeGroup then { s with swa := s.swa.free swaIndices dpRank }
  else
    let (queues, seen) := queueGroupFree s.freeGroupSwa s.freeGroupSwaSeen swaIndices dpRank
    { s with freeGroupSwa := queues, freeGroupSwaSeen := seen }

def free (s : SwaAllocator) (freeIndex : List Nat) (dpRank : Nat) :
    Except AllocError SwaAllocator :=
  if freeIndex = [] then .ok s
  else
    let s := (s.freeFull freeIndex dpRank).freeSwa freeIndex dpRank
    if s.full.availableSize dpRank > s.full.sizePerRank then .error .assertionError
    else if s.swa.availableSize dpRank > s.swa.sizePerRank then .error .assertionError
    else .ok s

def transferSwaMapping (s : SwaAllocator) (source target : List Nat) (dpRank : Nat) :
    Except AllocError SwaAllocator :=
  if source.length ≠ target.length then .error .valueError
  else if (s.mapped dpRank source).any (· == 0) then .error .valueError
  else if (s.mapped dpRank target).any (· != 0) then .error .valueError
  else
    let sourceSwa := s.mapped dpRank source
    let s := s.setMapping dpRank target sourceSwa
    let s := s.setMapping dpRank source (source.map fun _ => 0)
    .ok (s.freeFull source dpRank)

def freeGroupBegin (s : SwaAllocator) : SwaAllocator := { s with isNotInFreeGroup := false }

def flushFull (s : SwaAllocator) (rank : Nat) : SwaAllocator :=
  if s.freeGroupFull rank ≠ [] then
    { s with full := s.full.free (s.freeGroupFull rank).flatten rank }
  else s

def flushSwa (s : SwaAllocator) (rank : Nat) : SwaAllocator :=
  if s.freeGroupSwa rank ≠ [] then
    { s with swa := s.swa.free (s.freeGroupSwa rank).flatten rank }
  else s

/-- One rank of `free_group_end`. -/
def flushRank (s : SwaAllocator) (rank : Nat) : SwaAllocator := (s.flushFull rank).flushSwa rank

def freeGroupEnd (s : SwaAllocator) (dpSize : Nat) : SwaAllocator :=
  let s := (List.range dpSize).foldl flushRank { s with isNotInFreeGroup := true }
  { s with
    freeGroupFull := fun _ => []
    freeGroupSwa := fun _ => []
    freeGroupFullSeen := fun _ => []
    freeGroupSwaSeen := fun _ => [] }

end SwaAllocator
end SglJax.MemCache
