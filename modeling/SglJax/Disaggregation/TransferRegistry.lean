import SglJax.Foundation.PyText
import Mathlib.Data.Rat.Defs
import Mathlib.Logic.Function.Basic

/-! The registry of transfer metadata that prefill and decode servers meet at. A room
holds one bundle per prefill process and rank, with a descriptor for each chunk. -/
namespace SglJax.Disaggregation

/-! ### Chunk ids -/

inductive ChunkIdError where
  | emptyBase
  | negativeIndex
  | invalid (transferId : String)
deriving DecidableEq, Repr

def chunkTransferId (baseTransferId : String) (chunkIndex : Int) : Except ChunkIdError String :=
  if baseTransferId = "" then .error .emptyBase
  else if chunkIndex < 0 then .error .negativeIndex
  else .ok (baseTransferId ++ "#c" ++ toString chunkIndex)

def parseChunkTransferId (transferId : String) : Except ChunkIdError (String × Int) :=
  match Text.rpartition "#c".toList transferId.toList with
  | none => .error (.invalid transferId)
  | some (base, rawIndex) =>
    if base = [] ∨ rawIndex = [] then .error (.invalid transferId)
    else
      match Text.toInt rawIndex with
      | none => .error (.invalid transferId)
      | some chunkIndex =>
        if chunkIndex < 0 then .error (.invalid transferId)
        else .ok (String.ofList base, chunkIndex)

/-! ### The registry -/

namespace TransferRegistry

/-- Room, process and rank. -/
abbrev Key := Int × Int × Int

/-- The payload of `register_transfer`. -/
structure TransferInfo (μ : Type) where
  bootstrapRoom : Int
  transferId : String
  baseTransferId : Option String
  jaxProcessIndex : Int
  prefillDpRank : Int
  chunkIndex : Int
  numChunks : Int
  chunkPageOffset : Int
  expectedTotalPages : Int
  transportMetadata : μ
deriving DecidableEq

structure Bundle (μ : Type) where
  baseTransferId : String
  chunks : Int → Option (TransferInfo μ)
  numChunks : Int
  expectedTotalPages : Int

structure Registry (μ : Type) where
  transferTtlSeconds : ℚ
  transfers : Key → Option (Bundle μ)
  transferLastSeen : Key → Option ℚ

/-- The `ValueError`s, in the order of the checks. -/
inductive RegisterError where
  | emptyTransferId
  | negativeChunkIndex
  | negativePageOffset
  | negativeNumChunks
  | negativeTotalPages
  | finalCount
  | chunkId (error : ChunkIdError)
  | idMismatch (baseTransferId : String) (chunkIndex : Int) (transferId : String)
  | unexpectedId (expected transferId : String)
  | replacesFromMiddle
  | createsFromMiddle
  | conflictingChunk (chunkIndex : Int)
  | outsideFinalized (chunkIndex knownTotal : Int)
  | conflictingCount (knownTotal numChunks : Int)
  | conflictingTotalPages (knownTotalPages expectedTotalPages : Int)
deriving DecidableEq, Repr

variable {μ : Type}

namespace TransferInfo

def key (info : TransferInfo μ) : Key :=
  (info.bootstrapRoom, info.jaxProcessIndex, info.prefillDpRank)

/-- `str(info.get("base_transfer_id") or transfer_id)` -/
def base (info : TransferInfo μ) : String :=
  match info.baseTransferId with
  | none => info.transferId
  | some base => if base = "" then info.transferId else base

/-- The id that the descriptor has to carry. -/
def expectedTransferId (info : TransferInfo μ) : Except RegisterError String :=
  if info.base = info.transferId then .ok info.base
  else
    match parseChunkTransferId info.transferId with
    | .error e => .error (.chunkId e)
    | .ok (parsedBase, parsedIndex) =>
      if parsedBase ≠ info.base ∨ parsedIndex ≠ info.chunkIndex then
        .error (.idMismatch info.base info.chunkIndex info.transferId)
      else (chunkTransferId info.base info.chunkIndex).mapError .chunkId

/-- The checks of the payload alone. -/
def check (info : TransferInfo μ) : Except RegisterError Unit :=
  if info.transferId = "" then .error .emptyTransferId
  else if info.chunkIndex < 0 then .error .negativeChunkIndex
  else if info.chunkPageOffset < 0 then .error .negativePageOffset
  else if info.numChunks < 0 then .error .negativeNumChunks
  else if info.expectedTotalPages < 0 then .error .negativeTotalPages
  else if info.numChunks ≠ 0 ∧ info.numChunks ≠ info.chunkIndex + 1 then .error .finalCount
  else
    match info.expectedTransferId with
    | .error e => .error e
    | .ok expected =>
      if info.transferId ≠ expected then .error (.unexpectedId expected info.transferId)
      else .ok ()

end TransferInfo

namespace Bundle

def new (info : TransferInfo μ) : Bundle μ where
  baseTransferId := info.base
  chunks := fun _ => none
  numChunks := 0
  expectedTotalPages := info.expectedTotalPages

/-- The checks against what the bundle holds. -/
def check [DecidableEq μ] (bundle : Bundle μ) (info : TransferInfo μ) :
    Except RegisterError Unit :=
  let existing := bundle.chunks info.chunkIndex
  if existing.isSome ∧ existing ≠ some info then .error (.conflictingChunk info.chunkIndex)
  else if bundle.numChunks ≠ 0 ∧ bundle.numChunks ≤ info.chunkIndex then
    .error (.outsideFinalized info.chunkIndex bundle.numChunks)
  else if info.numChunks ≠ 0 ∧ bundle.numChunks ≠ 0 ∧ bundle.numChunks ≠ info.numChunks then
    .error (.conflictingCount bundle.numChunks info.numChunks)
  else if info.expectedTotalPages ≠ 0 ∧ bundle.expectedTotalPages ≠ 0 ∧
      bundle.expectedTotalPages ≠ info.expectedTotalPages then
    .error (.conflictingTotalPages bundle.expectedTotalPages info.expectedTotalPages)
  else .ok ()

def store (bundle : Bundle μ) (info : TransferInfo μ) : Bundle μ where
  baseTransferId := bundle.baseTransferId
  chunks := Function.update bundle.chunks info.chunkIndex (some info)
  numChunks := if info.numChunks ≠ 0 then info.numChunks else bundle.numChunks
  expectedTotalPages :=
    if info.expectedTotalPages ≠ 0 then info.expectedTotalPages else bundle.expectedTotalPages

end Bundle

namespace Registry

variable (registry : Registry μ)

def new (transferTtlSeconds : ℚ) : Registry μ where
  transferTtlSeconds := transferTtlSeconds
  transfers := fun _ => none
  transferLastSeen := fun _ => none

def isStale (now : ℚ) (key : Key) : Bool :=
  match registry.transferLastSeen key with
  | none => false
  | some seenAt => seenAt < now - registry.transferTtlSeconds

/-- `_evict_stale_transfers_locked` -/
def evictStaleTransfers (now : ℚ) : Registry μ :=
  { registry with
    transfers := fun key => if registry.isStale now key then none else registry.transfers key
    transferLastSeen := fun key =>
      if registry.isStale now key then none else registry.transferLastSeen key }

/-- The bundle that the payload belongs to, unless one of another transfer is in its
place. -/
def currentBundle (info : TransferInfo μ) : Option (Bundle μ) :=
  (registry.transfers info.key).filter fun bundle => bundle.baseTransferId = info.base

/-- A bundle for the payload; a new one is put into the table at once. -/
def openBundle (info : TransferInfo μ) : Except RegisterError (Registry μ × Bundle μ) :=
  if (registry.transfers info.key).isSome ∧ (registry.currentBundle info).isNone ∧
      info.chunkIndex ≠ 0 then .error .replacesFromMiddle
  else
    match registry.currentBundle info with
    | some bundle => .ok (registry, bundle)
    | none =>
      if info.base ≠ info.transferId ∧ info.chunkIndex ≠ 0 then .error .createsFromMiddle
      else
        let bundle := .new info
        .ok ({ registry with
          transfers := Function.update registry.transfers info.key (some bundle) }, bundle)

def registerTransfer [DecidableEq μ] (now : ℚ) (info : TransferInfo μ) :
    Registry μ × Except RegisterError Unit :=
  let registry := registry.evictStaleTransfers now
  match info.check with
  | .error e => (registry, .error e)
  | .ok () =>
    match registry.openBundle info with
    | .error e => (registry, .error e)
    | .ok (registry, bundle) =>
      match bundle.check info with
      | .error e => (registry, .error e)
      | .ok () =>
        ({ registry with
          transfers := Function.update registry.transfers info.key (some (bundle.store info))
          transferLastSeen := Function.update registry.transferLastSeen info.key (some now) },
          .ok ())

def getTransfer (now : ℚ) (key : Key) : Registry μ × Option (Bundle μ) :=
  let registry := registry.evictStaleTransfers now
  (registry, registry.transfers key)

/-- The room has been taken over by another transfer. -/
def isTaken (key : Key) (expectedTransferId : Option String) : Bool :=
  match expectedTransferId, registry.transfers key with
  | some expected, some bundle => bundle.baseTransferId ≠ expected
  | _, _ => false

def popRoom (key : Key) (expectedTransferId : Option String) : Registry μ × Bool :=
  let bundle := registry.transfers key
  if registry.isTaken key expectedTransferId then (registry, false)
  else
    ({ registry with
      transfers := Function.update registry.transfers key none
      transferLastSeen := Function.update registry.transferLastSeen key none }, bundle.isSome)

end Registry

end TransferRegistry

end SglJax.Disaggregation
