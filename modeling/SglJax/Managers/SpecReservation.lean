import SglJax.Managers.PrefillMemory

/-! The memory of a speculative decode step: what `check_decode_mem` asks of the draft
state of each rank, and what `prepare_for_decode` of that state then reserves. -/
namespace SglJax.Managers

open Foundation MemCache

/-- The algorithms that reserve differently; `eagle` stands for EAGLE and NEXTN. -/
inductive SpecAlgorithm where
  | eagle
  | eagle3
  | dflash
deriving DecidableEq, Repr

/-- What the server fixes: `ALLOC_LEN_PER_DECODE` of `EagleDraftInput` and
`block_size` of `DFlashDraftInput`. -/
structure SpecConfig where
  algorithm : SpecAlgorithm
  enableOverlap : Bool
  allocLenPerDecode : Nat
  blockSize : Nat
deriving DecidableEq, Repr

namespace SpecConfig

variable (cfg : SpecConfig)

/-- `use_legacy_eagle3_non_overlap` -/
def useLegacyEagle3NonOverlap : Bool := !cfg.enableOverlap && cfg.algorithm == .eagle3

/-- How far past the committed length `prepare_for_decode` reserves. -/
def reserveTokens : Nat :=
  match cfg.algorithm with
  | .dflash => cfg.blockSize * (if cfg.enableOverlap then 2 else 1)
  | _ => 2 * cfg.allocLenPerDecode

/-- How far `new_tokens_required_next_decode` takes the reservation to go. DFlash
looks at its own state here, not at the mode of the batch. -/
def checkedTokens (hasFutureIndices : Bool) : Nat :=
  match cfg.algorithm with
  | .dflash => cfg.blockSize * (if hasFutureIndices then 2 else 1)
  | _ => cfg.allocLenPerDecode * 2

end SpecConfig

/-- `ceil_to_page(n)` -/
def pagedLen (pageSize n : Nat) : Nat := pagesFor pageSize n * pageSize

/-- A request of a running batch with its entries of `req_pool_indices`, of
`seq_lens` and of the `allocate_lens` of the draft state. In the legacy mode the
sequence has grown since the slots were allocated. -/
structure SpecRow (cfg : SpecConfig) (ρ : Type) where
  req : BatchReq ρ
  kvAllocatedLen : Nat
  decodeBatchIdx : Nat
  reqPoolIndex : Nat
  seqLen : Nat
  allocateLen : Nat
  grown : cfg.useLegacyEagle3NonOverlap = true → allocateLen + 1 ≤ seqLen + cfg.allocLenPerDecode

/-- The rows of a rank, with the indices into the relay buffers when its draft
state lives there. -/
structure SpecReqsInfo (cfg : SpecConfig) (ρ : Type) where
  rows : List (SpecRow cfg ρ)
  futureIndices : Option (List Nat)
  outCacheLoc : List Nat := []

abbrev SpecBatch (cfg : SpecConfig) (ρ : Type) := List (SpecReqsInfo cfg ρ)

variable {cfg : SpecConfig} {τ ρ : Type}

namespace SpecRow

/-- The length up to which the row has slots when `prepare_for_decode` begins. -/
def oldLen (row : SpecRow cfg ρ) : Nat :=
  if cfg.useLegacyEagle3NonOverlap then row.allocateLen else row.kvAllocatedLen

/-- The length up to which it shall have them. -/
def newLen (row : SpecRow cfg ρ) : Nat :=
  if cfg.useLegacyEagle3NonOverlap then row.seqLen + cfg.allocLenPerDecode - 1
  else max row.kvAllocatedLen (row.req.kvCommittedLen + cfg.reserveTokens)

theorem oldLen_le_newLen (row : SpecRow cfg ρ) : row.oldLen ≤ row.newLen := by
  unfold oldLen newLen
  split
  · rename_i hlegacy
    have hgrown := row.grown hlegacy
    omega
  · exact Nat.le_max_left _ _

/-- What `prepare_for_decode` sets of a row. -/
def reserved (row : SpecRow cfg ρ) : SpecRow cfg ρ where
  req := { row.req with kvCommittedLen :=
    if cfg.useLegacyEagle3NonOverlap then row.req.kvCommittedLen else row.req.kvCommittedLen + 1 }
  kvAllocatedLen := row.newLen
  decodeBatchIdx := row.decodeBatchIdx + 1
  reqPoolIndex := row.reqPoolIndex
  seqLen := row.seqLen
  allocateLen := row.newLen
  grown hlegacy := by
    have hgrown := row.grown hlegacy
    simp only [newLen, hlegacy, if_true]
    omega

/-- A verify round whose result is processed: `accepted` tokens are kept. The
scheduler adds them to `seq_lens`, and outside the legacy mode to what is committed,
where one of them is counted already. -/
def verified (row : SpecRow cfg ρ) (accepted : Nat) : SpecRow cfg ρ where
  req := { row.req with kvCommittedLen :=
    if cfg.useLegacyEagle3NonOverlap then row.req.kvCommittedLen
    else row.req.kvCommittedLen + accepted - 1 }
  kvAllocatedLen := row.kvAllocatedLen
  decodeBatchIdx := row.decodeBatchIdx
  reqPoolIndex := row.reqPoolIndex
  seqLen := row.seqLen + accepted
  allocateLen := row.allocateLen
  grown hlegacy := by
    have hgrown := row.grown hlegacy
    omega

/-- A request after its prefill: the slots end with the prompt, and `seq_lens`
counts the token that was sampled. -/
def prefilled (cfg : SpecConfig) (req : BatchReq ρ) (reqPoolIndex promptLen : Nat) :
    SpecRow cfg ρ where
  req := { req with kvCommittedLen := promptLen }
  kvAllocatedLen := promptLen
  decodeBatchIdx := 0
  reqPoolIndex := reqPoolIndex
  seqLen := promptLen + 1
  allocateLen := promptLen
  grown _ := Nat.le_add_right _ _

/-- The arguments of `alloc_extend`. -/
def extendSeq (table : ReqToToken) (row : SpecRow cfg ρ) : ExtendSeq :=
  ⟨row.oldLen, row.newLen, getLastLoc table row.reqPoolIndex row.oldLen, row.oldLen_le_newLen⟩

/-- The tokens `new_tokens_required_next_decode` counts for one request. -/
def tokensRequired (pageSize : Nat) (hasFutureIndices : Bool) (row : SpecRow cfg ρ) : Nat :=
  let cur := row.kvAllocatedLen
  let nxt := max cur (row.req.kvCommittedLen + cfg.checkedTokens hasFutureIndices)
  pagedLen pageSize nxt - pagedLen pageSize cur

/-- The tokens in the pages `prepare_for_decode` adds to one request. -/
def tokensReserved (pageSize : Nat) (row : SpecRow cfg ρ) : Nat :=
  pagedLen pageSize row.newLen - pagedLen pageSize row.oldLen

end SpecRow

/-- `assign_req_to_token_pool`: each row gets its share of the slots in turn. -/
def assignReqToTokenPool (table : ReqToToken) : List (SpecRow cfg ρ) → List Nat → ReqToToken
  | [], _ => table
  | row :: rows, outCacheLoc =>
    let extendLen := row.newLen - row.oldLen
    assignReqToTokenPool (writeRow table row.reqPoolIndex row.oldLen (outCacheLoc.take extendLen))
      rows (outCacheLoc.drop extendLen)

namespace SpecReqsInfo

variable (info : SpecReqsInfo cfg ρ)

/-- `new_tokens_required_next_decode` -/
def newTokensRequiredNextDecode (pageSize : Nat) : Nat :=
  (info.rows.map fun row => row.tokensRequired pageSize info.futureIndices.isSome).sum

/-- `ext_r` -/
def extendNumTokens : Nat := (info.rows.map fun row => row.newLen - row.oldLen).sum

/-- What `prepare_for_decode` allocates for the rank. DFlash asks for nothing when no
row grows. -/
def allocReserved (cache : TreeCache τ ρ) (dpRank : Nat) (m : DecodeMem τ ρ) :
    Except DecodeError (DecodeMem τ ρ × List Nat) :=
  if cfg.algorithm = .dflash ∧ info.extendNumTokens = 0 then .ok (m, [])
  else if m.allocator.pageSize = 1 then cache.allocTokenSlots info.extendNumTokens dpRank m
  else cache.allocPagedTokenSlotsExtend (info.rows.map (SpecRow.extendSeq m.reqToToken))
    info.extendNumTokens dpRank m

/-- `info.out_cache_loc`: EAGLE keeps the new slots, DFlash those the block will be
verified on. -/
def verifyLocs (table : ReqToToken) (newSlots : List Nat) : List Nat :=
  match cfg.algorithm with
  | .dflash => info.rows.flatMap fun row =>
    (List.range cfg.reserveTokens).map fun k =>
      table row.reqPoolIndex ((row.req.kvCommittedLen : Int) + k)
  | _ => newSlots

/-- One rank of `prepare_for_decode`. -/
def prepareForDecode (cache : TreeCache τ ρ) (dpRank : Nat) (m : DecodeMem τ ρ) :
    Except DecodeError (SpecReqsInfo cfg ρ × DecodeMem τ ρ) :=
  if info.rows.isEmpty then .ok (info, m)
  else do
    let (m, newSlots) ← info.allocReserved cache dpRank m
    if newSlots.length ≠ info.extendNumTokens then .error (.alloc .assertionError)
    else
      let table := assignReqToTokenPool m.reqToToken info.rows newSlots
      return ({ info with
        rows := info.rows.map SpecRow.reserved
        outCacheLoc := info.verifyLocs table newSlots }, { m with reqToToken := table })

end SpecReqsInfo

namespace SpecBatch

/-- The ranks with requests, and what each of them needs. -/
def requirements (pageSize : Nat) : Nat → SpecBatch cfg ρ → List (Nat × Nat)
  | _, [] => []
  | dpRank, info :: infos =>
    if info.rows.isEmpty then requirements pageSize (dpRank + 1) infos
    else (dpRank, info.newTokensRequiredNextDecode pageSize) ::
      requirements pageSize (dpRank + 1) infos

/-- `check_decode_mem` -/
def checkDecodeMem (cache : TreeCache τ ρ) (batch : SpecBatch cfg ρ) (m : DecodeMem τ ρ) :
    Except DecodeError (DecodeMem τ ρ × Bool) := do
  let numTokensPerDp := batch.requirements m.allocator.pageSize 0
  let m ← cache.evictTreeCacheIfNeeded numTokensPerDp m
  return (m, isAvailableSizeSufficient m.allocator numTokensPerDp)

def prepareRanks (cache : TreeCache τ ρ) : Nat → SpecBatch cfg ρ → DecodeMem τ ρ →
    Except DecodeError (SpecBatch cfg ρ × DecodeMem τ ρ)
  | _, [], m => .ok ([], m)
  | dpRank, info :: infos, m => do
    let (info, m) ← info.prepareForDecode cache dpRank m
    let (infos, m) ← prepareRanks cache (dpRank + 1) infos m
    return (info :: infos, m)

/-- What `maybe_evict_swa` reads of the batch. -/
def plain (batch : SpecBatch cfg ρ) : ScheduleBatch ρ where
  reqsInfo := batch.map fun info => { reqs := info.rows.map SpecRow.req }
  returnLogprob := false
  returnOutputLogprobOnly := false
  hasStream := false
  hasGrammar := false
  returnHiddenStates := false
  isPrefillOnly := false

/-- `prepare_for_decode` -/
def prepareForDecode (cache : TreeCache τ ρ) (dcfg : DecodeConfig ρ) (batch : SpecBatch cfg ρ)
    (m : DecodeMem τ ρ) : Except DecodeError (SpecBatch cfg ρ × DecodeMem τ ρ) := do
  let m ← cache.maybeEvictSwa dcfg batch.plain m
  prepareRanks cache 0 batch m

/-- The batch after the results of a round, with what was accepted of each row. -/
def verified (batch : SpecBatch cfg ρ) (accepted : Nat → Nat → Nat) : SpecBatch cfg ρ :=
  batch.zipIdx.map fun (info, dpRank) => { info with
    rows := info.rows.zipIdx.map fun (row, i) => row.verified (accepted dpRank i) }

end SpecBatch
end SglJax.Managers
