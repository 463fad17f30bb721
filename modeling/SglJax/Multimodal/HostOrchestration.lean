import SglJax.Multimodal.GatherMerge
import SglJax.Multimodal.Lanes
import SglJax.Multimodal.PoolRuns

/-! The two halves of a multimodal prefill. Scheduling looks up which items are cached and
spreads the others over the lanes of the encoder; execution looks again, encodes what has
gone since then, and lays all rows over the text embeddings. -/
namespace SglJax.Multimodal

open Lora (Mat)
open Foundation

variable {F K : Type}

/-- The tasks of a lane by modality, in the order of insertion. -/
abbrev LaneTasks (F : Type) := List (Modality × List (ItemTask F))

/-- `lane.get(modality, [])` -/
def tasksOf (lane : LaneTasks F) (modality : Modality) : List (ItemTask F) :=
  (lane.lookup modality).getD []

/-- `setdefault(task.item.modality, []).append(task)` for all tasks. -/
def groupTasks (tasks : List (ItemTask F)) : LaneTasks F :=
  tasks.foldl (fun grouped task =>
    setKey grouped task.item.modality (tasksOf grouped task.item.modality ++ [task])) []

structure MultimodalBatch (F : Type) where
  perLaneTasks : List (LaneTasks F)
  cachedTasks : List (ItemTask F)

/-- `[tasks[i] for i in sorted(indices)]` -/
def pickTasks (tasks : List (ItemTask F)) (indices : List Nat) : List (ItemTask F) :=
  (indices.insertionSort (· ≤ ·)).filterMap fun i => tasks[i]?

/-- Tasks of one modality go to the lanes. Scheduling leaves a lane that gets none as it is. -/
def spreadTasks (setEmpty : Bool) (modality : Modality) (tasks : List (ItemTask F))
    (lanes : List (LaneTasks F)) : List (LaneTasks F) :=
  lanes.zipWith (fun lane indices =>
      if setEmpty ∨ indices ≠ [] then setKey lane modality (pickTasks tasks indices) else lane)
    (balanceLanes (tasks.map fun task => task.item.feature.length) lanes.length)

/-- `embedding_pool is not None and embedding_pool.contains(item.hash)` -/
def isCached (pool : Option (EmbeddingPool K)) (task : ItemTask F) : Bool :=
  pool.any fun pool => pool.contains task.item.hash

/-- One turn of the loop of `build_multimodal_batch`. -/
def addModality (pool : Option (EmbeddingPool K)) (batch : MultimodalBatch F)
    (group : Modality × List (ItemTask F)) : MultimodalBatch F :=
  let misses := group.2.filter fun task => ¬ isCached pool task
  { cachedTasks := batch.cachedTasks ++ group.2.filter (isCached pool)
    perLaneTasks :=
      if misses ≠ [] then spreadTasks false group.1 misses batch.perLaneTasks
      else batch.perLaneTasks }

def buildMultimodalBatch (reqsInfo : Option (List (RankInfo F))) (dpSize : Nat)
    (isInModelMultimodal : Bool) (perDpToken : Nat) (pool : Option (EmbeddingPool K))
    (numEncoderLanes : Nat) : Except MultimodalError (Option (MultimodalBatch F)) :=
  if numEncoderLanes < 1 then .error .lanesNotPositive
  else if reqsInfo.isNone ∨ ¬ isInModelMultimodal then .ok none
  else
    let grouped := groupTasks (collectItemTasks reqsInfo dpSize perDpToken)
    if grouped.isEmpty then .ok none
    else .ok (some (grouped.foldl (addModality pool) ⟨List.replicate numEncoderLanes [], []⟩))

/-- What the lookups of the cached tasks come to. -/
structure Lookups (F K : Type) where
  hits : List (ItemTask F × EmbeddingPoolEntry)
  expired : List (ItemTask F)
  pool : Option (EmbeddingPool K)

def lookupTasks : List (ItemTask F) → Option (EmbeddingPool K) → Lookups F K
  | [], pool => ⟨[], [], pool⟩
  | task :: tasks, none =>
    let rest := lookupTasks tasks none
    { rest with expired := task :: rest.expired }
  | task :: tasks, some pool =>
    match pool.lookup task.item.hash with
    | (some entry, pool) =>
      let rest := lookupTasks tasks (some pool)
      { rest with hits := (task, entry) :: rest.hits }
    | (none, pool) =>
      let rest := lookupTasks tasks (some pool)
      { rest with expired := task :: rest.expired }

/-- The misses of a modality are spread anew together with the tasks that expired. -/
def rebalance (expired : List (ItemTask F)) (lanes : List (LaneTasks F)) : List (LaneTasks F) :=
  (groupTasks expired).foldl (fun lanes group =>
    spreadTasks true group.1 (lanes.flatMap (tasksOf · group.1) ++ group.2) lanes) lanes

/-- Where the items of a lane begin that follow one another from `offset` on. -/
def startsFrom : Nat → List (ItemTask F) → List Nat
  | _, [] => []
  | offset, task :: tasks => offset :: startsFrom (offset + task.outputLen) tasks

/-- The item offsets of the lanes from `lane_index` on. -/
def laneItemOffsets (laneCapacity : Nat) : Nat → List (List (ItemTask F)) →
    Except MultimodalError (List Nat)
  | _, [] => .ok []
  | laneIndex, tasks :: lanes =>
    if (laneIndex + 1) * laneCapacity <
        laneIndex * laneCapacity + (tasks.map ItemTask.outputLen).sum then
      .error .laneCapacityExceeded
    else do
      let rest ← laneItemOffsets laneCapacity (laneIndex + 1) lanes
      return startsFrom (laneIndex * laneCapacity) tasks ++ rest

/-- `_cache_unfinished_items` -/
def cacheUnfinishedItems (pool : Option (EmbeddingPool K)) (packed : Mat K)
    (tasks : List (ItemTask F)) (itemOffsets : List Nat) :
    Except MultimodalError (Option (EmbeddingPool K)) :=
  match pool with
  | none => .ok none
  | some pool =>
    let writeMask := tasks.map ItemTask.hasUnmergedTail
    if writeMask.any id then do
      let (_, pool) ← pool.writePacked
        { itemHashes := tasks.map fun task => task.item.hash
          packed
          lengths := tasks.map fun task => (task.outputLen : Int)
          writeMask := some writeMask
          itemOffsets := some (itemOffsets.map Int.ofNat) }
      return some pool
    else .ok (some pool)

/-- The encoders of the model: what `get_multimodal_encode_funcs` has for a modality. -/
abbrev EncodeFuncs (F K : Type) :=
  Modality → Option (List (List (MultimodalDataItem F)) → Except MultimodalError (Mat K))

section Embed

variable [Zero K]

/-- One turn of the loop over the modalities. -/
def encodeModality (encodeFuncs : EncodeFuncs F K) (lanes : List (LaneTasks F))
    (state : Mat K × Option (EmbeddingPool K)) (modality : Modality) :
    Except MultimodalError (Mat K × Option (EmbeddingPool K)) := do
  let laneTasks := lanes.map (tasksOf · modality)
  let tasks := laneTasks.flatten
  let itemsPerLane := laneTasks.map fun tasks => tasks.map ItemTask.item
  match encodeFuncs modality with
  | none => .error (.noEmbeddingFunction modality)
  | some encode =>
    let packed ← encode itemsPerLane
    if packed.rows.length % itemsPerLane.length ≠ 0 then .error .capacityNotDivisible
    else do
      let itemOffsets ← laneItemOffsets (packed.rows.length / itemsPerLane.length) 0 laneTasks
      let running ← gatherMerge state.1 packed tasks (some itemOffsets)
      let pool ← cacheUnfinishedItems state.2 packed tasks itemOffsets
      return (running, pool)

/-- The rows of the hits, as the pool has them now. -/
def gatherCached (running : Mat K) (lookups : Lookups F K) : Except MultimodalError (Mat K) :=
  match lookups.pool with
  | some pool =>
    if lookups.hits ≠ [] then
      gatherFromPool running pool (lookups.hits.map Prod.fst) (lookups.hits.map Prod.snd)
    else .ok running
  | none => .ok running

/-- `embed_multimodal_inputs` for a batch: hits first, so that they are read before an encoder's
output overwrites their pages. -/
def mergeBatch (encodeFuncs : EncodeFuncs F K) (batch : MultimodalBatch F) (running : Mat K)
    (pool : Option (EmbeddingPool K)) :
    Except MultimodalError (Mat K × Option (EmbeddingPool K)) := do
  let lookups := lookupTasks batch.cachedTasks pool
  let running ← gatherCached running lookups
  let lanes := rebalance lookups.expired batch.perLaneTasks
  let modalities := (lanes.flatMap fun lane => lane.map Prod.fst).eraseDups
  modalities.foldlM (encodeModality encodeFuncs lanes) (running, lookups.pool)

/-- `running[:, start : start + size]` -/
def sliceCols (start size : Nat) (m : Mat K) : Mat K where
  cols := min size (m.cols - start)
  rows := m.rows.map fun row => (row.drop start).take size
  length_row := by
    intro row hrow
    obtain ⟨source, hsource, rfl⟩ := List.mem_map.mp hrow
    rw [List.length_take, List.length_drop, m.length_row source hsource]

structure Embedded (K : Type) where
  inputEmbedding : Mat K
  deepstack : Option (List (Mat K))
  applyForDeepstack : Bool

/-- `split_embeddings`: layer `l` has the columns from `hidden + l * hidden` on. -/
def splitEmbeddings (running : Mat K) (hidden deepstackDim : Nat) : Mat K × Option (List (Mat K)) :=
  if deepstackDim = 0 then (running, none)
  else (sliceCols 0 hidden running, some ((List.range deepstackDim).map fun layer =>
    sliceCols (hidden + layer * hidden) hidden running))

/-- `text` is what `get_input_embeddings` gives for the tokens. -/
def embedMultimodalInputs (batch : Option (MultimodalBatch F)) (text : Mat K)
    (deepstackDim : Nat) (encodeFuncs : EncodeFuncs F K) (pool : Option (EmbeddingPool K)) :
    Except MultimodalError (Embedded K × Option (EmbeddingPool K)) :=
  let hidden := text.cols
  match batch with
  | none =>
    if deepstackDim ≠ 0 then
      .ok (⟨text, some (List.replicate deepstackDim (Mat.zeros (text.rows.length, hidden))), false⟩,
        pool)
    else .ok (⟨text, none, false⟩, pool)
  | some batch => do
    let running := if deepstackDim ≠ 0 then text.padCols (hidden + hidden * deepstackDim) else text
    let (running, pool) ← mergeBatch encodeFuncs batch running pool
    let split := splitEmbeddings running hidden deepstackDim
    return (⟨split.1, split.2, 0 < deepstackDim⟩, pool)

end Embed

end SglJax.Multimodal
