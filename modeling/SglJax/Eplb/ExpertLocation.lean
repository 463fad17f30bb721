import SglJax.Eplb.Deepseek

/-! The expert location metadata, and how logical expert ids become physical ones. -/
namespace SglJax.Eplb

open Foundation

inductive DispatchAlgorithm where
  | static
  | dynamic
  | fake
deriving DecidableEq, Repr

inductive EplbAlgorithm where
  | deepseek
  | deepseekHierarchical
deriving DecidableEq, Repr

/-- The text of `eplb_algorithm`. -/
inductive RawAlgorithm where
  | auto
  | named (algorithm : EplbAlgorithm)
  | unknown
deriving DecidableEq, Repr

structure ServerArgs where
  epSize : Nat
  epNumRedundantExperts : Nat
  nnodes : Nat
  epDispatchAlgorithm : Option DispatchAlgorithm
  eplbAlgorithm : RawAlgorithm

/-- The fields of `expert_location_config`. -/
structure LocationConfig where
  numExperts : Nat
  numLayers : Nat
  numGroups : Option Nat

/-- An array with two axes. -/
structure Grid (α : Type) where
  cols : Nat
  rows : List (List α)
  rect : ∀ row ∈ rows, row.length = cols

structure ExpertLocationMetadata where
  epDispatchAlgorithm : DispatchAlgorithm
  logicalToRankDispatchPhysicalMap : List (List Int)
  logicalToAllPhysicalMap : List (List (List Int))
  logicalToAllPhysicalMapNumValid : List (List Nat)
  physicalToLogicalMap : List (List Int)
  numPhysicalExperts : Nat
deriving DecidableEq, Repr

/-- `num_physical_experts` of `_init_common` -/
def numPhysicalExperts (args : ServerArgs) (config : LocationConfig) : Nat :=
  config.numExperts + args.epNumRedundantExperts

/-- `_init_common` gives no fields. -/
def LocationConfig.isEmpty (config : LocationConfig) : Bool :=
  config.numExperts = 0 || config.numLayers = 0

/-- `compute_algorithm` -/
def computeAlgorithm (raw : RawAlgorithm) (numGroups : Option Nat) (numNodes : Nat) :
    Except ArrayError EplbAlgorithm :=
  match raw with
  | .named algorithm => .ok algorithm
  | .unknown => .error .key
  | .auto =>
    match numGroups with
    | none => .ok .deepseek
    | some groups =>
      (divisible groups numNodes).map fun whole =>
        if whole then .deepseekHierarchical else .deepseek

/-- `_init_raw` -/
def initRaw (args : ServerArgs) (physicalToLogicalMap : List (List Int)) (numPhysical : Nat)
    (logicalToAllPhysicalMap : List (List (List Int))) :
    Except ArrayError ExpertLocationMetadata := do
  let dispatch ← logicalToAllPhysicalMap.mapM fun layer => layer.mapM fun row => item row 0
  .ok {
    epDispatchAlgorithm := args.epDispatchAlgorithm.getD .static
    logicalToRankDispatchPhysicalMap := dispatch
    logicalToAllPhysicalMap := logicalToAllPhysicalMap
    logicalToAllPhysicalMapNumValid :=
      logicalToAllPhysicalMap.map fun layer => layer.map fun row => row.countP (· ≠ -1)
    physicalToLogicalMap := physicalToLogicalMap
    numPhysicalExperts := numPhysical }

/-- The list of an expert takes the next physical expert. -/
def appendPhysical (lists : List (List Nat)) (entry : Int × Nat) :
    Except ArrayError (List (List Nat)) :=
  (axisIndex lists.length entry.1).map fun expert => lists.modify expert (· ++ [entry.2])

/-- The lists of a layer, before they are padded. -/
def physicalLists (numLogicalExperts : Nat) (row : List Int) :
    Except ArrayError (List (List Nat)) :=
  row.zipIdx.foldlM appendPhysical (List.replicate numLogicalExperts [])

/-- `_pad_nested_array` -/
def padNestedArray (arr : List (List (List Nat))) : Except ArrayError (List (List (List Int))) := do
  let maxLen ← maxOf (arr.flatten.map fun inner => (inner.length : Int))
  .ok (arr.map fun outer => outer.map fun inner =>
    inner.map (fun physical : Nat => (physical : Int)) ++
      List.replicate (maxLen.toNat - inner.length) (-1))

/-- `_compute_logical_to_all_physical_map` -/
def computeLogicalToAllPhysicalMap (physicalToLogicalMap : Grid Int) (numLogicalExperts : Nat) :
    Except ArrayError (List (List (List Int))) := do
  let lists ← physicalToLogicalMap.rows.mapM (physicalLists numLogicalExperts)
  padNestedArray lists

def initByMapping (args : ServerArgs) (config : LocationConfig) (physicalToLogicalMap : Grid Int) :
    Except ArrayError (Option ExpertLocationMetadata) :=
  if config.isEmpty then .ok none
  else do
    let logicalToAllPhysicalMap ←
      computeLogicalToAllPhysicalMap physicalToLogicalMap config.numExperts
    let info ← initRaw args physicalToLogicalMap.rows physicalToLogicalMap.cols
      logicalToAllPhysicalMap
    .ok (some info)

/-- The map of `init_trivial`: the logical experts in turn. -/
def trivialMap (numLayers numLogical numPhysical : Nat) : Grid Int where
  cols := numPhysical
  rows := List.replicate numLayers (tab numPhysical fun p => ((p % numLogical : Nat) : Int))
  rect row hrow := by
    rw [List.eq_of_mem_replicate hrow, length_tab]

def initTrivial (args : ServerArgs) (config : LocationConfig) :
    Except ArrayError (Option ExpertLocationMetadata) :=
  if config.isEmpty then .ok none
  else initByMapping args config
    (trivialMap config.numLayers config.numExperts (numPhysicalExperts args config))

def initByEplb (np : NumPy) (args : ServerArgs) (config : LocationConfig)
    (logicalCount : Grid np.Num) : Except ArrayError (Option ExpertLocationMetadata) :=
  if config.isEmpty then .ok none
  else do
    let numPhysical := numPhysicalExperts args config
    let numLocal ← floordiv numPhysical args.epSize
    let algorithm ← computeAlgorithm args.eplbAlgorithm config.numGroups args.nnodes
    let numGpus ← floordiv numPhysical numLocal
    let (physicalToLogicalMap, logicalToAllPhysicalMap, _) ←
      rebalanceExperts np logicalCount.cols numPhysical config.numGroups args.nnodes numGpus
        (algorithm = .deepseekHierarchical) logicalCount.rows
    let info ← initRaw args physicalToLogicalMap numPhysical logicalToAllPhysicalMap
    .ok (some info)

/-- Reading a device array: an index past the end reads the last element. -/
def clamped {α : Type} (l : List α) (i : Nat) : Option α :=
  l[min i (l.length - 1)]?

/-- What `jnp.take_along_axis` gives for an index past the end. -/
def fillValue : Int := -2147483648

def topkIdsLogicalToPhysicalStatic (topkIds : List Nat) (info : ExpertLocationMetadata)
    (layerId : Nat) : Option (List Int) := do
  let row ← clamped info.logicalToRankDispatchPhysicalMap layerId
  topkIds.mapM (clamped row)

/-- The replica of an expert that a random offset picks. -/
def chosenReplica (numValid : List Nat) (replicas : List (List Int)) (draw : Nat × Nat) :
    Option Int := do
  let valid ← clamped numValid draw.1
  let row ← clamped replicas draw.1
  some (row.getD (draw.2 % valid) fillValue)

def topkIdsLogicalToPhysicalDynamic (randomOffsets : List Nat) (topkIds : List Nat)
    (info : ExpertLocationMetadata) (layerId : Nat) : Option (List Int) := do
  let numValid ← clamped info.logicalToAllPhysicalMapNumValid layerId
  let replicas ← clamped info.logicalToAllPhysicalMap layerId
  (topkIds.zip randomOffsets).mapM (chosenReplica numValid replicas)

/-- `topk_ids_logical_to_physical`; `randomOffsets` is what `jax.random.randint` draws. -/
def topkIdsLogicalToPhysical (randomOffsets : List Nat) (topkIds : List Nat)
    (info : Option ExpertLocationMetadata) (layerId : Nat) : Option (List Int) :=
  match info with
  | none => some (topkIds.map fun e : Nat => (e : Int))
  | some info =>
    match info.epDispatchAlgorithm with
    | .static => topkIdsLogicalToPhysicalStatic topkIds info layerId
    | .dynamic | .fake => topkIdsLogicalToPhysicalDynamic randomOffsets topkIds info layerId

end SglJax.Eplb
