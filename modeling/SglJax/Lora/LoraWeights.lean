import SglJax.Foundation.PyText
import SglJax.Foundation.Results

/-! The weights of a LoRA adapter as the memory pool stores them: found by name, joined where
a module is a composite, and fitted to the shape of the pool's buffers. -/
namespace SglJax.Lora

inductive LoraError where
  | assertionError
  | indexError
  | keyError
  /-- `ValueError("No available buffer slots. Max %d LoRA adapters per batch exceeded.", n)` -/
  | noAvailableBufferSlots (maxLorasPerBatch : Nat)
  /-- Arrays whose shapes do not fit. -/
  | shapeError
  /-- A failure outside the program, such as a device that is out of memory. -/
  | deviceError
deriving DecidableEq, Repr

section

variable {K : Type} [Zero K]

/-- A two-dimensional array. -/
structure Mat (K : Type) where
  cols : Nat
  rows : List (List K)
  length_row : ∀ row ∈ rows, row.length = cols
deriving DecidableEq, Repr

namespace Mat

def shape (m : Mat K) : Nat × Nat := (m.rows.length, m.cols)

/-- `jnp.zeros` -/
def zeros (shape : Nat × Nat) : Mat K where
  cols := shape.2
  rows := List.replicate shape.1 (List.replicate shape.2 0)
  length_row := by simp +contextual [List.mem_replicate]

/-- `jnp.concatenate([a, b], axis=0)` -/
def concat (a b : Mat K) : Except LoraError (Mat K) :=
  if h : a.cols = b.cols then
    .ok { cols := a.cols
          rows := a.rows ++ b.rows
          length_row := by
            intro row hrow
            rcases List.mem_append.mp hrow with ha | hb
            · exact a.length_row row ha
            · rw [h]
              exact b.length_row row hb }
  else .error .shapeError

def padRows (size : Nat) (m : Mat K) : Mat K where
  cols := m.cols
  rows := m.rows ++ List.replicate (size - m.rows.length) (List.replicate m.cols 0)
  length_row := by
    intro row hrow
    rcases List.mem_append.mp hrow with h | h
    · exact m.length_row row h
    · rw [List.eq_of_mem_replicate h, List.length_replicate]

def padCols (size : Nat) (m : Mat K) : Mat K where
  cols := m.cols + (size - m.cols)
  rows := m.rows.map (· ++ List.replicate (size - m.cols) 0)
  length_row := by
    intro row hrow
    obtain ⟨source, hsource, rfl⟩ := List.mem_map.mp hrow
    rw [List.length_append, List.length_replicate, m.length_row source hsource]

/-- `weight[:size, :]` -/
def takeRows (size : Nat) (m : Mat K) : Mat K where
  cols := m.cols
  rows := m.rows.take size
  length_row := fun row hrow => m.length_row row (List.mem_of_mem_take hrow)

/-- `weight[:, :size]` -/
def takeCols (size : Nat) (m : Mat K) : Mat K where
  cols := min size m.cols
  rows := m.rows.map (List.take size)
  length_row := by
    intro row hrow
    obtain ⟨source, hsource, rfl⟩ := List.mem_map.mp hrow
    rw [List.length_take, m.length_row source hsource]

/-- Every group of `size` rows, `copies` times over. -/
def repeatGroups (groups size copies : Nat) (m : Mat K) : Mat K where
  cols := m.cols
  rows := (List.range groups).flatMap fun group =>
    (List.replicate copies ((m.rows.drop (group * size)).take size)).flatten
  length_row := by
    intro row hrow
    obtain ⟨group, -, hrow⟩ := List.mem_flatMap.mp hrow
    obtain ⟨part, hpart, hrow⟩ := List.mem_flatten.mp hrow
    rw [List.eq_of_mem_replicate hpart] at hrow
    exact m.length_row row (List.mem_of_mem_drop (List.mem_of_mem_take hrow))

/-- The value `.at[buffer_id].set` stores in a slot of the given shape: an axis of length one is
broadcast, any other shape is rejected. -/
def broadcastTo (shape : Nat × Nat) (m : Mat K) : Except LoraError (Mat K) :=
  if m.shape = shape then .ok m
  else if (m.rows.length = shape.1 ∨ m.rows.length = 1) ∧ (m.cols = shape.2 ∨ m.cols = 1) then
    .ok { cols := shape.2
          rows := (List.range shape.1).map fun i => (List.range shape.2).map fun j =>
            ((m.rows.getD (if m.rows.length = 1 then 0 else i) []).getD
              (if m.cols = 1 then 0 else j) 0)
          length_row := by
            intro row hrow
            obtain ⟨i, -, rfl⟩ := List.mem_map.mp hrow
            rw [List.length_map, List.length_range] }
  else .error .shapeError

end Mat

/-- The names and weights of one layer, in the order they were read. -/
abbrev LayerWeights (K : Type) := List (Text × Mat K)

structure LoraAdapter (K : Type) where
  /-- `config.r` -/
  r : Nat
  scaling : Rat
  layers : List (LayerWeights K)

/-- The settings of a memory pool. The server refuses to start without a slot. -/
structure PoolConfig where
  maxLorasPerBatch : Nat
  maxLorasPerBatch_pos : 0 < maxLorasPerBatch
  maxLoraRank : Nat
  numLayers : Nat
  targetModules : List Text
  hiddenSize : Nat
  intermediateSize : Nat
  numAttentionHeads : Nat
  numKvHeads : Nat
  headDim : Nat
  originalNumKvHeads : Nat
  tpSize : Nat
deriving Repr

def qkvProj : Text := "qkv_proj".toList
def qProj : Text := "q_proj".toList
def kProj : Text := "k_proj".toList
def vProj : Text := "v_proj".toList
def oProj : Text := "o_proj".toList
def gateUpProj : Text := "gate_up_proj".toList
def gateProj : Text := "gate_proj".toList
def upProj : Text := "up_proj".toList
def downProj : Text := "down_proj".toList

namespace PoolConfig

variable (cfg : PoolConfig)

def needsKvReplication : Bool := cfg.originalNumKvHeads < cfg.tpSize

def numKvReplicas : Nat :=
  if cfg.needsKvReplication then
    (cfg.tpSize + cfg.originalNumKvHeads - 1) / cfg.originalNumKvHeads
  else 1

/-- The shape of one slot of `A_buffer`. -/
def loraAShape (moduleName : Text) : Nat × Nat :=
  (cfg.maxLoraRank,
    if moduleName = oProj then cfg.numAttentionHeads * cfg.headDim
    else if moduleName = downProj then cfg.intermediateSize
    else cfg.hiddenSize)

/-- The shape of one slot of `B_buffer`. -/
def loraBShape (moduleName : Text) : Nat × Nat :=
  (if moduleName = qkvProj then (cfg.numAttentionHeads + 2 * cfg.numKvHeads) * cfg.headDim
    else if moduleName = qProj then cfg.numAttentionHeads * cfg.headDim
    else if moduleName = kProj ∨ moduleName = vProj then cfg.numKvHeads * cfg.headDim
    else if moduleName = oProj then cfg.hiddenSize
    else if moduleName = gateUpProj then cfg.intermediateSize * 2
    else if moduleName = downProj then cfg.hiddenSize
    else if moduleName = gateProj ∨ moduleName = upProj then cfg.intermediateSize
    else cfg.hiddenSize,
    cfg.maxLoraRank)

def shape (isLoraA : Bool) (moduleName : Text) : Nat × Nat :=
  if isLoraA then cfg.loraAShape moduleName else cfg.loraBShape moduleName

def handleRankMismatch (weight : Mat K) (isLoraA : Bool) : Mat K :=
  if isLoraA then
    if weight.rows.length < cfg.maxLoraRank then weight.padRows cfg.maxLoraRank
    else if cfg.maxLoraRank < weight.rows.length then weight.takeRows cfg.maxLoraRank
    else weight
  else
    if weight.cols < cfg.maxLoraRank then weight.padCols cfg.maxLoraRank
    else if cfg.maxLoraRank < weight.cols then weight.takeCols cfg.maxLoraRank
    else weight

def replicateKvLoraWeight (weight : Mat K) (isLoraA : Bool) (moduleName : Text) :
    Except LoraError (Mat K) :=
  if !cfg.needsKvReplication then .ok weight
  else if ¬ (moduleName = kProj ∨ moduleName = vProj) then .ok weight
  else if isLoraA then .ok weight
  -- the reshape to one group of rows for each head
  else if weight.rows.length = cfg.originalNumKvHeads * cfg.headDim then
    .ok (weight.repeatGroups cfg.originalNumKvHeads cfg.headDim cfg.numKvReplicas)
  else .error .shapeError

end PoolConfig

/-- `f"layers.{layer_id}." in key and module_name in key` -/
def keyMatches (layerId : Nat) (moduleName key : Text) : Bool :=
  (Text.find ("layers.".toList ++ Nat.toDigits 10 layerId ++ ['.']) key).isSome &&
    (Text.find moduleName key).isSome

def extractSingleModule (layerWeights : LayerWeights K) (layerId : Nat) (moduleName : Text) :
    Option (Mat K) × Option (Mat K) :=
  layerWeights.foldl
    (fun found item =>
      if keyMatches layerId moduleName item.1 then
        if (Text.find "lora_A.weight".toList item.1).isSome then (some item.2, found.2)
        else if (Text.find "lora_B.weight".toList item.1).isSome then (found.1, some item.2)
        else found
      else found)
    (none, none)

def extractAndConcatQkv (cfg : PoolConfig) (layerWeights : LayerWeights K) (layerId : Nat) :
    Except LoraError (Option (Mat K) × Option (Mat K)) :=
  match extractSingleModule layerWeights layerId qProj,
    extractSingleModule layerWeights layerId kProj,
    extractSingleModule layerWeights layerId vProj with
  | (some qA, some qB), (some kA, some kB), (some vA, some vB) => do
    let kA ← cfg.replicateKvLoraWeight kA true kProj
    let kB ← cfg.replicateKvLoraWeight kB false kProj
    let vA ← cfg.replicateKvLoraWeight vA true vProj
    let vB ← cfg.replicateKvLoraWeight vB false vProj
    let loraA ← (← qA.concat kA).concat vA
    let loraB ← (← qB.concat kB).concat vB
    return (some loraA, some loraB)
  | _, _, _ => .ok (none, none)

def extractAndConcatGateUp (layerWeights : LayerWeights K) (layerId : Nat) :
    Except LoraError (Option (Mat K) × Option (Mat K)) :=
  match extractSingleModule layerWeights layerId gateProj,
    extractSingleModule layerWeights layerId upProj with
  | (some gateA, some gateB), (some upA, some upB) => do
    let loraA ← gateA.concat upA
    let loraB ← gateB.concat upB
    return (some loraA, some loraB)
  | _, _ => .ok (none, none)

def extractModuleWeights (cfg : PoolConfig) (layerWeights : LayerWeights K) (layerId : Nat)
    (moduleName : Text) : Except LoraError (Option (Mat K) × Option (Mat K)) :=
  if moduleName = qkvProj then extractAndConcatQkv cfg layerWeights layerId
  else if moduleName = gateUpProj then extractAndConcatGateUp layerWeights layerId
  else .ok (extractSingleModule layerWeights layerId moduleName)

/-- The arrays stored for a module when both of its weights, or not both, were found. -/
def fitWeights (cfg : PoolConfig) (moduleName : Text) :
    Option (Mat K) × Option (Mat K) → Except LoraError (Mat K × Mat K)
  | (some loraA, some loraB) => do
    let loraA ← cfg.replicateKvLoraWeight (cfg.handleRankMismatch loraA true) true moduleName
    let loraB ← cfg.replicateKvLoraWeight (cfg.handleRankMismatch loraB false) false moduleName
    return (loraA, loraB)
  | _ => .ok (.zeros (cfg.loraAShape moduleName), .zeros (cfg.loraBShape moduleName))

/-- The arrays `load_lora_weight_to_buffer` stores for one module of one layer. -/
def loadedWeights (cfg : PoolConfig) (adapter : LoraAdapter K) (layerId : Nat)
    (moduleName : Text) : Except LoraError (Mat K × Mat K) := do
  let layerWeights ← adapter.layers[layerId]?.elim (.error .indexError) .ok
  fitWeights cfg moduleName (← extractModuleWeights cfg layerWeights layerId moduleName)

/-- A slot's array of one module and layer in `A_buffer` or `B_buffer`. -/
structure Cell where
  isLoraA : Bool
  moduleName : Text
  layerId : Nat
  bufferId : Nat
deriving DecidableEq, Repr

/-- What the adapter's load stores in a cell, or what it raises there. -/
def cellValue (cfg : PoolConfig) (adapter : LoraAdapter K) (cell : Cell) :
    Except LoraError (Mat K) := do
  let (loraA, loraB) ← loadedWeights cfg adapter cell.layerId cell.moduleName
  (if cell.isLoraA then loraA else loraB).broadcastTo (cfg.shape cell.isLoraA cell.moduleName)

/-- The adapter's own array for a module and layer, found by name, padded with zeros to the
pool's rank and, for the keys and values, repeated for the replicated heads. A module the
adapter does not have is zero. -/
def RankPadded (cfg : PoolConfig) (adapter : LoraAdapter K) (cell : Cell) (stored : Mat K) :
    Prop :=
  ∃ layerWeights, adapter.layers[cell.layerId]? = some layerWeights ∧
    ∃ found, extractModuleWeights cfg layerWeights cell.layerId cell.moduleName = .ok found ∧
      match found with
      | (some loraA, some loraB) =>
        if cell.isLoraA then
          loraA.rows.length ≤ cfg.maxLoraRank ∧ stored = loraA.padRows cfg.maxLoraRank
        else
          loraB.cols ≤ cfg.maxLoraRank ∧
            cfg.replicateKvLoraWeight (loraB.padCols cfg.maxLoraRank) false cell.moduleName =
              .ok stored
      | _ => stored = .zeros (cfg.shape cell.isLoraA cell.moduleName)

/-- The adapter's arrays have the shapes of the pool and ranks it has room for. -/
def Fits (cfg : PoolConfig) (adapter : LoraAdapter K) : Prop :=
  ∀ layerId < cfg.numLayers, ∀ moduleName ∈ cfg.targetModules,
    ∃ layerWeights, adapter.layers[layerId]? = some layerWeights ∧
      ∃ found, extractModuleWeights cfg layerWeights layerId moduleName = .ok found ∧
        match found with
        | (some loraA, some loraB) =>
          loraA.rows.length ≤ cfg.maxLoraRank ∧ loraA.cols = (cfg.loraAShape moduleName).2 ∧
            loraB.cols ≤ cfg.maxLoraRank ∧
            ∃ stored, cfg.replicateKvLoraWeight (loraB.padCols cfg.maxLoraRank) false moduleName =
              .ok stored ∧ stored.shape = cfg.loraBShape moduleName
        | _ => True

section fit

variable {cfg : PoolConfig} {adapter : LoraAdapter K} {weight : Mat K}

omit [Zero K] in
theorem Mat.ext_rows {a b : Mat K} (hcols : a.cols = b.cols) (hrows : a.rows = b.rows) : a = b := by
  cases a
  cases b
  subst hcols hrows
  rfl

@[simp] theorem Mat.shape_zeros (shape : Nat × Nat) : (Mat.zeros shape : Mat K).shape = shape := by
  simp [Mat.shape, Mat.zeros]

theorem Mat.broadcastTo_self {shape : Nat × Nat} (h : weight.shape = shape) :
    weight.broadcastTo shape = .ok weight := if_pos h

theorem Mat.length_rows_padRows {size : Nat} (h : weight.rows.length ≤ size) :
    (weight.padRows size).rows.length = size := by
  simp only [Mat.padRows, List.length_append, List.length_replicate]
  omega

theorem handleRankMismatch_rows (h : weight.rows.length ≤ cfg.maxLoraRank) :
    cfg.handleRankMismatch weight true = weight.padRows cfg.maxLoraRank := by
  unfold PoolConfig.handleRankMismatch
  rw [if_pos rfl]
  split
  · rfl
  · rename_i hlt
    have heq : weight.rows.length = cfg.maxLoraRank := by omega
    rw [if_neg (by omega)]
    apply Mat.ext_rows
    · rfl
    · simp [Mat.padRows, heq]

theorem handleRankMismatch_cols (h : weight.cols ≤ cfg.maxLoraRank) :
    cfg.handleRankMismatch weight false = weight.padCols cfg.maxLoraRank := by
  unfold PoolConfig.handleRankMismatch
  rw [if_neg Bool.false_ne_true]
  split
  · rfl
  · rename_i hlt
    have heq : weight.cols = cfg.maxLoraRank := by omega
    rw [if_neg (by omega)]
    apply Mat.ext_rows
    · simp [Mat.padCols, heq]
    · simp [Mat.padCols, heq]

omit [Zero K] in
theorem replicateKvLoraWeight_loraA (moduleName : Text) :
    cfg.replicateKvLoraWeight weight true moduleName = .ok weight := by
  unfold PoolConfig.replicateKvLoraWeight
  split
  · rfl
  · split <;> rfl

/-- Every cell of an adapter that fits gets its rank-padded array. -/
theorem Fits.cellValue_ok (h : Fits cfg adapter) {cell : Cell}
    (hlayer : cell.layerId < cfg.numLayers)
    (hmodule : cell.moduleName ∈ cfg.targetModules) :
    ∃ stored, cellValue cfg adapter cell = .ok stored ∧ RankPadded cfg adapter cell stored := by
  obtain ⟨layerWeights, hweights, found, hfound, hfit⟩ := h _ hlayer _ hmodule
  have hloaded : loadedWeights cfg adapter cell.layerId cell.moduleName =
      fitWeights cfg cell.moduleName found := by
    unfold loadedWeights
    rw [hweights, Option.elim, ok_bind, hfound, ok_bind]
  have hzeros (hmissing : loadedWeights cfg adapter cell.layerId cell.moduleName =
      .ok (.zeros (cfg.loraAShape cell.moduleName), .zeros (cfg.loraBShape cell.moduleName))) :
      cellValue cfg adapter cell = .ok (.zeros (cfg.shape cell.isLoraA cell.moduleName)) := by
    unfold cellValue
    rw [hmissing, ok_bind]
    cases hside : cell.isLoraA
    · exact Mat.broadcastTo_self (Mat.shape_zeros _)
    · exact Mat.broadcastTo_self (Mat.shape_zeros _)
  match found, hfit with
  | (some loraA, some loraB), ⟨hrows, hcols, hrank, stored, hstored, hshape⟩ =>
    simp only [fitWeights, handleRankMismatch_rows hrows, handleRankMismatch_cols hrank,
      replicateKvLoraWeight_loraA, hstored, ok_bind] at hloaded
    unfold cellValue
    rw [hloaded]
    cases hside : cell.isLoraA with
    | true =>
      refine ⟨loraA.padRows cfg.maxLoraRank, Mat.broadcastTo_self ?_, layerWeights, hweights, _,
        hfound, ?_⟩
      · exact Prod.ext (Mat.length_rows_padRows hrows) hcols
      · simp [hside, hrows]
    | false =>
      refine ⟨stored, Mat.broadcastTo_self hshape, layerWeights, hweights, _, hfound, ?_⟩
      simp [hside, hrank, hstored]
  | (none, b), _ => exact ⟨_, hzeros hloaded, layerWeights, hweights, _, hfound, rfl⟩
  | (some a, none), _ => exact ⟨_, hzeros hloaded, layerWeights, hweights, _, hfound, rfl⟩

end fit

end

end SglJax.Lora
