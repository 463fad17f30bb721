import Mathlib.Data.Nat.Size
import SglJax.Foundation.Results
import SglJax.Foundation.SliceWrites
import SglJax.Multimodal.MultimodalData

/-! The input of a vision encoder. Its lanes are padded to one capacity, and the grids say
where the items of a lane begin and end. -/
namespace SglJax.Multimodal

open Lora (Mat)
open Foundation

def gridPatches (grid : Grid) : Nat := grid.1 * grid.2.1 * grid.2.2

/-- `_bucket_capacity` -/
def bucketCapacity (length unit : Nat) : Except MultimodalError Nat :=
  if unit = 0 then .error .patchCount
  else .ok (2 ^ (max 1 ((length + unit - 1) / unit) - 1).size * unit)

theorem bucketCapacity_spec (length : Nat) {unit : Nat} (hunit : 0 < unit) :
    ∃ cap, bucketCapacity length unit = .ok cap ∧ length ≤ cap ∧ unit ∣ cap := by
  refine ⟨_, if_neg hunit.ne', ?_, dvd_mul_left _ _⟩
  generalize hunits : max 1 ((length + unit - 1) / unit) = units
  have hceil : length ≤ units * unit := by
    have hdiv := Nat.div_add_mod (length + unit - 1) unit
    have hmod := Nat.mod_lt (length + unit - 1) hunit
    have hle : (length + unit - 1) / unit * unit ≤ units * unit :=
      Nat.mul_le_mul_right _ (hunits ▸ le_max_right _ _)
    rw [Nat.mul_comm] at hdiv
    omega
  have hpow : units ≤ 2 ^ (units - 1).size := by
    have := Nat.lt_size_self (units - 1)
    omega
  exact hceil.trans (Nat.mul_le_mul_right _ hpow)

variable {F K : Type}

namespace MultimodalDataItem

variable (item : MultimodalDataItem F)

def patches : Nat := item.feature.length

/-- `sum(end - start for start, end in item.placeholder_ranges or ())` -/
def placeholderTokens : Nat := ((item.placeholderRanges.getD []).map PlaceholderRange.size).sum

theorem placeholderTokens_eq : item.placeholderTokens = item.positions.length := by
  rw [placeholderTokens, positions, List.length_flatMap]
  simp

end MultimodalDataItem

/-- The body of the loop of `_validate_vision_items`. -/
def validateVisionItem (mergeUnit itemIndex : Nat) (item : MultimodalDataItem F)
    (outputLength : Nat) : Except MultimodalError Unit :=
  match item.gridThw with
  | none => .error .shapeError
  | some grid =>
    if item.patches ≠ gridPatches grid ∨ item.patches % mergeUnit ≠ 0 then
      .error (.visionPatchCounts itemIndex item.patches (gridPatches grid))
    else if item.placeholderTokens ≠ outputLength then
      .error (.visionPlaceholders itemIndex item.placeholderTokens outputLength)
    else if ¬ (0 < outputLength ∧ outputLength ≤ item.patches / mergeUnit) then
      .error (.visionOutputLength itemIndex outputLength (item.patches / mergeUnit))
    else .ok ()

/-- `_validate_vision_items`, from an index on. -/
def validateVisionItems (mergeUnit : Nat) :
    Nat → List (MultimodalDataItem F × Nat) → Except MultimodalError Unit
  | _, [] => .ok ()
  | itemIndex, (item, outputLength) :: rest => do
    validateVisionItem mergeUnit itemIndex item outputLength
    validateVisionItems mergeUnit (itemIndex + 1) rest

/-- What an item declares where no output lengths are given. -/
def declaredLengths (mergeUnit : Nat) (items : List (MultimodalDataItem F))
    (outputLengths : Option (List Nat)) : List Nat :=
  outputLengths.getD (items.map fun item => item.patches / mergeUnit)

/-- The copy of a lane: its items one after the other. -/
def copyFeatures : List (MultimodalDataItem F) → Nat → List F → List F
  | [], _, row => row
  | item :: items, inputOffset, row =>
    copyFeatures items (inputOffset + item.patches) (assign row inputOffset item.feature)

def laneLoad (lane : List (MultimodalDataItem F)) : Nat :=
  (lane.map MultimodalDataItem.patches).sum

def maxLoad (itemsPerLane : List (List (MultimodalDataItem F))) : Nat :=
  (itemsPerLane.map laneLoad).foldr max 0

/-- The features of each lane, and the capacity. -/
def packLanes [Zero F] (itemsPerLane : List (List (MultimodalDataItem F))) (mergeUnit : Nat)
    (outputLengths : Option (List Nat)) : Except MultimodalError (List (List F) × Nat) :=
  let items := itemsPerLane.flatten
  let declared := declaredLengths mergeUnit items outputLengths
  if items.isEmpty then .error .emptyPacking
  else if declared.length ≠ items.length ∨
      ∃ p ∈ items.zip declared, p.2 = 0 ∨ p.1.patches / mergeUnit < p.2 then
    .error .outputTokens
  else do
    let cap ← bucketCapacity (maxLoad itemsPerLane) mergeUnit
    return (itemsPerLane.map fun lane => copyFeatures lane 0 (List.replicate cap 0), cap)

/-- The grids of a lane, filled up with zeros. -/
def laneGrids (width : Nat) (lane : List (MultimodalDataItem F)) : List Grid :=
  let grids := lane.filterMap MultimodalDataItem.gridThw
  grids ++ List.replicate (width - grids.length) (0, 0, 0)

structure PackedVision (F : Type) where
  features : List (List F)
  capacity : Nat
  gridThw : List (List Grid)

def packVisionInputs [Zero F] (itemsPerLane : List (List (MultimodalDataItem F)))
    (mergeUnit : Nat) (outputLengths : Option (List Nat)) :
    Except MultimodalError (PackedVision F) := do
  let items := itemsPerLane.flatten
  validateVisionItems mergeUnit 0 (items.zip (declaredLengths mergeUnit items outputLengths))
  let (features, capacity) ← packLanes itemsPerLane mergeUnit outputLengths
  return ⟨features, capacity,
    itemsPerLane.map (laneGrids ((itemsPerLane.map List.length).foldr max 0))⟩

/-- An encoder with its metadata: features and grids of the lanes go in, rows of the lanes
come out. -/
structure VisionEncoder (F K : Type) where
  mergeUnit : Nat
  mergeUnit_pos : 0 < mergeUnit
  numLanes : Nat
  hidden : Nat
  poolTemporalDimension : Bool
  apply : PackedVision F → List (List (List K))
  length_row : ∀ inputs, ∀ lane ∈ apply inputs, ∀ row ∈ lane, row.length = hidden

namespace VisionEncoder

variable (enc : VisionEncoder F K)

/-- The output tokens of an item, which are fewer where frames are pooled. -/
def outputLength (grid : Grid) : Nat :=
  if enc.poolTemporalDimension then grid.2.1 * grid.2.2 / enc.mergeUnit
  else gridPatches grid / enc.mergeUnit

/-- The output lengths that are given where frames are pooled. -/
def outputLengths (items : List (MultimodalDataItem F)) :
    Except MultimodalError (Option (List Nat)) :=
  if enc.poolTemporalDimension then do
    let lengths ← items.mapM fun item => match item.gridThw with
      | some grid => .ok (grid.2.1 * grid.2.2 / enc.mergeUnit)
      | none => .error .shapeError
    return some lengths
  else .ok none

/-- `output.reshape(-1, output.shape[-1])` -/
def flattened (inputs : PackedVision F) : Mat K where
  cols := enc.hidden
  rows := (enc.apply inputs).flatten
  length_row := by
    intro row hrow
    obtain ⟨lane, hlane, hrow⟩ := List.mem_flatten.mp hrow
    exact enc.length_row inputs lane hlane row hrow

def runMropeVisionModel [Zero F] (itemsPerLane : List (List (MultimodalDataItem F))) :
    Except MultimodalError (Mat K) :=
  if itemsPerLane.length ≠ enc.numLanes then .error .laneTopology
  else do
    let outputLengths ← enc.outputLengths itemsPerLane.flatten
    let inputs ← packVisionInputs itemsPerLane enc.mergeUnit outputLengths
    return enc.flattened inputs

/-- The items that the encoder takes. -/
structure Serves (item : MultimodalDataItem F) (grid : Grid) : Prop where
  gridThw : item.gridThw = some grid
  patches : item.patches = gridPatches grid
  dvd : item.patches % enc.mergeUnit = 0
  placeholders : item.positions.length = enc.outputLength grid
  pos : 0 < enc.outputLength grid
  le : enc.outputLength grid ≤ item.patches / enc.mergeUnit

end VisionEncoder

theorem copyFeatures_eq (lane : List (MultimodalDataItem F)) {row : List F} {inputOffset : Nat}
    (h : inputOffset + laneLoad lane ≤ row.length) :
    copyFeatures lane inputOffset row = row.take inputOffset ++
      lane.flatMap MultimodalDataItem.feature ++ row.drop (inputOffset + laneLoad lane) := by
  induction lane generalizing row inputOffset with
  | nil => simp [copyFeatures, laneLoad]
  | cons item lane ih =>
    have hload : laneLoad (item :: lane) = item.patches + laneLoad lane := by simp [laneLoad]
    have hpatches : item.patches = item.feature.length := rfl
    have hfront : (row.take inputOffset ++ item.feature).length = inputOffset + item.patches := by
      rw [List.length_append, List.length_take, hpatches]
      omega
    have hlen : (assign row inputOffset item.feature).length = row.length :=
      length_assign (by omega)
    rw [copyFeatures, ih (by omega), hload, List.flatMap_cons, assign, List.take_left' hfront,
      ← List.drop_drop, List.drop_left' hfront, ← hpatches, List.drop_drop, Nat.add_assoc]
    simp only [List.append_assoc]

theorem laneLoad_le_maxLoad {itemsPerLane : List (List (MultimodalDataItem F))}
    {lane : List (MultimodalDataItem F)} (h : lane ∈ itemsPerLane) :
    laneLoad lane ≤ maxLoad itemsPerLane := by
  induction itemsPerLane with
  | nil => cases h
  | cons other lanes ih =>
    have hmax : maxLoad (other :: lanes) = max (laneLoad other) (maxLoad lanes) := rfl
    rw [hmax]
    rcases List.mem_cons.mp h with rfl | h
    · exact le_max_left _ _
    · exact (ih h).trans (le_max_right _ _)

theorem validateVisionItem_ok {mergeUnit itemIndex outputLength : Nat}
    {item : MultimodalDataItem F} :
    validateVisionItem mergeUnit itemIndex item outputLength = .ok () ↔
      ∃ grid, item.gridThw = some grid ∧ item.patches = gridPatches grid ∧
        item.patches % mergeUnit = 0 ∧ item.positions.length = outputLength ∧
        0 < outputLength ∧ outputLength ≤ item.patches / mergeUnit := by
  unfold validateVisionItem
  cases item.gridThw with
  | none => simp
  | some grid =>
    rw [item.placeholderTokens_eq]
    simp only [Option.some.injEq, exists_eq_left']
    split
    · next h => simp only [reduceCtorEq, false_iff]; tauto
    · next h =>
      split
      · next h' => simp only [reduceCtorEq, false_iff]; tauto
      · next h' =>
        split
        · next h'' => simp only [reduceCtorEq, false_iff]; tauto
        · simp only [true_iff]
          tauto

theorem validateVisionItems_ok {mergeUnit itemIndex : Nat}
    {pairs : List (MultimodalDataItem F × Nat)} :
    validateVisionItems mergeUnit itemIndex pairs = .ok () ↔
      ∀ p ∈ pairs, validateVisionItem mergeUnit 0 p.1 p.2 = .ok () := by
  induction pairs generalizing itemIndex with
  | nil => simp [validateVisionItems]
  | cons p pairs ih =>
    have hindex : validateVisionItem mergeUnit itemIndex p.1 p.2 = .ok () ↔
        validateVisionItem mergeUnit 0 p.1 p.2 = .ok () := by
      rw [validateVisionItem_ok, validateVisionItem_ok]
    rw [List.forall_mem_cons, ← hindex, ← ih]
    exact bind_eq_ok.trans ⟨fun ⟨_, h, h'⟩ => ⟨h, h'⟩, fun ⟨h, h'⟩ => ⟨(), h, h'⟩⟩

namespace VisionEncoder

variable {enc : VisionEncoder F K}

/-- The output length that an item declares. -/
def declared (enc : VisionEncoder F K) (item : MultimodalDataItem F) : Nat :=
  if enc.poolTemporalDimension then
    (item.gridThw.map fun grid => grid.2.1 * grid.2.2 / enc.mergeUnit).getD 0
  else item.patches / enc.mergeUnit

theorem declaredLengths_eq {items : List (MultimodalDataItem F)} {lengths : Option (List Nat)}
    (h : enc.outputLengths items = .ok lengths) :
    declaredLengths enc.mergeUnit items lengths = items.map enc.declared := by
  unfold outputLengths at h
  by_cases hpool : enc.poolTemporalDimension
  · rw [if_pos hpool] at h
    obtain ⟨values, hvalues, hlengths⟩ := bind_eq_ok.mp h
    cases hlengths
    rw [declaredLengths, Option.getD_some]
    clear h
    induction items generalizing values with
    | nil =>
      cases hvalues
      rfl
    | cons item items ih =>
      rw [List.mapM_cons] at hvalues
      obtain ⟨value, hvalue, hvalues⟩ := bind_eq_ok.mp hvalues
      obtain ⟨rest, hrest, hvalues⟩ := bind_eq_ok.mp hvalues
      cases hvalues
      rw [ih rest hrest, List.map_cons]
      congr 1
      cases hgrid : item.gridThw with
      | none => simp [hgrid] at hvalue
      | some grid =>
        rw [hgrid] at hvalue
        cases hvalue
        rw [declared, if_pos hpool, hgrid]
        rfl
  · rw [if_neg hpool] at h
    cases h
    rw [declaredLengths, Option.getD_none]
    exact List.map_congr_left fun item _ => (if_neg hpool).symm

theorem outputLengths_ok {items : List (MultimodalDataItem F)}
    (h : ∀ item ∈ items, ∃ grid, item.gridThw = some grid) :
    ∃ lengths, enc.outputLengths items = .ok lengths := by
  unfold outputLengths
  split
  · refine ⟨some (items.map fun item => (item.gridThw.map fun grid =>
      grid.2.1 * grid.2.2 / enc.mergeUnit).getD 0), ?_⟩
    rw [mapM_eq_ok (g := fun item => (item.gridThw.map fun grid =>
      grid.2.1 * grid.2.2 / enc.mergeUnit).getD 0) fun item hitem => ?_]
    · rfl
    · obtain ⟨grid, hgrid⟩ := h item hitem
      rw [hgrid]
      rfl
  · exact ⟨none, rfl⟩

/-- The items that pass the checks are those that the encoder serves. -/
theorem validate_declared {item : MultimodalDataItem F} :
    validateVisionItem enc.mergeUnit 0 item (enc.declared item) = .ok () ↔
      ∃ grid, enc.Serves item grid := by
  have hdeclared {grid : Grid} (hgrid : item.gridThw = some grid)
      (hpatches : item.patches = gridPatches grid) :
      enc.declared item = enc.outputLength grid := by
    simp [declared, outputLength, hgrid, hpatches]
  rw [validateVisionItem_ok]
  refine exists_congr fun grid => ?_
  constructor
  · rintro ⟨hgrid, hpatches, hdvd, hplaceholders, hpos, hle⟩
    rw [hdeclared hgrid hpatches] at hplaceholders hpos hle
    exact ⟨hgrid, hpatches, hdvd, hplaceholders, hpos, hle⟩
  · intro h
    rw [hdeclared h.gridThw h.patches]
    exact ⟨h.gridThw, h.patches, h.dvd, h.placeholders, h.pos, h.le⟩

theorem validate_items {items : List (MultimodalDataItem F)} :
    validateVisionItems enc.mergeUnit 0 (items.zip (items.map enc.declared)) = .ok () ↔
      ∀ item ∈ items, ∃ grid, enc.Serves item grid := by
  have hzip : items.zip (items.map enc.declared) =
      items.map fun item => (item, enc.declared item) := by
    induction items with
    | nil => rfl
    | cons item items ih => rw [List.map_cons, List.zip_cons_cons, ih, List.map_cons]
  rw [validateVisionItems_ok, hzip, List.forall_mem_map]
  simp only [validate_declared]

/-- What the encoder reads: the items of a lane one after the other, then zeros. -/
def inputs [Zero F] (lanes : List (List (MultimodalDataItem F))) (capacity : Nat) :
    PackedVision F where
  features := lanes.map fun lane => lane.flatMap MultimodalDataItem.feature ++
    List.replicate (capacity - laneLoad lane) 0
  capacity := capacity
  gridThw := lanes.map (laneGrids ((lanes.map List.length).foldr max 0))

variable [Zero F] {lanes : List (List (MultimodalDataItem F))}

theorem packLanes_served {lengths : Option (List Nat)}
    (hlengths : declaredLengths enc.mergeUnit lanes.flatten lengths =
      lanes.flatten.map enc.declared)
    (hserves : ∀ item ∈ lanes.flatten, ∃ grid, enc.Serves item grid) {cap : Nat}
    (hcap : bucketCapacity (maxLoad lanes) enc.mergeUnit = .ok cap) (hle : maxLoad lanes ≤ cap) :
    packLanes lanes enc.mergeUnit lengths =
      if lanes.flatten = [] then .error .emptyPacking
      else .ok ((inputs lanes cap).features, cap) := by
  by_cases hempty : lanes.flatten = []
  · rw [if_pos hempty]
    exact if_pos (by rw [hempty]; rfl)
  · rw [if_neg hempty]
    unfold packLanes
    rw [if_neg (by rwa [List.isEmpty_iff]), hlengths, if_neg, hcap, ok_bind]
    · have hfeatures : (lanes.map fun lane => copyFeatures lane 0 (List.replicate cap 0)) =
          (inputs lanes cap).features := by
        apply List.map_congr_left
        intro lane hlane
        have hload := (laneLoad_le_maxLoad hlane).trans hle
        rw [copyFeatures_eq lane (by simpa using hload), List.take_zero, List.nil_append,
          Nat.zero_add, List.drop_replicate]
      rw [hfeatures]
      rfl
    · rintro (hne | ⟨p, hp, hbad⟩)
      · exact hne (List.length_map _)
      · obtain ⟨i, hi⟩ := List.mem_iff_getElem?.mp hp
        obtain ⟨hitem, hlength⟩ := List.getElem?_zip_eq_some.mp hi
        rw [List.getElem?_map, hitem, Option.map_some] at hlength
        obtain ⟨grid, hgrid⟩ := hserves p.1 (List.mem_of_getElem? hitem)
        obtain ⟨_, _, _, _, _, hpos, hbound⟩ :=
          validateVisionItem_ok.mp (validate_declared.mpr ⟨grid, hgrid⟩)
        rw [Option.some.inj hlength] at hpos hbound
        omega

/-- The encoder runs when the lanes are its own, some item is there, and it serves them all. -/
theorem run_eq_ok {packed : Mat K} : enc.runMropeVisionModel lanes = .ok packed ↔
    lanes.length = enc.numLanes ∧ lanes.flatten ≠ [] ∧
      (∀ item ∈ lanes.flatten, ∃ grid, enc.Serves item grid) ∧
      ∃ cap, bucketCapacity (maxLoad lanes) enc.mergeUnit = .ok cap ∧
        packed = enc.flattened (inputs lanes cap) := by
  obtain ⟨cap, hcap, hle, -⟩ := bucketCapacity_spec (maxLoad lanes) enc.mergeUnit_pos
  unfold runMropeVisionModel
  by_cases hcount : lanes.length = enc.numLanes
  swap
  · simp [hcount]
  rw [if_neg (not_not_intro hcount)]
  simp only [hcount, true_and, hcap, Except.ok.injEq, exists_eq_left']
  constructor
  · intro h
    obtain ⟨lengths, hlengths, h⟩ := bind_eq_ok.mp h
    obtain ⟨packedInputs, hpack, h⟩ := bind_eq_ok.mp h
    obtain ⟨_, hvalid, hpack⟩ := bind_eq_ok.mp hpack
    obtain ⟨packedLanes, hlanes, hpack⟩ := bind_eq_ok.mp hpack
    rw [declaredLengths_eq hlengths] at hvalid
    have hserves := validate_items.mp hvalid
    rw [packLanes_served (declaredLengths_eq hlengths) hserves hcap hle] at hlanes
    by_cases hempty : lanes.flatten = []
    · rw [if_pos hempty] at hlanes
      cases hlanes
    · rw [if_neg hempty] at hlanes
      cases hlanes
      cases hpack
      cases h
      exact ⟨hempty, hserves, rfl⟩
  · rintro ⟨hne, hserves, rfl⟩
    obtain ⟨lengths, hlengths⟩ := enc.outputLengths_ok fun item hitem =>
      (hserves item hitem).imp fun _ hg => hg.gridThw
    have hvalid := validate_items.mpr hserves
    rw [← declaredLengths_eq hlengths] at hvalid
    rw [hlengths, ok_bind]
    simp only [packVisionInputs, hvalid, ok_bind,
      packLanes_served (declaredLengths_eq hlengths) hserves hcap hle, if_neg hne]
    rfl

end VisionEncoder

end SglJax.Multimodal
