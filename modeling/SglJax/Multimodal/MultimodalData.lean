import SglJax.Foundation.Results
import SglJax.Lora.LoraWeights
import SglJax.MemCache.PageLayout

/-! The media of a request: its items, the tokens that stand for them, and the arrays
their embeddings go through. -/
namespace SglJax.Multimodal

open Lora (Mat)

inductive Modality where
  | image
  | multiImages
  | video
  | audio
deriving DecidableEq, Repr

inductive MultimodalError where
  | keyError
  | indexError
  /-- Arrays whose shapes do not fit. -/
  | shapeError
  /-- `f"item/length count mismatch: {len(item_hashes)} != {len(lengths)}"` -/
  | itemCountMismatch (items lengths : Nat)
  /-- `f"mask/length count mismatch: {len(write_mask)} != {len(lengths)}"` -/
  | maskCountMismatch (masks lengths : Nat)
  /-- `"packed embeddings must have shape "` and the shape -/
  | packedShape (rows cols : Nat)
  /-- `f"invalid item lengths {lengths} for capacity {capacity}"` -/
  | invalidItemLengths (lengths : List Int) (capacity : Nat)
  /-- `"invalid packed source offsets"` -/
  | invalidPackedSourceOffsets
  /-- `"packed writer capacity must be positive"` -/
  | packedWriterCapacity
  /-- `"source offset count must match item count"` -/
  | sourceOffsetCount
  /-- `"multimodal merge slice exceeds the token batch"` -/
  | mergeSliceExceedsBatch
  /-- `f"encoder embeddings must be [capacity, {width}] with capacity >= "` and the shape -/
  | encoderEmbeddingsShape (width capacity : Nat)
  /-- `"invalid encoder item start rows"` -/
  | invalidEncoderItemStartRows
  /-- `f"no embedding function for modality {modality}"` -/
  | noEmbeddingFunction (modality : Modality)
  /-- `"encoder output capacity must be divisible by lane count"` -/
  | capacityNotDivisible
  /-- `"encoder item lengths exceed lane capacity"` -/
  | laneCapacityExceeded
  /-- `"num_encoder_lanes must be positive"` -/
  | lanesNotPositive
  /-- `f"Vision item {item_index} patch counts must match: "` and the two counts -/
  | visionPatchCounts (itemIndex featurePatches gridPatches : Nat)
  /-- `f"Vision item {item_index} placeholder tokens={placeholder_tokens} do not "` and so on -/
  | visionPlaceholders (itemIndex placeholderTokens outputLength : Nat)
  /-- `f"Vision item {item_index} output length={output_length} must be in "` and the bound -/
  | visionOutputLength (itemIndex outputLength bound : Nat)
  /-- `"patch count must be nonnegative and merge unit positive"` -/
  | patchCount
  /-- `"cannot pack an empty multimodal batch"` -/
  | emptyPacking
  /-- `"Each item must declare 1..patch_count/merge_unit output tokens"` -/
  | outputTokens
  /-- `"item lane count does not match the encoder topology"` -/
  | laneTopology
deriving DecidableEq, Repr

/-- `[start, end)` of the tokens of a prompt. -/
structure PlaceholderRange where
  start : Nat
  stop : Nat
  le : start ≤ stop

namespace PlaceholderRange

variable (r : PlaceholderRange)

def size : Nat := r.stop - r.start

def positions : List Nat := List.range' r.start r.size

@[simp] theorem length_positions : r.positions.length = r.size := by
  simp [positions]

theorem getElem?_positions {i p : Nat} :
    r.positions[i]? = some p ↔ i < r.size ∧ p = r.start + i := by
  rw [positions]
  by_cases h : i < r.size
  · simp [h, eq_comm]
  · simp [h]

theorem mem_positions {p : Nat} : p ∈ r.positions ↔ r.start ≤ p ∧ p < r.stop := by
  have := r.le
  simp only [positions, List.mem_range'_1, size]
  omega

end PlaceholderRange

variable {F : Type}

/-- Frames, and rows and columns of patches. -/
abbrev Grid := Nat × Nat × Nat

/-- `feature` is held by its rows along the first axis, and `hash` is the one that
`set_pad_value` computes where the item has none. `gridThw` is the `image_grid_thw`, or the
`video_grid_thw`. -/
structure MultimodalDataItem (F : Type) where
  modality : Modality
  hash : Int
  placeholderRanges : Option (List PlaceholderRange)
  feature : List F
  gridThw : Option Grid

/-- The positions of the prompt that stand for the item's rows, in the order of the rows. -/
def MultimodalDataItem.positions (item : MultimodalDataItem F) : List Nat :=
  (item.placeholderRanges.getD []).flatMap PlaceholderRange.positions

end SglJax.Multimodal
