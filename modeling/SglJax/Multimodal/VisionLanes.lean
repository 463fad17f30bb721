import SglJax.Multimodal.EncoderLanes
import SglJax.Multimodal.LanePacking

/-! A vision encoder works on each item of a lane by itself. Packed into lanes, the items come
out where the host looks for them. -/
namespace SglJax.Multimodal

open Lora (Mat)
open Foundation

variable {F K : Type} [Zero F] {enc : VisionEncoder F K}
  {itemRows : List F → Grid → List (List K)}

/-- The lanes of an encoder have a common capacity, and a lane has its items from the start
on, as its grids say. The rows of an item depend on nothing but the item. -/
structure SegmentLocal (enc : VisionEncoder F K) (itemRows : List F → Grid → List (List K)) :
    Prop where
  length : ∀ features grid, features.length = gridPatches grid → enc.mergeUnit ∣ features.length →
    (itemRows features grid).length = enc.outputLength grid
  count : ∀ inputs, (∀ lane ∈ inputs.features, lane.length = inputs.capacity) →
    enc.mergeUnit ∣ inputs.capacity → (enc.apply inputs).length = inputs.features.length ∧
      ∀ lane ∈ enc.apply inputs, lane.length = inputs.capacity / enc.mergeUnit
  lane : ∀ inputs, (∀ lane ∈ inputs.features, lane.length = inputs.capacity) →
    enc.mergeUnit ∣ inputs.capacity →
    ∀ (i : Nat) (segments : List (List F × Grid)) (padding : List F) (n : Nat),
    inputs.features[i]? = some (segments.flatMap Prod.fst ++ padding) →
    inputs.gridThw[i]? = some (segments.map Prod.snd ++ List.replicate n (0, 0, 0)) →
    (∀ s ∈ segments, 0 < s.1.length ∧ s.1.length = gridPatches s.2 ∧
      enc.mergeUnit ∣ s.1.length) →
    ∃ lane, (enc.apply inputs)[i]? = some lane ∧
      segments.flatMap (fun s => itemRows s.1 s.2) <+: lane

/-- The rows of an item, wherever it was packed. -/
def itemOutput (itemRows : List F → Grid → List (List K)) (item : MultimodalDataItem F) :
    List (List K) :=
  itemRows item.feature (item.gridThw.getD (0, 0, 0))

namespace VisionEncoder

variable {lanes : List (List (MultimodalDataItem F))}

omit [Zero F] in
theorem Serves.segment {item : MultimodalDataItem F} {grid : Grid} (h : enc.Serves item grid) :
    0 < item.feature.length ∧ item.feature.length = gridPatches grid ∧
      enc.mergeUnit ∣ item.feature.length := by
  refine ⟨?_, h.patches, Nat.dvd_of_mod_eq_zero h.dvd⟩
  by_contra hzero
  have hpatches : item.patches = 0 := Nat.eq_zero_of_not_pos hzero
  have hle := h.le
  rw [hpatches, Nat.zero_div] at hle
  exact absurd h.pos (Nat.not_lt.mpr hle)

omit [Zero F] in
theorem Serves.length_output (hlocal : SegmentLocal enc itemRows) {item : MultimodalDataItem F}
    {grid : Grid} (h : enc.Serves item grid) :
    (itemOutput itemRows item).length = item.positions.length := by
  rw [itemOutput, h.gridThw, Option.getD_some, h.placeholders]
  exact hlocal.length _ _ h.segment.2.1 h.segment.2.2

/-- The features of a lane, cut into its items. -/
def segmentsOf (lane : List (MultimodalDataItem F)) : List (List F × Grid) :=
  lane.map fun item => (item.feature, item.gridThw.getD (0, 0, 0))

/-- The output of packed lanes. -/
theorem packsLanes (hlocal : SegmentLocal enc itemRows)
    (hserves : ∀ item ∈ lanes.flatten, ∃ grid, enc.Serves item grid) {cap : Nat}
    (hle : maxLoad lanes ≤ cap) (hdvd : enc.mergeUnit ∣ cap) :
    PacksLanes (itemOutput itemRows) (cap / enc.mergeUnit) lanes
      (enc.flattened (inputs lanes cap)) := by
  have hfull : ∀ lane ∈ (inputs lanes cap).features, lane.length = (inputs lanes cap).capacity := by
    intro row hrow
    obtain ⟨lane, hlane, rfl⟩ := List.mem_map.mp hrow
    have hload := (laneLoad_le_maxLoad hlane).trans hle
    have hfeatures : (lane.flatMap MultimodalDataItem.feature).length = laneLoad lane :=
      List.length_flatMap
    rw [List.length_append, List.length_replicate, hfeatures]
    exact Nat.add_sub_cancel' hload
  obtain ⟨hcount, hlength⟩ := hlocal.count _ hfull hdvd
  have hlane (i : Nat) (lane : List (MultimodalDataItem F)) (hget : lanes[i]? = some lane) :
      ∃ rows, (enc.apply (inputs lanes cap))[i]? = some rows ∧
        lane.flatMap (itemOutput itemRows) <+: rows := by
    have hmem : ∀ item ∈ lane, ∃ grid, enc.Serves item grid := fun item hitem =>
      hserves item (List.mem_flatten.mpr ⟨lane, List.mem_of_getElem? hget, hitem⟩)
    have hgrids : lane.filterMap MultimodalDataItem.gridThw = (segmentsOf lane).map Prod.snd := by
      rw [segmentsOf, List.map_map, ← List.filterMap_eq_map]
      apply List.filterMap_congr
      intro item hitem
      obtain ⟨grid, hgrid⟩ := hmem item hitem
      simp [hgrid.gridThw]
    have hfeatures : lane.flatMap MultimodalDataItem.feature =
        (segmentsOf lane).flatMap Prod.fst := by
      rw [segmentsOf, List.flatMap_map]
    obtain ⟨rows, hrows, hfix⟩ := hlocal.lane _ hfull hdvd i (segmentsOf lane)
      (List.replicate (cap - laneLoad lane) 0) _ (by
        rw [← hfeatures]
        exact (List.getElem?_map ..).trans (by rw [hget]; rfl)) (by
        rw [← hgrids]
        exact (List.getElem?_map ..).trans (by rw [hget]; rfl)) (by
        intro s hs
        obtain ⟨item, hitem, rfl⟩ := List.mem_map.mp hs
        obtain ⟨grid, hgrid⟩ := hmem item hitem
        rw [hgrid.gridThw, Option.getD_some]
        exact hgrid.segment)
    refine ⟨rows, hrows, ?_⟩
    rw [segmentsOf, List.flatMap_map] at hfix
    exact hfix
  have hlanes : (enc.apply (inputs lanes cap)).length = lanes.length := by
    rw [hcount]
    exact List.length_map _
  refine ⟨?_, fun lane hmem => ?_, fun i lane hget r v hv => ?_⟩
  · exact (length_flatten_of_width hlength).trans (by rw [hlanes]; rfl)
  · obtain ⟨i, hget⟩ := List.mem_iff_getElem?.mp hmem
    obtain ⟨rows, hrows, hfix⟩ := hlane i lane hget
    exact hfix.length_le.trans (hlength rows (List.mem_of_getElem? hrows)).le
  · obtain ⟨rows, hrows, rest, hfix⟩ := hlane i lane hget
    have hr := (List.getElem?_eq_some_iff.mp hv).1
    have hfit := hlength rows (List.mem_of_getElem? hrows)
    have hlt : r < cap / enc.mergeUnit := by
      rw [← show rows.length = cap / enc.mergeUnit from hfit, ← hfix, List.length_append]
      omega
    have hflat := getElem?_flatten_of_width hlength hrows hlt
    exact hflat.trans (by rw [← hfix, List.getElem?_append_left hr, hv])

/-- The encoders of a model for images and videos. -/
def encodeFuncs (enc : VisionEncoder F K) : EncodeFuncs F K
  | .image => some enc.runMropeVisionModel
  | .multiImages => some enc.runMropeVisionModel
  | .video => some enc.runMropeVisionModel
  | .audio => none

/-- What the host relies on holds of an encoder that works on each item by itself. -/
theorem encodes (hlocal : SegmentLocal enc itemRows) {servable : MultimodalDataItem F → Prop}
    (hservable : ∀ item, servable item → item.modality ≠ .audio ∧ ∃ grid, enc.Serves item grid) :
    Encodes enc.encodeFuncs servable enc.numLanes enc.hidden (itemOutput itemRows) where
  length := by
    intro item hitem
    obtain ⟨-, grid, hgrid⟩ := hservable item hitem
    exact hgrid.length_output hlocal
  lanes := by
    intro modality lanes hcount hsome hitems
    have hserves : ∀ item ∈ lanes.flatten, ∃ grid, enc.Serves item grid := by
      intro item hitem
      obtain ⟨lane, hlane, hitem⟩ := List.mem_flatten.mp hitem
      exact (hservable item (hitems lane hlane item hitem).1).2
    obtain ⟨lane, hlane, hne⟩ := hsome
    obtain ⟨item, hitem⟩ := List.exists_mem_of_ne_nil lane hne
    have hmem : item ∈ lanes.flatten := List.mem_flatten.mpr ⟨lane, hlane, hitem⟩
    have hmodality : modality ≠ .audio := by
      obtain ⟨hservable', rfl⟩ := hitems lane hlane item hitem
      exact (hservable item hservable').1
    obtain ⟨cap, hcap, hle, hdvd⟩ := bucketCapacity_spec (maxLoad lanes) enc.mergeUnit_pos
    refine ⟨enc.runMropeVisionModel, enc.flattened (inputs lanes cap), cap / enc.mergeUnit, ?_,
      run_eq_ok.mpr ⟨hcount, List.ne_nil_of_mem hmem, hserves, cap, hcap, rfl⟩, rfl,
      packsLanes hlocal hserves hle hdvd⟩
    cases modality <;> first | rfl | exact absurd rfl hmodality

end VisionEncoder

section Patchwise

/-- An encoder of two lanes that maps each patch to two numbers. -/
def patchEncoder : VisionEncoder Nat Nat where
  mergeUnit := 1
  mergeUnit_pos := Nat.one_pos
  numLanes := 2
  hidden := 2
  poolTemporalDimension := false
  apply := fun inputs => inputs.features.map fun lane => lane.map fun patch => [patch, patch + 1]
  length_row := by
    intro inputs lane hlane row hrow
    obtain ⟨features, -, rfl⟩ := List.mem_map.mp hlane
    obtain ⟨patch, -, rfl⟩ := List.mem_map.mp hrow
    rfl

def patchRows (features : List Nat) (_ : Grid) : List (List Nat) :=
  features.map fun patch => [patch, patch + 1]

theorem patchEncoder_local : SegmentLocal patchEncoder patchRows where
  length := by
    intro features grid hlength _
    simp [patchRows, VisionEncoder.outputLength, patchEncoder, hlength]
  count := by
    intro inputs hfull _
    refine ⟨List.length_map _, fun lane hlane => ?_⟩
    obtain ⟨features, hfeatures, rfl⟩ := List.mem_map.mp hlane
    rw [List.length_map, hfull features hfeatures]
    exact (Nat.div_one _).symm
  lane := by
    intro inputs _ _ i segments padding n hfeatures _ _
    refine ⟨_, (List.getElem?_map ..).trans (by rw [hfeatures]; rfl), padding.map fun patch =>
      [patch, patch + 1], ?_⟩
    simp only [List.map_append, List.map_flatMap]
    rfl

/-- A clip of two patches, which stands at positions 1 and 2 of a prompt. -/
def twoPatches : MultimodalDataItem Nat :=
  ⟨.image, 7, some [⟨1, 3, Nat.le_add_right 1 2⟩], [10, 20], some (1, 1, 2)⟩

theorem patchEncoder_serves : patchEncoder.Serves twoPatches (1, 1, 2) :=
  ⟨rfl, rfl, rfl, rfl, by decide, by decide⟩

end Patchwise

end SglJax.Multimodal
