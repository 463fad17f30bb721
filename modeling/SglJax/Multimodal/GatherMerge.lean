import SglJax.Foundation.Results
import SglJax.Multimodal.EmbeddingPool
import SglJax.Multimodal.ItemTasks

/-! Rows of an encoder's output, or of the embedding pool, laid over the rows of the token
batch. An index of the source row and a mask are built for all tokens first. -/
namespace SglJax.Multimodal

open Lora (Mat)
open Foundation

structure GatherIndices where
  posIdx : List Nat
  mask : List Bool
deriving DecidableEq, Repr

/-- Where the rows of a source stand: the flat row of each row of an item. -/
abbrev RowOf := Nat → Except MultimodalError Nat

/-- The loops of `build_gather_indices` and `_build_pool_gather_indices`, over the mappings of
all tasks. -/
def placeMappings (numTokens : Nat) : List (RowOf × MergeMapping) → GatherIndices →
    Except MultimodalError GatherIndices
  | [], indices => .ok indices
  | (rowOf, m) :: rest, indices =>
    if numTokens < m.destinationStart + m.length then .error .mergeSliceExceedsBatch
    else do
      let rows ← (List.range m.length).mapM fun i => rowOf (m.sourceStart + i)
      placeMappings numTokens rest
        { posIdx := assign indices.posIdx m.destinationStart rows
          mask := assign indices.mask m.destinationStart (List.replicate m.length true) }

/-- `np.zeros` for both. -/
def GatherIndices.zeros (numTokens : Nat) : GatherIndices where
  posIdx := List.replicate numTokens 0
  mask := List.replicate numTokens false

variable {F K : Type}

def taskMappings (tasks : List (RowOf × ItemTask F)) : List (RowOf × MergeMapping) :=
  tasks.flatMap fun t => t.2.mergeMappings.map fun m => (t.1, m)

/-- The rows of an item that begins at `source_offset`. -/
def rowsFrom (sourceOffset : Nat) : RowOf := fun row => .ok (sourceOffset + row)

/-- The tasks with their places: the given ones, or one after the other. -/
def placedTasks : Nat → List (ItemTask F) → Option (List Nat) → List (RowOf × ItemTask F)
  | _, [], _ => []
  | sourceOffset, task :: tasks, none =>
    (rowsFrom sourceOffset, task) :: placedTasks (sourceOffset + task.outputLen) tasks none
  | _, task :: tasks, some (start :: offsets) =>
    (rowsFrom start, task) :: placedTasks (start + task.outputLen) tasks (some offsets)
  | _, _ :: _, some [] => []

def buildGatherIndices (tasks : List (ItemTask F)) (numTokens : Nat)
    (itemOffsets : Option (List Nat)) : Except MultimodalError GatherIndices :=
  if ∃ offsets ∈ itemOffsets, offsets.length ≠ tasks.length then .error .sourceOffsetCount
  else placeMappings numTokens (taskMappings (placedTasks 0 tasks itemOffsets)) (.zeros numTokens)

/-- `_build_pool_gather_indices` -/
def buildPoolGatherIndices (tasks : List (ItemTask F)) (entries : List EmbeddingPoolEntry)
    (pageSize numTokens : Nat) : Except MultimodalError GatherIndices :=
  placeMappings numTokens
    (taskMappings ((entries.zip tasks).map fun p => (p.1.slot pageSize, p.2))) (.zeros numTokens)

section Gather

variable [Zero K]

/-- An index past the end is clamped. -/
def sourceRow (source : Mat K) (row : Nat) : List K :=
  source.rows.getD (min row (source.rows.length - 1)) (List.replicate source.cols 0)

theorem length_sourceRow (source : Mat K) (row : Nat) :
    (sourceRow source row).length = source.cols := by
  unfold sourceRow
  rw [List.getD_eq_getElem?_getD]
  cases hget : source.rows[min row (source.rows.length - 1)]? with
  | none => simp
  | some values => exact source.length_row values (List.mem_of_getElem? hget)

theorem sourceRow_eq {source : Mat K} {row : Nat} {values : List K}
    (h : source.rows[row]? = some values) : sourceRow source row = values := by
  have hlt := (List.getElem?_eq_some_iff.mp h).1
  rw [sourceRow, Nat.min_eq_left (by omega), List.getD_eq_getElem?_getD, h, Option.getD_some]

/-- `gather_overlay` -/
def gatherOverlay (running source : Mat K) (indices : GatherIndices)
    (h : source.cols = running.cols) : Mat K where
  cols := running.cols
  rows := (running.rows.zip (indices.mask.zip indices.posIdx)).map fun p =>
    if p.2.1 then sourceRow source p.2.2 else p.1
  length_row := by
    intro row hrow
    obtain ⟨p, hp, rfl⟩ := List.mem_map.mp hrow
    split
    · rw [length_sourceRow, h]
    · exact running.length_row p.1 (List.of_mem_zip hp).1

def applyGather (running source : Mat K) (indices : GatherIndices) :
    Except MultimodalError (Mat K) :=
  if indices.mask.any id then
    if h : source.cols = running.cols then .ok (gatherOverlay running source indices h)
    else .error .shapeError
  else .ok running

def gatherMerge (tokenEmbeddings encoderEmbeddings : Mat K) (mergeTasks : List (ItemTask F))
    (itemOffsets : Option (List Nat)) : Except MultimodalError (Mat K) :=
  let width := tokenEmbeddings.cols
  let capacity := (mergeTasks.map ItemTask.outputLen).sum
  if encoderEmbeddings.cols ≠ width ∨ encoderEmbeddings.rows.length < capacity then
    .error (.encoderEmbeddingsShape width capacity)
  else if ∃ offsets ∈ itemOffsets, offsets.length ≠ mergeTasks.length ∨
      ∃ p ∈ offsets.zip mergeTasks, encoderEmbeddings.rows.length < p.1 + p.2.outputLen then
    .error .invalidEncoderItemStartRows
  else do
    let indices ← buildGatherIndices mergeTasks tokenEmbeddings.rows.length itemOffsets
    applyGather tokenEmbeddings encoderEmbeddings indices

/-- `_gather_from_pool` -/
def gatherFromPool (running : Mat K) (pool : EmbeddingPool K) (tasks : List (ItemTask F))
    (entries : List EmbeddingPoolEntry) : Except MultimodalError (Mat K) := do
  let indices ← buildPoolGatherIndices tasks entries pool.pageSize running.rows.length
  applyGather running pool.pages indices

end Gather

/-- The arrays have an index and a mask for each token. -/
structure GatherIndices.Sized (indices : GatherIndices) (numTokens : Nat) : Prop where
  posIdx : indices.posIdx.length = numTokens
  mask : indices.mask.length = numTokens

theorem GatherIndices.zeros_sized (numTokens : Nat) :
    (GatherIndices.zeros numTokens).Sized numTokens where
  posIdx := List.length_replicate
  mask := List.length_replicate

/-- Token `d` is masked where `covered` holds, and then the index has the property `P`. -/
def GatherIndices.At (indices : GatherIndices) (d : Nat) (covered : Prop) (P : Nat → Prop) :
    Prop :=
  ∃ m r, indices.mask[d]? = some m ∧ indices.posIdx[d]? = some r ∧ (m = true ↔ covered) ∧
    (m = true → P r)

/-- The rows of one mapping. -/
theorem GatherIndices.At.assign {indices : GatherIndices} {numTokens d : Nat} {covered : Prop}
    {P : Nat → Prop} (hsized : indices.Sized numTokens) (hat : indices.At d covered P)
    {rowOf : RowOf} {m : MergeMapping} (hfits : m.destinationStart + m.length ≤ numTokens)
    {row : Nat → Nat} (hrow : ∀ i < m.length, rowOf (m.sourceStart + i) = .ok (row i))
    (hP : ∀ k r, m.Lands d k → rowOf k = .ok r → P r) :
    GatherIndices.At
      { posIdx := Foundation.assign indices.posIdx m.destinationStart
          ((List.range m.length).map row)
        mask := Foundation.assign indices.mask m.destinationStart
          (List.replicate m.length true) }
      d (covered ∨ ∃ k, m.Lands d k) P := by
  obtain ⟨mask, r, hmask, hpos, hiff, hprop⟩ := hat
  have hposIdx : m.destinationStart + ((List.range m.length).map row).length ≤
      indices.posIdx.length := by simpa [hsized.posIdx] using hfits
  have hmasks : m.destinationStart + (List.replicate m.length true).length ≤
      indices.mask.length := by simpa [hsized.mask] using hfits
  by_cases hd : m.destinationStart ≤ d ∧ d < m.destinationStart + m.length
  · have hlt : d - m.destinationStart < m.length := by omega
    refine ⟨true, row (d - m.destinationStart), ?_, ?_, ?_, fun _ => ?_⟩
    · rw [getElem?_assign_of_covers hmasks hd.1 (by simpa using hd.2),
        List.getElem?_replicate_of_lt hlt]
    · rw [getElem?_assign_of_covers hposIdx hd.1 (by simpa using hd.2), List.getElem?_map,
        List.getElem?_range hlt, Option.map_some]
    · simp only [true_iff]
      exact .inr ⟨_, hd.1, hd.2, rfl⟩
    · exact hP _ _ ⟨hd.1, hd.2, rfl⟩ (hrow _ hlt)
  · refine ⟨mask, r, ?_, ?_, ?_, hprop⟩
    · rw [getElem?_assign_of_not_covers hmasks (by simpa using hd), hmask]
    · rw [getElem?_assign_of_not_covers hposIdx (by simpa using hd), hpos]
    · rw [hiff]
      exact ⟨.inl, fun h => h.elim id fun ⟨k, hk⟩ => absurd ⟨hk.1, hk.2.1⟩ hd⟩

/-- The rows that the mappings name are there, and the tokens are in the batch. -/
def Mapped (numTokens : Nat) (p : RowOf × MergeMapping) : Prop :=
  p.2.destinationStart + p.2.length ≤ numTokens ∧
    ∀ i < p.2.length, ∃ r, p.1 (p.2.sourceStart + i) = .ok r

theorem placeMappings_ok {numTokens : Nat} {pairs : List (RowOf × MergeMapping)}
    (hmapped : ∀ p ∈ pairs, Mapped numTokens p) (indices : GatherIndices)
    (hsized : indices.Sized numTokens) :
    ∃ indices', placeMappings numTokens pairs indices = .ok indices' ∧
      ∀ d covered P, indices.At d covered P →
        (∀ p ∈ pairs, ∀ k r, p.2.Lands d k → p.1 k = .ok r → P r) →
        indices'.At d (covered ∨ ∃ p ∈ pairs, ∃ k, p.2.Lands d k) P := by
  induction pairs generalizing indices with
  | nil =>
    refine ⟨indices, rfl, fun d covered P hat _ => ?_⟩
    simpa [GatherIndices.At] using hat
  | cons p pairs ih =>
    obtain ⟨rowOf, m⟩ := p
    obtain ⟨hfits, hrows⟩ := hmapped (rowOf, m) List.mem_cons_self
    choose! row hrow using hrows
    have hmapM : (List.range m.length).mapM (fun i => rowOf (m.sourceStart + i)) =
        .ok ((List.range m.length).map row) :=
      mapM_eq_ok fun i hi => hrow i (List.mem_range.mp hi)
    have hposIdx : m.destinationStart + ((List.range m.length).map row).length ≤
        indices.posIdx.length := by simpa [hsized.posIdx] using hfits
    have hmasks : m.destinationStart + (List.replicate m.length true).length ≤
        indices.mask.length := by simpa [hsized.mask] using hfits
    obtain ⟨indices', hrun, hall⟩ := ih (fun q hq => hmapped q (List.mem_cons_of_mem _ hq))
      { posIdx := Foundation.assign indices.posIdx m.destinationStart
          ((List.range m.length).map row)
        mask := Foundation.assign indices.mask m.destinationStart
          (List.replicate m.length true) }
      ⟨(length_assign hposIdx).trans hsized.posIdx, (length_assign hmasks).trans hsized.mask⟩
    refine ⟨indices', ?_, fun d covered P hat hP => ?_⟩
    · simp only [placeMappings, if_neg (Nat.not_lt.mpr hfits), hmapM, ok_bind, hrun]
    · have hat' := hall d _ P (hat.assign hsized hfits hrow
        fun k r => hP (rowOf, m) List.mem_cons_self k r)
        fun q hq => hP q (List.mem_cons_of_mem _ hq)
      simpa [or_assoc] using hat'

/-- The rows of the tasks lie over `running`: the tokens they do not name keep their row. -/
structure Overlaid (source : Mat K) (tasks : List (RowOf × ItemTask F))
    (running result : Mat K) : Prop where
  cols : result.cols = running.cols
  length : result.rows.length = running.rows.length
  covered : ∀ d v, (∃ t ∈ tasks, ∃ k, Lands t.2.mergeMappings d k) →
    (∀ t ∈ tasks, ∀ k r, Lands t.2.mergeMappings d k → t.1 k = .ok r →
      source.rows[r]? = some v) → result.rows[d]? = some v
  kept : ∀ d, (∀ t ∈ tasks, ∀ k, ¬ Lands t.2.mergeMappings d k) →
    result.rows[d]? = running.rows[d]?

theorem mem_taskMappings {tasks : List (RowOf × ItemTask F)} {p : RowOf × MergeMapping} :
    p ∈ taskMappings tasks ↔ ∃ t ∈ tasks, ∃ m ∈ t.2.mergeMappings, p = (t.1, m) := by
  simp only [taskMappings, List.mem_flatMap, List.mem_map, eq_comm]

theorem lands_iff_taskMappings {tasks : List (RowOf × ItemTask F)} {d : Nat} :
    (∃ p ∈ taskMappings tasks, ∃ k, p.2.Lands d k) ↔
      ∃ t ∈ tasks, ∃ k, Lands t.2.mergeMappings d k := by
  constructor
  · rintro ⟨p, hp, k, hk⟩
    obtain ⟨t, ht, m, hm, rfl⟩ := mem_taskMappings.mp hp
    exact ⟨t, ht, k, m, hm, hk⟩
  · rintro ⟨t, ht, k, m, hm, hk⟩
    exact ⟨(t.1, m), mem_taskMappings.mpr ⟨t, ht, m, hm, rfl⟩, k, hk⟩

section Overlay

variable [Zero K]

theorem getElem?_gatherOverlay {running source : Mat K} {indices : GatherIndices}
    (h : source.cols = running.cols) {d : Nat} {masked : Bool}
    {r : Nat} {row : List K} (hmask : indices.mask[d]? = some masked)
    (hpos : indices.posIdx[d]? = some r) (hrow : running.rows[d]? = some row) :
    (gatherOverlay running source indices h).rows[d]? =
      some (if masked then sourceRow source r else row) := by
  have hzip : (running.rows.zip (indices.mask.zip indices.posIdx))[d]? = some (row, masked, r) :=
    List.getElem?_zip_eq_some.mpr ⟨hrow, List.getElem?_zip_eq_some.mpr ⟨hmask, hpos⟩⟩
  simp only [gatherOverlay, List.getElem?_map, hzip, Option.map_some]

theorem overlay (running source : Mat K) (tasks : List (RowOf × ItemTask F))
    (hcols : source.cols = running.cols)
    (hmapped : ∀ p ∈ taskMappings tasks, Mapped running.rows.length p) :
    ∃ indices result, placeMappings running.rows.length (taskMappings tasks)
        (.zeros running.rows.length) = .ok indices ∧
      applyGather running source indices = .ok result ∧ Overlaid source tasks running result := by
  obtain ⟨indices, hrun, hall⟩ := placeMappings_ok hmapped _
    (GatherIndices.zeros_sized running.rows.length)
  have hzeros (d : Nat) (hd : d < running.rows.length) (P : Nat → Prop) :
      (GatherIndices.zeros running.rows.length).At d False P := by
    refine ⟨false, 0, ?_, ?_, by simp, by simp⟩
    · exact List.getElem?_replicate_of_lt hd
    · exact List.getElem?_replicate_of_lt hd
  have hinside (d : Nat) (h : ∃ t ∈ tasks, ∃ k, Lands t.2.mergeMappings d k) :
      d < running.rows.length := by
    obtain ⟨p, hp, k, hk⟩ := lands_iff_taskMappings.mpr h
    exact hk.2.1.trans_le (hmapped p hp).1
  have hmasked (d : Nat) (hd : d < running.rows.length) (P : Nat → Prop)
      (hP : ∀ t ∈ tasks, ∀ k r, Lands t.2.mergeMappings d k → t.1 k = .ok r → P r) :
      indices.At d (∃ t ∈ tasks, ∃ k, Lands t.2.mergeMappings d k) P := by
    have hat := hall d _ P (hzeros d hd P) fun p hp k r hk hr => by
      obtain ⟨t, ht, m, hm, rfl⟩ := mem_taskMappings.mp hp
      exact hP t ht k r ⟨m, hm, hk⟩ hr
    rwa [false_or, lands_iff_taskMappings] at hat
  refine ⟨indices, ?_⟩
  by_cases hany : indices.mask.any id
  · refine ⟨gatherOverlay running source indices hcols, hrun,
      by rw [applyGather, if_pos hany, dif_pos hcols], rfl, ?_, fun d v hd hv => ?_, fun d hd => ?_⟩
    · have hlen : ∀ d < running.rows.length, (gatherOverlay running source indices hcols).rows[d]?
          ≠ none := by
        intro d hd
        obtain ⟨masked, r, hmask, hpos, -⟩ := hmasked d hd (fun _ => True) (by simp)
        rw [getElem?_gatherOverlay hcols hmask hpos (List.getElem?_eq_getElem hd)]
        simp
      apply le_antisymm
      · simp [gatherOverlay]
      · by_contra hlt
        exact hlen _ (Nat.lt_of_not_le hlt) (List.getElem?_eq_none le_rfl)
    · obtain ⟨masked, r, hmask, hpos, hiff, hprop⟩ := hmasked d (hinside d hd)
        (fun r => source.rows[r]? = some v) hv
      rw [getElem?_gatherOverlay hcols hmask hpos (List.getElem?_eq_getElem (hinside d hd)),
        if_pos (hiff.mpr hd), sourceRow_eq (hprop (hiff.mpr hd))]
    · have hnot : ¬ ∃ t ∈ tasks, ∃ k, Lands t.2.mergeMappings d k := by
        rintro ⟨t, ht, k, hk⟩
        exact hd t ht k hk
      rcases Nat.lt_or_ge d running.rows.length with hlt | hge
      · obtain ⟨masked, r, hmask, hpos, hiff, -⟩ := hmasked d hlt (fun _ => True) (by simp)
        rw [getElem?_gatherOverlay hcols hmask hpos (List.getElem?_eq_getElem hlt),
          if_neg (fun h => hnot (hiff.mp h)), List.getElem?_eq_getElem hlt]
      · rw [List.getElem?_eq_none hge, List.getElem?_eq_none]
        refine le_trans ?_ hge
        simp [gatherOverlay]
  · refine ⟨running, hrun, by rw [applyGather, if_neg hany], rfl, rfl, fun d v hd hv => ?_,
      fun d _ => rfl⟩
    obtain ⟨masked, r, hmask, -, hiff, -⟩ := hmasked d (hinside d hd) (fun _ => True) (by simp)
    rw [hiff.mpr hd] at hmask
    exact absurd (List.any_eq_true.mpr ⟨true, List.mem_of_getElem? hmask, rfl⟩) hany

end Overlay

/-- The rows of the items lie over `running`: where one row `v` is meant for a token it stands
there, and a token that no task names keeps its row. -/
structure Merged (out : MultimodalDataItem F → List (List K)) (tasks : List (ItemTask F))
    (running result : Mat K) : Prop where
  cols : result.cols = running.cols
  length : result.rows.length = running.rows.length
  covered : ∀ d v, (∃ task ∈ tasks, ∃ k, Lands task.mergeMappings d k) →
    (∀ task ∈ tasks, ∀ k, Lands task.mergeMappings d k → (out task.item)[k]? = some v) →
    result.rows[d]? = some v
  kept : ∀ d, (∀ task ∈ tasks, ∀ k, ¬ Lands task.mergeMappings d k) →
    result.rows[d]? = running.rows[d]?

/-- The task writes inside a batch of `numTokens`. -/
def ItemTask.Fits (task : ItemTask F) (numTokens : Nat) : Prop :=
  ∀ m ∈ task.mergeMappings, m.destinationStart + m.length ≤ numTokens

/-- The rows of the task are rows of its item. -/
def ItemTask.Within (task : ItemTask F) (length : Nat) : Prop :=
  ∀ m ∈ task.mergeMappings, m.sourceStart + m.length ≤ length

variable {out : MultimodalDataItem F → List (List K)} {running result source packed : Mat K}
  {tasks : List (ItemTask F)}

theorem Overlaid.merged {pairs : List (RowOf × ItemTask F)}
    (out : MultimodalDataItem F → List (List K)) (h : Overlaid source pairs running result)
    (hrows : ∀ t ∈ pairs, ∀ k r v, t.1 k = .ok r → (out t.2.item)[k]? = some v →
      source.rows[r]? = some v) : Merged out (pairs.map Prod.snd) running result where
  cols := h.cols
  length := h.length
  covered := by
    rintro d v ⟨task, htask, k, hk⟩ hv
    obtain ⟨t, ht, rfl⟩ := List.mem_map.mp htask
    refine h.covered d v ⟨t, ht, k, hk⟩ fun u hu j r hj hr => ?_
    exact hrows u hu j r v hr (hv u.2 (List.mem_map_of_mem hu) j hj)
  kept := fun d hd => h.kept d fun t ht k => hd t.2 (List.mem_map_of_mem ht) k

theorem placedTasks_some {offsets : List Nat} (h : offsets.length = tasks.length) (start : Nat) :
    placedTasks start tasks (some offsets) =
      (offsets.zip tasks).map fun p => (rowsFrom p.1, p.2) := by
  induction tasks generalizing start offsets with
  | nil => cases offsets <;> simp [placedTasks]
  | cons task tasks ih =>
    cases offsets with
    | nil => cases h
    | cons offset offsets =>
      rw [placedTasks, ih (Nat.succ.inj h), List.zip_cons_cons, List.map_cons]

/-- The items stand in the packed array at the given rows. -/
structure LaidOut (out : MultimodalDataItem F → List (List K)) (packed : Mat K)
    (tasks : List (ItemTask F)) (offsets : List Nat) : Prop where
  count : offsets.length = tasks.length
  sum_le : (tasks.map ItemTask.outputLen).sum ≤ packed.rows.length
  inside : ∀ p ∈ offsets.zip tasks, p.1 + p.2.outputLen ≤ packed.rows.length
  rows : ∀ p ∈ offsets.zip tasks, ∀ k v, (out p.2.item)[k]? = some v →
    packed.rows[p.1 + k]? = some v

theorem gatherMerge_spec [Zero K] {offsets : List Nat} (hlaid : LaidOut out packed tasks offsets)
    (hcols : packed.cols = running.cols) (hfits : ∀ task ∈ tasks, task.Fits running.rows.length) :
    ∃ result, gatherMerge running packed tasks (some offsets) = .ok result ∧
      Merged out tasks running result := by
  have hplaced := placedTasks_some hlaid.count 0
  have hsnd : ((offsets.zip tasks).map fun p => (rowsFrom p.1, p.2)).map Prod.snd = tasks := by
    rw [List.map_map]
    exact List.map_snd_zip (Nat.le_of_eq hlaid.count.symm)
  have hmem : ∀ t ∈ (offsets.zip tasks).map (fun p => (rowsFrom p.1, p.2)), ∃ offset,
      (offset, t.2) ∈ offsets.zip tasks ∧ t.1 = rowsFrom offset := by
    intro t ht
    obtain ⟨p, hp, rfl⟩ := List.mem_map.mp ht
    exact ⟨p.1, hp, rfl⟩
  obtain ⟨indices, result, hindices, happly, hover⟩ := overlay running packed
    ((offsets.zip tasks).map fun p => (rowsFrom p.1, p.2)) hcols fun p hp => by
      obtain ⟨t, ht, m, hm, rfl⟩ := mem_taskMappings.mp hp
      obtain ⟨offset, htask, hrowOf⟩ := hmem t ht
      refine ⟨hfits t.2 (List.of_mem_zip htask).2 m hm, fun i _ => ?_⟩
      exact ⟨_, by rw [hrowOf]; rfl⟩
  have hmerged := hover.merged out fun t ht k r v hr hv => by
    obtain ⟨offset, htask, hrowOf⟩ := hmem t ht
    rw [hrowOf] at hr
    cases hr
    exact hlaid.rows _ htask k v hv
  rw [hsnd] at hmerged
  refine ⟨result, ?_, hmerged⟩
  have hshape : ¬ (packed.cols ≠ running.cols ∨
      packed.rows.length < (tasks.map ItemTask.outputLen).sum) := by
    rw [not_or]
    exact ⟨not_not_intro hcols, Nat.not_lt.mpr hlaid.sum_le⟩
  have hstarts : ¬ ∃ other ∈ some offsets, other.length ≠ tasks.length ∨
      ∃ p ∈ other.zip tasks, packed.rows.length < p.1 + p.2.outputLen := by
    rintro ⟨other, hother, hbad⟩
    cases hother
    rcases hbad with hbad | ⟨p, hp, hbad⟩
    · exact hbad hlaid.count
    · exact absurd (hlaid.inside p hp) (Nat.not_le.mpr hbad)
  have hcount : ¬ ∃ other ∈ some offsets, other.length ≠ tasks.length := by
    rintro ⟨other, hother, hbad⟩
    cases hother
    exact hbad hlaid.count
  simp only [gatherMerge, if_neg hshape, if_neg hstarts, buildGatherIndices, if_neg hcount,
    hplaced, hindices, ok_bind, happly]

theorem gatherFromPool_spec [Zero K] {pool : EmbeddingPool K} {entries : List EmbeddingPoolEntry}
    (hcols : pool.hidden = running.cols)
    (hcount : entries.length = tasks.length)
    (hentries : ∀ p ∈ entries.zip tasks, p.2.Fits running.rows.length ∧
      pool.Shows p.1 (out p.2.item) ∧ p.2.Within (out p.2.item).length) :
    ∃ result, gatherFromPool running pool tasks entries = .ok result ∧
      Merged out tasks running result := by
  have hsnd : ((entries.zip tasks).map fun p => (p.1.slot pool.pageSize, p.2)).map Prod.snd =
      tasks := by
    rw [List.map_map]
    exact List.map_snd_zip (Nat.le_of_eq hcount.symm)
  obtain ⟨indices, result, hindices, happly, hover⟩ := overlay running pool.pages
    ((entries.zip tasks).map fun p => (p.1.slot pool.pageSize, p.2)) hcols
    fun p hp => by
      obtain ⟨t, ht, m, hm, rfl⟩ := mem_taskMappings.mp hp
      obtain ⟨q, hq, rfl⟩ := List.mem_map.mp ht
      obtain ⟨hfits, ⟨hlength, hshows⟩, hwithin⟩ := hentries q hq
      refine ⟨hfits m hm, fun i hi => ?_⟩
      have hlt : m.sourceStart + i < q.1.length := by
        have := hwithin m hm
        dsimp only at hi
        omega
      obtain ⟨slot, hslot, -⟩ := hshows _ hlt
      exact ⟨slot, hslot⟩
  have hmerged := hover.merged out fun t ht k r v hr hv => by
    obtain ⟨q, hq, rfl⟩ := List.mem_map.mp ht
    obtain ⟨-, ⟨hlength, hshows⟩, -⟩ := hentries q hq
    have hlt := (List.getElem?_eq_some_iff.mp hv).1
    obtain ⟨slot, hslot, hget⟩ := hshows k (by rw [hlength]; exact hlt)
    dsimp only at hr
    rw [hslot] at hr
    cases hr
    rw [hget, hv]
  rw [hsnd] at hmerged
  exact ⟨result, by simp only [gatherFromPool, buildPoolGatherIndices, hindices, ok_bind, happly],
    hmerged⟩

namespace Merged

variable {first : List (ItemTask F)} {between : Mat K}

theorem nil (out : MultimodalDataItem F → List (List K)) (running : Mat K) :
    Merged out [] running running := ⟨rfl, rfl, by simp, fun _ _ => rfl⟩

/-- Only which tasks there are matters. -/
theorem congr {tasks' : List (ItemTask F)} (h : Merged out tasks running result)
    (heq : ∀ task, task ∈ tasks ↔ task ∈ tasks') : Merged out tasks' running result where
  cols := h.cols
  length := h.length
  covered := by simpa only [heq] using h.covered
  kept := by simpa only [heq] using h.kept

theorem trans (h : Merged out first running between) (h' : Merged out tasks between result) :
    Merged out (first ++ tasks) running result where
  cols := h'.cols.trans h.cols
  length := h'.length.trans h.length
  covered := by
    intro d v hd hv
    have hlater : ∀ task ∈ tasks, ∀ k, Lands task.mergeMappings d k →
        (out task.item)[k]? = some v := fun task ht => hv task (List.mem_append_right _ ht)
    by_cases hcovered : ∃ task ∈ tasks, ∃ k, Lands task.mergeMappings d k
    · exact h'.covered d v hcovered hlater
    · rw [h'.kept d fun task ht k hk => hcovered ⟨task, ht, k, hk⟩]
      apply h.covered d v ?_ fun task ht => hv task (List.mem_append_left _ ht)
      obtain ⟨task, ht, k, hk⟩ := hd
      rcases List.mem_append.mp ht with ht | ht
      · exact ⟨task, ht, k, hk⟩
      · exact absurd ⟨task, ht, k, hk⟩ hcovered
  kept := by
    intro d hd
    rw [h'.kept d fun task ht => hd task (List.mem_append_right _ ht),
      h.kept d fun task ht => hd task (List.mem_append_left _ ht)]

end Merged

end SglJax.Multimodal
