import SglJax.Multimodal.BatchTasks

/-! One modality of a prefill. The encoder packs the items of each lane one after the other,
and the host finds them again by their lengths. -/
namespace SglJax.Multimodal

open Lora (Mat)
open Foundation

variable {F K : Type}

/-- The lanes have equal parts of the packed array, each with the rows of its items from the
start on. -/
structure PacksLanes (output : MultimodalDataItem F → List (List K)) (capacity : Nat)
    (lanes : List (List (MultimodalDataItem F))) (packed : Mat K) : Prop where
  length : packed.rows.length = lanes.length * capacity
  fits : ∀ lane ∈ lanes, (lane.flatMap output).length ≤ capacity
  rows : ∀ (i : Nat) lane, lanes[i]? = some lane → ∀ (r : Nat) v,
    (lane.flatMap output)[r]? = some v → packed.rows[i * capacity + r]? = some v

/-- What the host relies on: the encoder of a modality takes its items in any lanes that are not
all empty, as many as there are. -/
structure Encodes (encodeFuncs : EncodeFuncs F K) (servable : MultimodalDataItem F → Prop)
    (numLanes width : Nat) (output : MultimodalDataItem F → List (List K)) : Prop where
  length : ∀ item, servable item → (output item).length = item.positions.length
  lanes : ∀ modality lanes, lanes.length = numLanes → (∃ lane ∈ lanes, lane ≠ []) →
    (∀ lane ∈ lanes, ∀ item ∈ lane, servable item ∧ item.modality = modality) →
    ∃ encode packed capacity, encodeFuncs modality = some encode ∧ encode lanes = .ok packed ∧
      packed.cols = width ∧ PacksLanes output capacity lanes packed

/-- The hash of an item tells its rows. -/
def HashesTell (servable : MultimodalDataItem F → Prop)
    (output : MultimodalDataItem F → List (List K)) : Prop :=
  ∀ item other, servable item → servable other → item.hash = other.hash →
    output item = output other

/-- A task of a batch of `numTokens`. -/
structure ItemTask.Sound (servable : MultimodalDataItem F → Prop)
    (output : MultimodalDataItem F → List (List K)) (numTokens : Nat) (task : ItemTask F) :
    Prop where
  servable : servable task.item
  outputLen : task.outputLen = (output task.item).length
  fits : task.Fits numTokens
  within : task.Within (output task.item).length

section Offsets

/-- The slice of the one ends where that of the other begins, or before. -/
def OffsetsApart (p q : Nat × ItemTask F) : Prop := p.1 + p.2.outputLen ≤ q.1

theorem length_startsFrom (offset : Nat) (tasks : List (ItemTask F)) :
    (startsFrom offset tasks).length = tasks.length := by
  induction tasks generalizing offset with
  | nil => rfl
  | cons task tasks ih => rw [startsFrom, List.length_cons, ih, List.length_cons]

theorem startsFrom_at {offset : Nat} {tasks : List (ItemTask F)} {p : Nat × ItemTask F}
    (h : p ∈ (startsFrom offset tasks).zip tasks) : ∃ before after,
      tasks = before ++ p.2 :: after ∧ p.1 = offset + (before.map ItemTask.outputLen).sum := by
  induction tasks generalizing offset with
  | nil => cases h
  | cons task tasks ih =>
    rw [startsFrom, List.zip_cons_cons] at h
    rcases List.mem_cons.mp h with rfl | h
    · exact ⟨[], tasks, rfl, rfl⟩
    · obtain ⟨before, after, hsplit, hstart⟩ := ih h
      refine ⟨task :: before, after, by rw [hsplit, List.cons_append], ?_⟩
      rw [hstart, List.map_cons, List.sum_cons, Nat.add_assoc]

theorem startsFrom_bounds {offset : Nat} {tasks : List (ItemTask F)} {p : Nat × ItemTask F}
    (h : p ∈ (startsFrom offset tasks).zip tasks) : offset ≤ p.1 ∧
      p.1 + p.2.outputLen ≤ offset + (tasks.map ItemTask.outputLen).sum := by
  obtain ⟨before, after, hsplit, hstart⟩ := startsFrom_at h
  rw [hstart, hsplit, List.map_append, List.map_cons, List.sum_append, List.sum_cons]
  omega

theorem startsFrom_apart (offset : Nat) (tasks : List (ItemTask F)) :
    ((startsFrom offset tasks).zip tasks).Pairwise OffsetsApart := by
  induction tasks generalizing offset with
  | nil => exact .nil
  | cons task tasks ih =>
    rw [startsFrom, List.zip_cons_cons]
    exact List.pairwise_cons.mpr ⟨fun q hq => (startsFrom_bounds hq).1, ih _⟩

/-- Each lane has its part, and its items stand in that part one after the other. -/
theorem laneItemOffsets_spec {capacity : Nat} (laneIndex : Nat) {lanes : List (List (ItemTask F))}
    (hfits : ∀ lane ∈ lanes, (lane.map ItemTask.outputLen).sum ≤ capacity) :
    ∃ offsets, laneItemOffsets capacity laneIndex lanes = .ok offsets ∧
      offsets.length = lanes.flatten.length ∧
      (offsets.zip lanes.flatten).Pairwise OffsetsApart ∧
      ∀ p ∈ offsets.zip lanes.flatten, ∃ (i : Nat) (lane : List (ItemTask F)),
        lanes[i]? = some lane ∧ p ∈ (startsFrom ((laneIndex + i) * capacity) lane).zip lane := by
  induction lanes generalizing laneIndex with
  | nil => exact ⟨[], rfl, rfl, .nil, fun p hp => by cases hp⟩
  | cons lane lanes ih =>
    obtain ⟨offsets, hrun, hlength, hapart, hat⟩ := ih (laneIndex + 1)
      fun l hl => hfits l (List.mem_cons_of_mem lane hl)
    have hfit := hfits lane List.mem_cons_self
    have hnext : (laneIndex + 1) * capacity = laneIndex * capacity + capacity :=
      Nat.succ_mul laneIndex capacity
    have hzip : (startsFrom (laneIndex * capacity) lane ++ offsets).zip (lane :: lanes).flatten =
        (startsFrom (laneIndex * capacity) lane).zip lane ++ offsets.zip lanes.flatten := by
      rw [List.flatten_cons, List.zip_append (length_startsFrom _ lane)]
    refine ⟨startsFrom (laneIndex * capacity) lane ++ offsets, ?_, ?_, ?_, ?_⟩
    · rw [laneItemOffsets, if_neg (by omega), hrun, ok_bind]
      rfl
    · rw [List.length_append, length_startsFrom, hlength, List.flatten_cons, List.length_append]
    · rw [hzip]
      apply List.pairwise_append.mpr
      refine ⟨startsFrom_apart _ lane, hapart, fun p hp q hq => ?_⟩
      have hend := (startsFrom_bounds hp).2
      obtain ⟨i, other, -, hq⟩ := hat q hq
      have hstart := (startsFrom_bounds hq).1
      have hle : (laneIndex + 1) * capacity ≤ (laneIndex + 1 + i) * capacity :=
        Nat.mul_le_mul_right _ (Nat.le_add_right _ _)
      unfold OffsetsApart
      omega
    · intro p hp
      rw [hzip] at hp
      rcases List.mem_append.mp hp with hp | hp
      · exact ⟨0, lane, rfl, hp⟩
      · obtain ⟨i, other, hget, hp⟩ := hat p hp
        rw [Nat.add_assoc, Nat.add_comm 1 i] at hp
        exact ⟨i + 1, other, hget, hp⟩

end Offsets

section Lanes

variable {servable : MultimodalDataItem F → Prop}
  {output : MultimodalDataItem F → List (List K)} {numTokens capacity : Nat}
  {lanes : List (List (ItemTask F))} {packed : Mat K}

theorem length_flatMap_output {tasks : List (ItemTask F)}
    (hsound : ∀ task ∈ tasks, task.Sound servable output numTokens) :
    ((tasks.map ItemTask.item).flatMap output).length = (tasks.map ItemTask.outputLen).sum := by
  induction tasks with
  | nil => rfl
  | cons task tasks ih =>
    rw [List.map_cons, List.flatMap_cons, List.length_append,
      ih fun t ht => hsound t (List.mem_cons_of_mem task ht), List.map_cons, List.sum_cons,
      (hsound task List.mem_cons_self).outputLen]

/-- The host finds the items where the encoder has put them. -/
theorem PacksLanes.laidOut
    (hpacks : PacksLanes output capacity (lanes.map fun tasks => tasks.map ItemTask.item) packed)
    (hsound : ∀ lane ∈ lanes, ∀ task ∈ lane, task.Sound servable output numTokens) :
    ∃ offsets, laneItemOffsets capacity 0 lanes = .ok offsets ∧
      LaidOut output packed lanes.flatten offsets ∧
      (offsets.zip lanes.flatten).Pairwise OffsetsApart := by
  have hfits : ∀ lane ∈ lanes, (lane.map ItemTask.outputLen).sum ≤ capacity := by
    intro lane hlane
    rw [← length_flatMap_output (hsound lane hlane)]
    exact hpacks.fits _ (List.mem_map_of_mem hlane)
  obtain ⟨offsets, hrun, hlength, hapart, hat⟩ := laneItemOffsets_spec 0 hfits
  have hrows : packed.rows.length = lanes.length * capacity := by
    rw [hpacks.length, List.length_map]
  refine ⟨offsets, hrun, ⟨hlength, ?_, fun p hp => ?_, fun p hp k v hv => ?_⟩, hapart⟩
  · rw [hrows]
    clear hrows hat hapart hlength hrun hpacks hsound
    induction lanes with
    | nil => simp
    | cons lane lanes ih =>
      have hhead := hfits lane List.mem_cons_self
      have htail := ih fun l hl => hfits l (List.mem_cons_of_mem lane hl)
      rw [List.flatten_cons, List.map_append, List.sum_append, List.length_cons, Nat.succ_mul]
      omega
  · obtain ⟨i, lane, hget, hp⟩ := hat p hp
    have hend := (startsFrom_bounds hp).2
    have hfit := hfits lane (List.mem_of_getElem? hget)
    have hlt := (List.getElem?_eq_some_iff.mp hget).1
    have hle : (i + 1) * capacity ≤ lanes.length * capacity := Nat.mul_le_mul_right _ hlt
    rw [Nat.succ_mul] at hle
    rw [Nat.zero_add] at hend
    omega
  · obtain ⟨i, lane, hget, hp⟩ := hat p hp
    obtain ⟨before, after, hsplit, hstart⟩ := startsFrom_at hp
    have hsounds := hsound lane (List.mem_of_getElem? hget)
    have hbefore : ((before.map ItemTask.item).flatMap output).length =
        (before.map ItemTask.outputLen).sum := length_flatMap_output fun t ht =>
      hsounds t (by rw [hsplit]; exact List.mem_append_left _ ht)
    have hlane : ((lane.map ItemTask.item).flatMap output)[
        (before.map ItemTask.outputLen).sum + k]? = some v := by
      have hk := (List.getElem?_eq_some_iff.mp hv).1
      rw [hsplit, List.map_append, List.flatMap_append,
        List.getElem?_append_right (by rw [hbefore]; omega), hbefore, Nat.add_sub_cancel_left,
        List.map_cons, List.flatMap_cons, List.getElem?_append_left hk, hv]
    have hpacked := hpacks.rows i (lane.map ItemTask.item)
      (by rw [List.getElem?_map, hget, Option.map_some]) _ v hlane
    rw [hstart, Nat.zero_add, Nat.add_assoc]
    exact hpacked

end Lanes

end SglJax.Multimodal
